import GrokBuild.HunkTracker.Diff
import Mathlib.Data.List.Nodup

/-!
# Edit scripts as blocks

A line edit script is a sequence of blocks, each some kept lines and then deleted and
inserted lines, with kept lines at the end. The loop of `compute_hunks` builds one hunk for
each block, and both batch loops apply the blocks from the last to the first.
-/

namespace GrokBuild.HunkTracker

open Text

structure Block where
  keep : List Str
  del : List Str
  ins : List Str

namespace Block

def oldLines (b : Block) : List Str := b.keep ++ b.del

def newLines (b : Block) : List Str := b.keep ++ b.ins

/-- The block of the inverse edit. -/
def swap (b : Block) : Block := { keep := b.keep, del := b.ins, ins := b.del }

@[simp] theorem keep_swap (b : Block) : b.swap.keep = b.keep := rfl

@[simp] theorem del_swap (b : Block) : b.swap.del = b.ins := rfl

@[simp] theorem ins_swap (b : Block) : b.swap.ins = b.del := rfl

end Block

/-- The lines of the old text in a script. -/
def oldTokens : List Change → List Str
  | [] => []
  | ⟨.insert, _⟩ :: s => oldTokens s
  | ⟨_, v⟩ :: s => v :: oldTokens s

/-- The lines of the new text in a script. -/
def newTokens : List Change → List Str
  | [] => []
  | ⟨.delete, _⟩ :: s => newTokens s
  | ⟨_, v⟩ :: s => v :: newTokens s

/-- Put one change in front of a script already cut into blocks. -/
def consBlock (change : Change) : List Block × List Str → List Block × List Str
  | ([], tail) =>
    match change.tag with
    | .equal => ([], change.value :: tail)
    | .delete => ([{ keep := [], del := [change.value], ins := [] }], tail)
    | .insert => ([{ keep := [], del := [], ins := [change.value] }], tail)
  | (b :: bs, tail) =>
    match change.tag with
    | .equal => ({ b with keep := change.value :: b.keep } :: bs, tail)
    | .delete =>
      if b.keep = [] then ({ b with del := change.value :: b.del } :: bs, tail)
      else ({ keep := [], del := [change.value], ins := [] } :: b :: bs, tail)
    | .insert =>
      if b.keep = [] then ({ b with ins := change.value :: b.ins } :: bs, tail)
      else ({ keep := [], del := [], ins := [change.value] } :: b :: bs, tail)

def blocksOf (script : List Change) : List Block × List Str :=
  script.foldr consBlock ([], [])

@[simp] theorem blocksOf_nil : blocksOf [] = ([], []) := rfl

theorem blocksOf_cons (change : Change) (script : List Change) :
    blocksOf (change :: script) = consBlock change (blocksOf script) := rfl

/-- The builders of the blocks, from the given line numbers on. -/
def builders (oldLine newLine : ℕ) : List Block → List HunkBuilder
  | [] => []
  | b :: bs =>
    { oldStart := oldLine + b.keep.length, newStart := newLine + b.keep.length,
      oldLines := b.del, newLines := b.ins } ::
      builders (oldLine + b.keep.length + b.del.length) (newLine + b.keep.length + b.ins.length) bs

/-- The builders when a hunk may be in progress. -/
def resume (current : Option HunkBuilder) (oldLine newLine : ℕ) (blocks : List Block) :
    List HunkBuilder :=
  match current, blocks with
  | none, bs => builders oldLine newLine bs
  | some h, [] => [h]
  | some h, b :: bs =>
    if b.keep = [] then
      { h with oldLines := h.oldLines ++ b.del, newLines := h.newLines ++ b.ins } ::
        builders (oldLine + b.del.length) (newLine + b.ins.length) bs
    else h :: builders oldLine newLine (b :: bs)

theorem resume_equal (cur : Option HunkBuilder) (o n : ℕ) (v : Str) (B : List Block × List Str) :
    resume cur o n (consBlock ⟨.equal, v⟩ B).1 = cur.toList ++ builders (o + 1) (n + 1) B.1 := by
  obtain ⟨bs, tail⟩ := B
  cases bs with
  | nil => cases cur <;> simp [consBlock, resume, builders]
  | cons b bs => cases cur <;> simp [consBlock, resume, builders, Nat.add_assoc, Nat.add_comm 1]

theorem resume_delete (cur : Option HunkBuilder) (o n : ℕ) (v : Str) (B : List Block × List Str) :
    resume cur o n (consBlock ⟨.delete, v⟩ B).1 =
      let hunk := cur.getD { oldStart := o, newStart := n }
      resume (some { hunk with oldLines := hunk.oldLines ++ [v] }) (o + 1) n B.1 := by
  obtain ⟨bs, tail⟩ := B
  cases bs with
  | nil => cases cur <;> simp [consBlock, resume, builders]
  | cons b bs =>
    by_cases hk : b.keep = []
    · cases cur <;> simp [consBlock, resume, builders, hk, Nat.add_assoc,
        Nat.add_comm 1]
    · cases cur <;> simp [consBlock, resume, builders, hk]

theorem resume_insert (cur : Option HunkBuilder) (o n : ℕ) (v : Str) (B : List Block × List Str) :
    resume cur o n (consBlock ⟨.insert, v⟩ B).1 =
      let hunk := cur.getD { oldStart := o, newStart := n }
      resume (some { hunk with newLines := hunk.newLines ++ [v] }) o (n + 1) B.1 := by
  obtain ⟨bs, tail⟩ := B
  cases bs with
  | nil => cases cur <;> simp [consBlock, resume, builders]
  | cons b bs =>
    by_cases hk : b.keep = []
    · cases cur <;> simp [consBlock, resume, builders, hk, Nat.add_assoc,
        Nat.add_comm 1]
    · cases cur <;> simp [consBlock, resume, builders, hk]

section Compute

variable {HunkId Path : Type*} (newId : ℕ → HunkId) (path : Path) (source : HunkSource)

/-- The loop of `compute_hunks` from any of its states. -/
theorem foldl_step_finalize (script : List Change) (l : DiffLoop HunkId Path) :
    ((script.foldl (DiffLoop.step newId path source) l).finalize newId path source).hunks =
      l.hunks ++ (resume l.currentHunk l.oldLine l.newLine (blocksOf script).1).mapIdx
        fun k b => b.build (newId (l.hunks.length + k)) path source := by
  induction script generalizing l with
  | nil =>
    obtain ⟨hunks, o, n, cur⟩ := l
    cases cur with
    | none => simp [DiffLoop.finalize, resume, builders]
    | some h => simp [DiffLoop.finalize, resume]
  | cons change script ih =>
    obtain ⟨hunks, o, n, cur⟩ := l
    obtain ⟨tag, v⟩ := change
    rw [List.foldl_cons, ih, blocksOf_cons]
    cases tag with
    | equal =>
      rw [resume_equal]
      cases cur with
      | none => rfl
      | some h =>
        simp [DiffLoop.step, DiffLoop.finalize, resume, List.mapIdx_cons, Nat.add_assoc,
          Nat.add_comm 1]
    | delete => rw [resume_delete]; rfl
    | insert => rw [resume_insert]; rfl

theorem hunksOfChanges_eq (script : List Change) :
    hunksOfChanges newId path source script =
      (builders 1 1 (blocksOf script).1).mapIdx fun k b => b.build (newId k) path source := by
  have h := foldl_step_finalize newId path source script {}
  simpa [hunksOfChanges, resume] using h

end Compute

/-! ## Well-laid blocks -/

/-- Only the first block can have no kept line, and every block changes something. -/
def Separated : List Block → Prop
  | [] => True
  | b :: bs => (b.del ≠ [] ∨ b.ins ≠ []) ∧ (∀ b' ∈ bs, b'.keep ≠ []) ∧ Separated bs

theorem Separated.swap {bs : List Block} (h : Separated bs) : Separated (bs.map Block.swap) := by
  induction bs with
  | nil => trivial
  | cons b bs ih =>
    obtain ⟨hc, hk, hs⟩ := h
    refine ⟨hc.symm, ?_, ih hs⟩
    simpa using hk

theorem separated_blocksOf (script : List Change) : Separated (blocksOf script).1 := by
  induction script with
  | nil => trivial
  | cons change script ih =>
    rw [blocksOf_cons]
    obtain ⟨tag, v⟩ := change
    generalize blocksOf script = B at ih ⊢
    obtain ⟨bs, tail⟩ := B
    cases bs with
    | nil => cases tag <;> simp [consBlock, Separated]
    | cons b bs =>
      obtain ⟨hc, hk, hs⟩ := ih
      cases tag with
      | equal => exact ⟨hc, hk, hs⟩
      | delete =>
        by_cases hb : b.keep = []
        · simp only [consBlock, hb, if_true]
          exact ⟨Or.inl (by simp), hk, hs⟩
        · simp only [consBlock, hb, if_false]
          refine ⟨Or.inl (by simp), ?_, hc, hk, hs⟩
          simpa [hb] using hk
      | insert =>
        by_cases hb : b.keep = []
        · simp only [consBlock, hb, if_true]
          exact ⟨Or.inr (by simp), hk, hs⟩
        · simp only [consBlock, hb, if_false]
          refine ⟨Or.inr (by simp), ?_, hc, hk, hs⟩
          simpa [hb] using hk

def blocksOld (blocks : List Block) : List Str := blocks.flatMap Block.oldLines

def blocksNew (blocks : List Block) : List Str := blocks.flatMap Block.newLines

@[simp] theorem blocksOld_nil : blocksOld [] = [] := rfl

@[simp] theorem blocksOld_cons (b : Block) (bs : List Block) :
    blocksOld (b :: bs) = b.keep ++ b.del ++ blocksOld bs := by
  simp [blocksOld, Block.oldLines]

@[simp] theorem blocksNew_nil : blocksNew [] = [] := rfl

@[simp] theorem blocksNew_cons (b : Block) (bs : List Block) :
    blocksNew (b :: bs) = b.keep ++ b.ins ++ blocksNew bs := by
  simp [blocksNew, Block.newLines]

theorem oldTokens_eq (script : List Change) :
    oldTokens script = blocksOld (blocksOf script).1 ++ (blocksOf script).2 := by
  induction script with
  | nil => rfl
  | cons change script ih =>
    rw [blocksOf_cons]
    generalize blocksOf script = B at ih ⊢
    obtain ⟨tag, v⟩ := change
    obtain ⟨bs, tail⟩ := B
    cases bs with
    | nil => cases tag <;> simp_all [consBlock, oldTokens]
    | cons b bs =>
      by_cases hb : b.keep = []
      · cases tag <;> simp_all [consBlock, oldTokens]
      · cases tag <;> simp_all [consBlock, oldTokens]

theorem newTokens_eq (script : List Change) :
    newTokens script = blocksNew (blocksOf script).1 ++ (blocksOf script).2 := by
  induction script with
  | nil => rfl
  | cons change script ih =>
    rw [blocksOf_cons]
    generalize blocksOf script = B at ih ⊢
    obtain ⟨tag, v⟩ := change
    obtain ⟨bs, tail⟩ := B
    cases bs with
    | nil => cases tag <;> simp_all [consBlock, newTokens]
    | cons b bs =>
      by_cases hb : b.keep = []
      · cases tag <;> simp_all [consBlock, newTokens]
      · cases tag <;> simp_all [consBlock, newTokens]

/-! ## The batch loops -/

/-- Apply the blocks from the last to the first, the lines of the first starting at
`newLine`. -/
def revert (newLine : ℕ) : List Block → Str → Str
  | [], content => content
  | b :: bs, content =>
    patchLines (revert (newLine + b.keep.length + b.ins.length) bs content)
      (newLine + b.keep.length) b.ins.length b.del.flatten

section Sorted

variable {HunkId Path : Type*} (newId : ℕ → HunkId) (path : Path) (source : HunkSource)

theorem builders_swap (o n : ℕ) (bs : List Block) :
    builders n o (bs.map Block.swap) =
      (builders o n bs).map fun h =>
        { oldStart := h.newStart, newStart := h.oldStart, oldLines := h.newLines,
          newLines := h.oldLines } := by
  induction bs generalizing o n with
  | nil => rfl
  | cons b bs ih => simp [builders, ih]

theorem lt_newStart_of_mem_builders {bs : List Block} (hk : ∀ b ∈ bs, b.keep ≠ []) {o n : ℕ}
    {h : HunkBuilder} (hh : h ∈ builders o n bs) : n < h.newStart := by
  induction bs generalizing o n with
  | nil => simp [builders] at hh
  | cons b bs ih =>
    have hb : 0 < b.keep.length := List.length_pos_iff.mpr (hk b (by simp))
    rcases List.mem_cons.mp hh with rfl | hh
    · simp only
      omega
    · have := ih (fun b' hb' => hk b' (by simp [hb'])) hh
      omega

theorem builders_newStart_pairwise {bs : List Block} (hs : Separated bs) (o n : ℕ) :
    (builders o n bs).Pairwise fun a b => a.newStart < b.newStart := by
  induction bs generalizing o n with
  | nil => exact List.Pairwise.nil
  | cons b bs ih =>
    obtain ⟨_, hk, hs⟩ := hs
    apply List.Pairwise.cons
    · intro h hh
      have := lt_newStart_of_mem_builders hk hh
      simp only
      omega
    · exact ih hs _ _

/-- A list whose keys grow strictly is reversed by a descending sort. -/
theorem mergeSort_desc {α : Type*} (key : α → ℕ) {l : List α}
    (h : l.Pairwise fun a b => key a < key b) :
    l.mergeSort (fun a b => decide (key b ≤ key a)) = l.reverse := by
  have hsorted : l.reverse.Pairwise fun a b => decide (key b ≤ key a) = true := by
    rw [List.pairwise_reverse]
    apply h.imp
    intro a b hab
    simpa using hab.le
  have hnodup : (l.map key).Nodup := List.pairwise_map.mpr (h.imp ne_of_lt)
  refine List.Perm.eq_of_pairwise ?_ ?_ hsorted
    ((List.mergeSort_perm _ _).trans (List.reverse_perm l).symm)
  · intro a b ha hb h1 h2
    have ha' : a ∈ l := (List.mergeSort_perm _ _).mem_iff.mp ha
    have hb' : b ∈ l := List.mem_reverse.mp hb
    simp only [decide_eq_true_eq] at h1 h2
    exact List.inj_on_of_nodup_map hnodup ha' hb' (le_antisymm h2 h1)
  · apply List.pairwise_mergeSort
    · intro a b c hab hbc
      simp only [decide_eq_true_eq] at hab hbc ⊢
      omega
    · intro a b
      simp only [Bool.or_eq_true, decide_eq_true_eq]
      omega

theorem revert_eq_foldr (o n : ℕ) (bs : List Block) (content : Str) :
    revert n bs content =
      (builders o n bs).foldr (fun h cur =>
        patchLines cur h.newStart h.newLines.length h.oldLines.flatten) content := by
  induction bs generalizing o n with
  | nil => rfl
  | cons b bs ih =>
    rw [builders, List.foldr_cons, ← ih]
    rfl

/-- What the batch loops read of a hunk. -/
def Hunk.patchData (h : Hunk HunkId Path) : HunkLineInfo × Str × Str :=
  (h.lineInfo, h.oldText.getD [], h.newText)

def HunkBuilder.patchData (b : HunkBuilder) : HunkLineInfo × Str × Str :=
  ({ oldStart := b.oldStart, oldCount := b.oldLines.length, newStart := b.newStart,
     newCount := b.newLines.length }, b.oldLines.flatten, b.newLines.flatten)

theorem HunkBuilder.patchData_build (b : HunkBuilder) (id : HunkId) :
    (b.build id path source).patchData = b.patchData := by
  by_cases h : b.oldLines = []
  · simp [build, Hunk.patchData, patchData, h]
  · simp [build, Hunk.patchData, patchData, h]

theorem map_patchData_hunks (script : List Change) :
    (hunksOfChanges newId path source script).map Hunk.patchData =
      (builders 1 1 (blocksOf script).1).map HunkBuilder.patchData := by
  rw [hunksOfChanges_eq]
  apply List.ext_getElem?
  intro i
  simp only [List.getElem?_map, List.getElem?_mapIdx, Option.map_map]
  congr 1
  funext b
  exact b.patchData_build path source (newId i)

theorem hunksOfChanges_newStart_pairwise (script : List Change) :
    (hunksOfChanges newId path source script).Pairwise fun a b =>
      a.lineInfo.newStart < b.lineInfo.newStart := by
  have hb := builders_newStart_pairwise (separated_blocksOf script) 1 1
  have hd : ((builders 1 1 (blocksOf script).1).map HunkBuilder.patchData).Pairwise
      fun a b => a.1.newStart < b.1.newStart := List.pairwise_map.mpr hb
  rwa [← map_patchData_hunks newId path source, List.pairwise_map] at hd

theorem rejectPatches_hunks (script : List Change) (content : Str) :
    rejectPatches content (hunksOfChanges newId path source script) =
      revert 1 (blocksOf script).1 content := by
  have hp := hunksOfChanges_newStart_pairwise newId path source script
  have hfold : (hunksOfChanges newId path source script).foldr (fun h cur =>
      patchLines cur h.lineInfo.newStart h.lineInfo.newCount (h.oldText.getD [])) content =
      ((hunksOfChanges newId path source script).map Hunk.patchData).foldr (fun d cur =>
        patchLines cur d.1.newStart d.1.newCount d.2.1) content := by
    rw [List.foldr_map]
    rfl
  have hsort := mergeSort_desc (fun h : Hunk HunkId Path => h.lineInfo.newStart) hp
  unfold rejectPatches
  simp only [hsort, List.foldl_reverse]
  rw [hfold, map_patchData_hunks, List.foldr_map, revert_eq_foldr 1]
  rfl

theorem builders_oldStart_pairwise {bs : List Block} (hs : Separated bs) (o n : ℕ) :
    (builders o n bs).Pairwise fun a b => a.oldStart < b.oldStart := by
  have hb := builders_newStart_pairwise hs.swap n o
  rwa [builders_swap, List.pairwise_map] at hb

/-- Accepting is reverting the inverse edit. -/
theorem acceptPatches_hunks (script : List Change) (content : Str) :
    acceptPatches content (hunksOfChanges newId path source script) =
      revert 1 ((blocksOf script).1.map Block.swap) content := by
  have hp : (hunksOfChanges newId path source script).Pairwise fun a b =>
      a.lineInfo.oldStart < b.lineInfo.oldStart := by
    have hb := builders_oldStart_pairwise (separated_blocksOf script) 1 1
    have hd : ((builders 1 1 (blocksOf script).1).map HunkBuilder.patchData).Pairwise
        fun a b => a.1.oldStart < b.1.oldStart := List.pairwise_map.mpr hb
    rwa [← map_patchData_hunks newId path source, List.pairwise_map] at hd
  have hfold : (hunksOfChanges newId path source script).foldr (fun h cur =>
      patchLines cur h.lineInfo.oldStart h.lineInfo.oldCount h.newText) content =
      ((hunksOfChanges newId path source script).map Hunk.patchData).foldr (fun d cur =>
        patchLines cur d.1.oldStart d.1.oldCount d.2.2) content := by
    rw [List.foldr_map]
    rfl
  have hsort := mergeSort_desc (fun h : Hunk HunkId Path => h.lineInfo.oldStart) hp
  unfold acceptPatches
  simp only [hsort, List.foldl_reverse]
  rw [hfold, map_patchData_hunks, List.foldr_map, revert_eq_foldr 1, builders_swap,
    List.foldr_map]
  rfl

end Sorted

end GrokBuild.HunkTracker
