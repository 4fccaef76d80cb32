import GrokBuild.HunkTracker.Matching

/-!
# Recomputing the hunks of a file

The pure part of `recompute_hunks`: the hunks of the new contents, the ids and sources they
take over from the old hunks, and the events that tell a client what happened.
-/

namespace GrokBuild.HunkTracker

open Text

inductive FileContentState
  | missing
  | binary (byteLen : Option ℕ)
  | tooLarge (byteLen : ℕ)
  | lfsPointer (byteLen : ℕ)
  | symlink
  | full (text : Str)
deriving DecidableEq, Repr

def FileContentState.isDiffable : FileContentState → Bool
  | .full _ => true
  | _ => false

inductive HunkRemovalReason
  | accepted
  | rejected
  | superseded
deriving DecidableEq, Repr

inductive HunkEvent (HunkId Path : Type*)
  | hunkAdded (path : Path) (hunk : Hunk HunkId Path)
  | hunkRemoved (path : Path) (hunkId : HunkId) (reason : HunkRemovalReason)
  | hunkMoved (path : Path) (hunkId : HunkId) (newLineInfo : HunkLineInfo)
  | hunkContentChanged (path : Path) (hunk : Hunk HunkId Path) (triggerSource : HunkSource)
      (prevLinesAdded prevLinesRemoved : ℕ)
  | fileAdded (path : Path) (isAgentFile : Bool)
  | fileRemoved (path : Path)
  | baselineUpdated (path : Path)
deriving DecidableEq, Repr

section Recompute

variable {HunkId Path : Type*} [DecidableEq HunkId] [DecidableEq Path]

/-- The hunks of the new contents, before old ids are carried over: only text against text
is diffed, and a whole file can appear or go. -/
def rawHunks (diffLines : Str → Str → Option (List Change)) (newId : ℕ → HunkId) (path : Path)
    (baseline current : FileContentState) (source : HunkSource) : List (Hunk HunkId Path) :=
  match baseline, current with
  | .full baseline, .full current => computeHunks diffLines newId path baseline current source
  | .full baseline, .missing =>
    if baseline.isEmpty then [] else [Hunk.fileDeleted (newId 0) path baseline source]
  | .missing, .full current =>
    if current.isEmpty then [] else [Hunk.fileCreated (newId 0) path current source]
  | _, _ => []

/-- An external edit keeps the attribution of the agent edit it takes over. -/
def inheritSource (new old : HunkSource) : HunkSource :=
  if new.isExternal && old.isAgentEdit then old else new

/-- One turn of the loop that preserves ids: the hunk, and the old ids claimed after it. -/
def claimOld (old : List (Hunk HunkId Path)) (claimed : List HunkId) (n : Hunk HunkId Path) :
    Hunk HunkId Path × List HunkId :=
  match findMatchingOldHunk n old with
  | none => (n, claimed)
  | some best =>
    if best.id ∈ claimed then (n, claimed)
    else ({ n with id := best.id, source := inheritSource n.source best.source },
      best.id :: claimed)

def preserveIds (old : List (Hunk HunkId Path)) :
    List HunkId → List (Hunk HunkId Path) → List (Hunk HunkId Path)
  | _, [] => []
  | claimed, n :: ns =>
    (claimOld old claimed n).1 :: preserveIds old (claimOld old claimed n).2 ns

/-- The event for an old hunk that nothing in the new list continues. -/
def removedEvent (path : Path) (new : List (Hunk HunkId Path)) (o : Hunk HunkId Path) :
    Option (HunkEvent HunkId Path) :=
  if new.any fun n => hunksOverlap o n || hunksMatchContent o n then none
  else some (.hunkRemoved path o.id .superseded)

/-- The event for a new hunk. -/
def newHunkEvent (path : Path) (old : List (Hunk HunkId Path)) (triggerSource : HunkSource)
    (n : Hunk HunkId Path) : Option (HunkEvent HunkId Path) :=
  match firstMatch n old with
  | some o => if hunkMoved o n then some (.hunkMoved path o.id n.lineInfo) else none
  | none =>
    if !(old.any fun o => hunksOverlap o n) then some (.hunkAdded path n)
    else
      let prev := (old.find? fun o => o.id == n.id).or (old.find? fun o => hunksOverlap o n)
      some (.hunkContentChanged path n triggerSource
        ((prev.map (·.lineInfo.newCount)).getD 0) ((prev.map (·.lineInfo.oldCount)).getD 0))

def emitHunkDiffEvents (path : Path) (old new : List (Hunk HunkId Path))
    (triggerSource : HunkSource) : List (HunkEvent HunkId Path) :=
  old.filterMap (removedEvent path new) ++ new.filterMap (newHunkEvent path old triggerSource)

/-- `recompute_hunks` on the hunks of one file: the new list and the events sent. -/
def recomputeHunks (diffLines : Str → Str → Option (List Change)) (newId : ℕ → HunkId)
    (path : Path) (baseline current : FileContentState) (source : HunkSource)
    (old : List (Hunk HunkId Path)) : List (Hunk HunkId Path) × List (HunkEvent HunkId Path) :=
  let new := preserveIds old [] (rawHunks diffLines newId path baseline current source)
  (new, emitHunkDiffEvents path old new source)

/-! ## The raw hunks -/

section Raw

variable (diffLines : Str → Str → Option (List Change)) (newId : ℕ → HunkId) (path : Path)
  (baseline current : FileContentState) (source : HunkSource)

omit [DecidableEq HunkId] [DecidableEq Path] in
theorem hunksOfChanges_ids (script : List Change) :
    (hunksOfChanges newId path source script).map Hunk.id =
      (List.range (hunksOfChanges newId path source script).length).map newId := by
  rw [hunksOfChanges_eq, List.length_mapIdx]
  apply List.ext_getElem?
  intro i
  by_cases hi : i < (builders 1 1 (blocksOf script).1).length
  · simp [hi, HunkBuilder.build]
  · simp [hi]

omit [DecidableEq HunkId] [DecidableEq Path] in
/-- The raw hunks of a file are those of an edit script, or at most one. -/
theorem rawHunks_cases :
    (∃ script, rawHunks diffLines newId path baseline current source =
      hunksOfChanges newId path source script) ∨
    (∃ h, rawHunks diffLines newId path baseline current source = [h] ∧ h.id = newId 0 ∧
      h.path = path ∧ h.source = source) := by
  have hnil : ([] : List (Hunk HunkId Path)) = hunksOfChanges newId path source [] := rfl
  unfold rawHunks
  split
  · unfold computeHunks
    left
    split
    · exact ⟨[], hnil⟩
    · split
      · exact ⟨[], hnil⟩
      · split
        · exact ⟨[], hnil⟩
        · exact ⟨_, rfl⟩
  · split
    · exact Or.inl ⟨[], hnil⟩
    · exact Or.inr ⟨_, rfl, rfl, rfl, rfl⟩
  · split
    · exact Or.inl ⟨[], hnil⟩
    · exact Or.inr ⟨_, rfl, rfl, rfl, rfl⟩
  · exact Or.inl ⟨[], hnil⟩

omit [DecidableEq HunkId] [DecidableEq Path] in
theorem rawHunks_ids :
    (rawHunks diffLines newId path baseline current source).map Hunk.id =
      (List.range (rawHunks diffLines newId path baseline current source).length).map newId := by
  rcases rawHunks_cases diffLines newId path baseline current source with
    ⟨script, h⟩ | ⟨x, h, hid, -⟩
  · rw [h, hunksOfChanges_ids]
  · rw [h]
    simp [hid]

omit [DecidableEq HunkId] [DecidableEq Path] in
theorem rawHunks_positions :
    ((rawHunks diffLines newId path baseline current source).map Hunk.lineInfo).Nodup := by
  rcases rawHunks_cases diffLines newId path baseline current source with
    ⟨script, h⟩ | ⟨x, h, -⟩
  · rw [h, List.Nodup, List.pairwise_map]
    apply (hunksOfChanges_newStart_pairwise newId path source script).imp
    intro a b hab heq
    rw [heq] at hab
    exact lt_irrefl _ hab
  · rw [h]
    simp

end Raw

/-! ## The carried-over list -/

section Preserve

variable (old : List (Hunk HunkId Path))

/-- A hunk of the new list differs from the raw one in its id and source only. -/
theorem claimOld_fields (claimed : List HunkId) (n : Hunk HunkId Path) :
    (claimOld old claimed n).1.path = n.path ∧
      (claimOld old claimed n).1.lineInfo = n.lineInfo ∧
      (claimOld old claimed n).1.oldText = n.oldText ∧
      (claimOld old claimed n).1.newText = n.newText := by
  unfold claimOld
  cases findMatchingOldHunk n old with
  | none => simp
  | some best => by_cases h : best.id ∈ claimed <;> simp [h]

/-- The ids claimed after a list of hunks. -/
def claimedAfter (claimed : List HunkId) : List (Hunk HunkId Path) → List HunkId
  | [] => claimed
  | n :: ns => claimedAfter (claimOld old claimed n).2 ns

theorem mem_claimOld {claimed : List HunkId} {n : Hunk HunkId Path} {id : HunkId} :
    id ∈ (claimOld old claimed n).2 ↔
      id ∈ claimed ∨ ∃ o, findMatchingOldHunk n old = some o ∧ o.id = id := by
  unfold claimOld
  cases findMatchingOldHunk n old with
  | none => simp
  | some best =>
    by_cases h : best.id ∈ claimed
    · simp only [h, if_true, Option.some.injEq, exists_eq_left']
      constructor
      · exact Or.inl
      · rintro (hc | rfl)
        · exact hc
        · exact h
    · simp only [h, if_false, List.mem_cons, Option.some.injEq, exists_eq_left']
      constructor
      · rintro (rfl | hc)
        · exact Or.inr rfl
        · exact Or.inl hc
      · rintro (hc | rfl)
        · exact Or.inr hc
        · exact Or.inl rfl

theorem mem_claimedAfter {claimed : List HunkId} {ns : List (Hunk HunkId Path)} {id : HunkId} :
    id ∈ claimedAfter old claimed ns ↔
      id ∈ claimed ∨ ∃ n ∈ ns, ∃ o, findMatchingOldHunk n old = some o ∧ o.id = id := by
  induction ns generalizing claimed with
  | nil => simp [claimedAfter]
  | cons n ns ih =>
    rw [claimedAfter, ih, mem_claimOld]
    simp [or_assoc]

theorem preserveIds_append (claimed : List HunkId) (A B : List (Hunk HunkId Path)) :
    preserveIds old claimed (A ++ B) =
      preserveIds old claimed A ++ preserveIds old (claimedAfter old claimed A) B := by
  induction A generalizing claimed with
  | nil => rfl
  | cons n A ih => simp [preserveIds, claimedAfter, ih]

/-- A place in the new list is a place in the raw list. -/
theorem preserveIds_eq_append {claimed : List HunkId} {ns A B : List (Hunk HunkId Path)}
    {x : Hunk HunkId Path} (h : preserveIds old claimed ns = A ++ x :: B) :
    ∃ A' n B', ns = A' ++ n :: B' ∧ A = preserveIds old claimed A' ∧
      x = (claimOld old (claimedAfter old claimed A') n).1 ∧
      B = preserveIds old (claimedAfter old claimed (A' ++ [n])) B' := by
  induction A generalizing claimed ns with
  | nil =>
    cases ns with
    | nil => simp [preserveIds] at h
    | cons n ns =>
      simp only [preserveIds, List.nil_append, List.cons.injEq] at h
      exact ⟨[], n, ns, rfl, rfl, h.1.symm, h.2.symm⟩
  | cons a A ih =>
    cases ns with
    | nil => simp [preserveIds] at h
    | cons m ns =>
      simp only [preserveIds, List.cons_append, List.cons.injEq] at h
      obtain ⟨A', n, B', rfl, hA, hx, hB⟩ := ih h.2
      refine ⟨m :: A', n, B', rfl, ?_, hx, hB⟩
      rw [preserveIds, h.1, hA]

/-- The id a raw hunk gets: the best match's, unless an earlier hunk has it. -/
theorem claimOld_id (claimed : List HunkId) (n : Hunk HunkId Path) :
    (∃ o, findMatchingOldHunk n old = some o ∧ o.id ∉ claimed ∧
        (claimOld old claimed n).1.id = o.id) ∨
    ((∀ o, findMatchingOldHunk n old = some o → o.id ∈ claimed) ∧
        (claimOld old claimed n).1.id = n.id) := by
  unfold claimOld
  cases findMatchingOldHunk n old with
  | none => right; simp
  | some best =>
    by_cases h : best.id ∈ claimed
    · right
      simp [h]
    · left
      exact ⟨best, rfl, h, by simp [h]⟩

/-- What the carried-over id and source do not touch is the same in both lists. -/
theorem preserveIds_map {γ : Type*} (g : Hunk HunkId Path → γ)
    (hg : ∀ claimed n, g (claimOld old claimed n).1 = g n) (claimed : List HunkId)
    (ns : List (Hunk HunkId Path)) : (preserveIds old claimed ns).map g = ns.map g := by
  induction ns generalizing claimed with
  | nil => rfl
  | cons n ns ih => simp [preserveIds, hg, ih]

theorem length_preserveIds (claimed : List HunkId) (ns : List (Hunk HunkId Path)) :
    (preserveIds old claimed ns).length = ns.length := by
  simpa using congrArg List.length (preserveIds_map old (fun _ => ()) (fun _ _ => rfl) claimed ns)

/-- Fresh ids stay distinct, and an old id is handed out at most once, to a hunk whose best
match it is. -/
theorem preserveIds_ids (claimed : List HunkId) {ns : List (Hunk HunkId Path)}
    (hfresh : ∀ n ∈ ns, ∀ o ∈ old, n.id ≠ o.id) (hn : (ns.map Hunk.id).Nodup) :
    ((preserveIds old claimed ns).map Hunk.id).Nodup ∧
      ∀ x ∈ preserveIds old claimed ns,
        (∃ n ∈ ns, x.id = n.id) ∨
        (∃ n ∈ ns, ∃ o, findMatchingOldHunk n old = some o ∧ x.id = o.id ∧ x.id ∉ claimed) := by
  induction ns generalizing claimed with
  | nil => simp [preserveIds]
  | cons n ns ih =>
    rw [List.map_cons, List.nodup_cons] at hn
    obtain ⟨htail, hids⟩ := ih (claimOld old claimed n).2
      (fun m hm => hfresh m (by simp [hm])) hn.2
    have hrest : ∀ x ∈ preserveIds old (claimOld old claimed n).2 ns,
        (∃ m ∈ n :: ns, x.id = m.id) ∨
        (∃ m ∈ n :: ns, ∃ o, findMatchingOldHunk m old = some o ∧ x.id = o.id ∧
          x.id ∉ claimed) := by
      intro x hx
      rcases hids x hx with ⟨m, hm, hxm⟩ | ⟨m, hm, o, ho, hxo, hxc⟩
      · exact Or.inl ⟨m, by simp [hm], hxm⟩
      · exact Or.inr ⟨m, by simp [hm], o, ho, hxo,
          fun h => hxc ((mem_claimOld old).mpr (Or.inl h))⟩
    rw [preserveIds, List.map_cons, List.nodup_cons]
    rcases claimOld_id old claimed n with ⟨o, ho, hc, hid⟩ | ⟨-, hid⟩
    · refine ⟨⟨?_, htail⟩, ?_⟩
      · rw [hid, List.mem_map]
        rintro ⟨x, hx, hxo⟩
        rcases hids x hx with ⟨m, hm, hxm⟩ | ⟨-, -, -, -, -, hxc⟩
        · exact hfresh m (by simp [hm]) o (findMatchingOldHunk_some ho).1 (hxm.symm.trans hxo)
        · exact hxc ((mem_claimOld old).mpr (Or.inr ⟨o, ho, hxo.symm⟩))
      · intro x hx
        rcases List.mem_cons.mp hx with rfl | hx
        · right
          refine ⟨n, by simp, o, ho, hid, ?_⟩
          rwa [hid]
        · exact hrest x hx
    · refine ⟨⟨?_, htail⟩, ?_⟩
      · rw [hid, List.mem_map]
        rintro ⟨x, hx, hxn⟩
        rcases hids x hx with ⟨m, hm, hxm⟩ | ⟨m, -, o, ho, hxo, -⟩
        · exact hn.1 (List.mem_map.mpr ⟨m, hm, hxm.symm.trans hxn⟩)
        · exact hfresh n (by simp) o (findMatchingOldHunk_some ho).1 (hxn.symm.trans hxo)
      · intro x hx
        rcases List.mem_cons.mp hx with rfl | hx
        · exact Or.inl ⟨n, by simp, hid⟩
        · exact hrest x hx

end Preserve

end Recompute

end GrokBuild.HunkTracker
