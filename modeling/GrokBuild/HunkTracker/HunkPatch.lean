import GrokBuild.HunkTracker.Blocks

/-!
# Patch fragments

The unified-diff fragment of one hunk. Its context comes from the baseline before the change and
from the current text behind it, and its header counts lines in the baseline throughout.
-/

namespace GrokBuild.HunkTracker

open Text

def contextLines : ℕ := 3

/-- A `usize` subtraction, `none` on underflow. -/
def checkedSub (a b : ℕ) : Option ℕ := if b ≤ a then some (a - b) else none

/-- A fragment: the numbers of its header, and the lines of its body in the order they are
written. -/
structure HunkPatch where
  oldStart : ℕ
  totalOld : ℕ
  newStart : ℕ
  totalNew : ℕ
  before : List Str
  deleted : List Str
  added : List Str
  after : List Str
deriving DecidableEq, Repr

def decimal (n : ℕ) : Str := n.repr.toList

def HunkPatch.render (patch : HunkPatch) : Str :=
  let header := "@@ -".toList ++ decimal patch.oldStart ++ [','] ++ decimal patch.totalOld ++ " +".toList ++
    decimal patch.newStart ++ [','] ++ decimal patch.totalNew ++ " @@".toList
  unlines (header :: patch.before.map (' ' :: ·) ++ patch.deleted.map ('-' :: ·) ++
    patch.added.map ('+' :: ·) ++ patch.after.map (' ' :: ·))

/-- The lines of `ls` at the indices from `i` up to `j`. -/
def linesBetween (ls : List Str) (i j : ℕ) : List Str := (ls.drop i).take (j - i)

section Generate

variable {HunkId Path : Type*}

def hunkPatch (baseline current : Str) (hunk : Hunk HunkId Path) : Option HunkPatch :=
  let oldLines := lines baseline
  let newLines := lines current
  let oldStartIdx := hunk.lineInfo.oldStart - 1
  let newStartIdx := hunk.lineInfo.newStart - 1
  let contextBeforeStart := oldStartIdx - contextLines
  let changesEndNew := newStartIdx + hunk.lineInfo.newCount
  let contextAfterEnd := min (changesEndNew + contextLines) newLines.length
  let changesEndOld := oldStartIdx + hunk.lineInfo.oldCount
  let contextAfterEndOld := min (changesEndOld + contextLines) oldLines.length
  (checkedSub oldStartIdx contextBeforeStart).bind fun contextBefore =>
  (checkedSub contextAfterEndOld changesEndOld).bind fun contextAfterOld =>
  (checkedSub contextAfterEnd changesEndNew).map fun contextAfter =>
    { oldStart := contextBeforeStart + 1
      totalOld := contextBefore + hunk.lineInfo.oldCount + contextAfterOld
      newStart := contextBeforeStart + 1
      totalNew := contextBefore + hunk.lineInfo.newCount + contextAfter
      before := linesBetween oldLines contextBeforeStart oldStartIdx
      deleted := hunk.oldText.elim [] lines
      added := lines hunk.newText
      after := linesBetween newLines changesEndNew contextAfterEnd }

def generateHunkPatch (baseline current : Str) (hunk : Hunk HunkId Path) : Option Str :=
  (hunkPatch baseline current hunk).map HunkPatch.render

/-- The fragment is a hunk of a unified diff: its header counts the lines of its body, those of the
old side are the lines of the baseline that it names, and the first line of the body stands in the
current text where the header says. -/
structure HunkPatch.Valid (patch : HunkPatch) (baseline current : Str) (hunk : Hunk HunkId Path) :
    Prop where
  totalOld : patch.totalOld = patch.before.length + patch.deleted.length + patch.after.length
  totalNew : patch.totalNew = patch.before.length + patch.added.length + patch.after.length
  oldSide : patch.before ++ patch.deleted ++ patch.after =
    ((lines baseline).drop (patch.oldStart - 1)).take patch.totalOld
  newStart : patch.newStart + patch.before.length = hunk.lineInfo.newStart
  firstLine : ∀ line ∈ patch.before.head?, (lines current)[patch.newStart - 1]? = some line

/-- The hunk ends within both texts and starts at the same line in both, with the same first line
of context, and what it removes and the three lines behind it in the current text are the lines of
the baseline there. -/
structure PatchFits (baseline current : Str) (hunk : Hunk HunkId Path) : Prop where
  inOld : hunk.lineInfo.oldStart - 1 + hunk.lineInfo.oldCount ≤ (lines baseline).length
  inNew : hunk.lineInfo.newStart - 1 + hunk.lineInfo.newCount ≤ (lines current).length
  aligned : hunk.lineInfo.newStart = hunk.lineInfo.oldStart
  sameContext : 1 < hunk.lineInfo.oldStart →
    (lines current)[hunk.lineInfo.oldStart - 1 - contextLines]? =
      (lines baseline)[hunk.lineInfo.oldStart - 1 - contextLines]?
  added : (lines hunk.newText).length = hunk.lineInfo.newCount
  behind : hunk.oldText.elim [] lines ++
      ((lines current).drop (hunk.lineInfo.newStart - 1 + hunk.lineInfo.newCount)).take contextLines =
    ((lines baseline).drop (hunk.lineInfo.oldStart - 1)).take (hunk.lineInfo.oldCount + contextLines)

/-- The subtractions go through exactly when the hunk ends within both texts. -/
theorem hunkPatch_isSome_iff (baseline current : Str) (hunk : Hunk HunkId Path) :
    (hunkPatch baseline current hunk).isSome ↔
      hunk.lineInfo.oldStart - 1 + hunk.lineInfo.oldCount ≤ (lines baseline).length ∧
        hunk.lineInfo.newStart - 1 + hunk.lineInfo.newCount ≤ (lines current).length := by
  unfold hunkPatch checkedSub contextLines
  dsimp only
  rw [if_pos (by omega), Option.bind_some]
  split
  · rw [Option.bind_some]
    split
    · simp
      omega
    · simp
      omega
  · simp
    omega

theorem length_linesBetween (ls : List Str) (i j : ℕ) :
    (linesBetween ls i j).length = min (j - i) (ls.length - i) := by
  rw [linesBetween, List.length_take, List.length_drop]

theorem linesBetween_min (ls : List Str) (i n : ℕ) :
    linesBetween ls i (min (i + n) ls.length) = (ls.drop i).take n := by
  unfold linesBetween
  rw [List.take_eq_take_iff, List.length_drop]
  omega

theorem head?_linesBetween {ls : List Str} {i j : ℕ} (h : i < j) :
    (linesBetween ls i j).head? = ls[i]? := by
  unfold linesBetween
  rw [List.head?_take, if_neg (by omega), List.head?_drop]

theorem le_start_of_mem_builders {o n : ℕ} {bs : List Block} {b : HunkBuilder}
    (hb : b ∈ builders o n bs) : o ≤ b.oldStart ∧ n ≤ b.newStart := by
  induction bs generalizing o n with
  | nil => simp [builders] at hb
  | cons head bs ih =>
    rcases List.mem_cons.mp hb with rfl | hb
    · exact ⟨by simp, by simp⟩
    · have h := ih hb
      omega

/-- The line numbers of a computed hunk count from one. -/
theorem one_le_start_of_mem_computeHunks {diffLines : Str → Str → Option (List Change)}
    {newId : ℕ → HunkId} {path : Path} {baseline current : Str} {source : HunkSource}
    {hunk : Hunk HunkId Path}
    (h : hunk ∈ computeHunks diffLines newId path baseline current source) :
    1 ≤ hunk.lineInfo.oldStart ∧ 1 ≤ hunk.lineInfo.newStart := by
  unfold computeHunks at h
  split at h
  · simp at h
  split at h
  · simp at h
  split at h
  · simp at h
  rename_i changes _
  have hd := List.mem_map_of_mem (f := Hunk.patchData) h
  rw [map_patchData_hunks newId path source] at hd
  obtain ⟨b, hb, heq⟩ := List.mem_map.mp hd
  have hinfo : hunk.lineInfo = b.patchData.1 := (congrArg Prod.fst heq).symm
  rw [hinfo]
  exact le_start_of_mem_builders hb

theorem min_add_sub_self (m c n : ℕ) : min (m + c) n - m = min c (n - m) := by
  omega

/-- The fragment of a hunk that ends within both texts. -/
theorem hunkPatch_eq {baseline current : Str} {hunk : Hunk HunkId Path}
    (hold : hunk.lineInfo.oldStart - 1 + hunk.lineInfo.oldCount ≤ (lines baseline).length)
    (hnew : hunk.lineInfo.newStart - 1 + hunk.lineInfo.newCount ≤ (lines current).length) :
    hunkPatch baseline current hunk = some
      { oldStart := hunk.lineInfo.oldStart - 1 - contextLines + 1
        totalOld := min contextLines (hunk.lineInfo.oldStart - 1) + hunk.lineInfo.oldCount +
          min contextLines ((lines baseline).length -
            (hunk.lineInfo.oldStart - 1 + hunk.lineInfo.oldCount))
        newStart := hunk.lineInfo.oldStart - 1 - contextLines + 1
        totalNew := min contextLines (hunk.lineInfo.oldStart - 1) + hunk.lineInfo.newCount +
          min contextLines ((lines current).length -
            (hunk.lineInfo.newStart - 1 + hunk.lineInfo.newCount))
        before := linesBetween (lines baseline) (hunk.lineInfo.oldStart - 1 - contextLines)
          (hunk.lineInfo.oldStart - 1)
        deleted := hunk.oldText.elim [] lines
        added := lines hunk.newText
        after := ((lines current).drop
          (hunk.lineInfo.newStart - 1 + hunk.lineInfo.newCount)).take contextLines } := by
  unfold hunkPatch checkedSub
  dsimp only
  rw [if_pos (Nat.sub_le _ _), Option.bind_some, if_pos (le_min (Nat.le_add_right _ _) hold),
    Option.bind_some, if_pos (le_min (Nat.le_add_right _ _) hnew), Option.map_some,
    linesBetween_min, Nat.sub_sub_eq_min, min_comm, min_add_sub_self, min_add_sub_self]

/-- Lines in front of `i` followed by others are the lines from there on when the others are those
from `i` on. -/
theorem linesBetween_append_eq_iff (ls rest : List Str) (i k : ℕ) :
    linesBetween ls (i - contextLines) i ++ rest =
        (ls.drop (i - contextLines)).take (min contextLines i + k) ↔
      rest = (ls.drop i).take k := by
  have hlen : i - (i - contextLines) = min contextLines i := by omega
  have hi : i - contextLines + min contextLines i = i := by omega
  rw [List.take_add, List.drop_drop, linesBetween, hlen, hi, List.append_right_inj]

theorem take_min_length_sub (ls : List Str) (i k n : ℕ) :
    (ls.drop i).take (k + min n (ls.length - (i + k))) = (ls.drop i).take (k + n) := by
  rw [List.take_eq_take_iff, List.length_drop]
  omega

theorem sub_contextLines_lt {i : ℕ} (h : 1 < i) : i - 1 - contextLines < i - 1 := by
  unfold contextLines
  omega

/-- The lines in front of a hunk: three, or all there are. -/
theorem length_linesBefore {ls : List Str} {i : ℕ} (h : i ≤ ls.length) :
    (linesBetween ls (i - contextLines) i).length = min contextLines i := by
  rw [length_linesBetween]
  omega

theorem start_add_context {i c : ℕ} (h : 1 ≤ i) : i - 1 - c + 1 + min c (i - 1) = i := by
  omega

/-- A hunk that ends within a text does so with its context. -/
theorem fragment_within {c i k n : ℕ} (h : i + k ≤ n) :
    min c i + (k + min c (n - (i + k))) ≤ n - (i - c) := by
  omega

/-- The fragment of a hunk within both texts is valid exactly when the hunk fits. -/
theorem HunkPatch.valid_iff {baseline current : Str} {hunk : Hunk HunkId Path} {patch : HunkPatch}
    (hpatch : hunkPatch baseline current hunk = some patch)
    (hold : hunk.lineInfo.oldStart - 1 + hunk.lineInfo.oldCount ≤ (lines baseline).length)
    (hnew : hunk.lineInfo.newStart - 1 + hunk.lineInfo.newCount ≤ (lines current).length)
    (hstart : 1 ≤ hunk.lineInfo.oldStart) :
    patch.Valid baseline current hunk ↔ PatchFits baseline current hunk := by
  rw [hunkPatch_eq hold hnew, Option.some_inj] at hpatch
  subst hpatch
  have hbefore : (linesBetween (lines baseline) (hunk.lineInfo.oldStart - 1 - contextLines)
      (hunk.lineInfo.oldStart - 1)).length = min contextLines (hunk.lineInfo.oldStart - 1) :=
    length_linesBefore (Nat.le_of_add_right_le hold)
  have hcontext : 1 < hunk.lineInfo.oldStart →
      (linesBetween (lines baseline) (hunk.lineInfo.oldStart - 1 - contextLines)
        (hunk.lineInfo.oldStart - 1)).head? =
        (lines baseline)[hunk.lineInfo.oldStart - 1 - contextLines]? := by
    intro h
    apply head?_linesBetween
    exact sub_contextLines_lt h
  have hindex : 1 < hunk.lineInfo.oldStart →
      hunk.lineInfo.oldStart - 1 - contextLines < (lines baseline).length := by
    intro h
    exact (sub_contextLines_lt h).trans_le (Nat.le_of_add_right_le hold)
  constructor
  · intro ⟨_, htotalNew, hside, hnewStart, hfirst⟩
    simp only at htotalNew hnewStart
    refine ⟨hold, hnew, ?_, ?_, ?_, ?_⟩
    · rw [hbefore, start_add_context hstart] at hnewStart
      exact hnewStart.symm
    · intro h
      specialize hcontext h
      rw [List.getElem?_eq_getElem (hindex h)] at hcontext ⊢
      exact hfirst _ hcontext
    · simp only [List.length_take, List.length_drop] at htotalNew
      rw [hbefore, Nat.add_right_cancel_iff, Nat.add_left_cancel_iff] at htotalNew
      exact htotalNew.symm
    · simp only [List.append_assoc, Nat.add_sub_cancel, Nat.add_assoc (min _ _)] at hside
      rw [linesBetween_append_eq_iff, take_min_length_sub] at hside
      exact hside
  · intro hfits
    have hside := hfits.behind
    rw [← take_min_length_sub, ← linesBetween_append_eq_iff] at hside
    refine ⟨?_, ?_, ?_, ?_, ?_⟩
    · have hlen := congrArg List.length hside
      simp only [List.length_append, List.length_take, List.length_drop] at hlen ⊢
      rw [min_eq_left (fragment_within hold), ← Nat.add_assoc, ← Nat.add_assoc] at hlen
      exact hlen.symm
    · simp only [List.length_take, List.length_drop, hfits.added, hbefore]
    · simp only [List.append_assoc, Nat.add_sub_cancel, Nat.add_assoc (min _ _)]
      exact hside
    · simp only
      rw [hbefore, start_add_context hstart]
      exact hfits.aligned.symm
    · intro line hline
      by_cases h : 1 < hunk.lineInfo.oldStart
      · simp only [hcontext h] at hline
        simp only [Nat.add_sub_cancel, hfits.sameContext h]
        exact hline
      · have hfirst : hunk.lineInfo.oldStart - 1 = 0 := Nat.sub_eq_zero_of_le (Nat.not_lt.mp h)
        have hnil := List.eq_nil_of_length_eq_zero (hbefore.trans (by rw [hfirst, Nat.min_zero]))
        simp only [hnil] at hline
        simp at hline

/-- A hunk of a diff has a valid fragment exactly when the lines around it are the same, at the
same place, in both texts. -/
theorem hunkPatch_valid_iff (diffLines : Str → Str → Option (List Change)) (newId : ℕ → HunkId)
    (path : Path) (baseline current : Str) (source : HunkSource) (hunk : Hunk HunkId Path)
    (h : hunk ∈ computeHunks diffLines newId path baseline current source) :
    (∃ patch, hunkPatch baseline current hunk = some patch ∧ patch.Valid baseline current hunk) ↔
      PatchFits baseline current hunk := by
  obtain ⟨hstart, -⟩ := one_le_start_of_mem_computeHunks h
  constructor
  · rintro ⟨patch, hpatch, hvalid⟩
    have hsome : (hunkPatch baseline current hunk).isSome := by rw [hpatch]; rfl
    obtain ⟨hold, hnew⟩ := (hunkPatch_isSome_iff baseline current hunk).mp hsome
    exact (HunkPatch.valid_iff hpatch hold hnew hstart).mp hvalid
  · intro hfits
    have hpatch := hunkPatch_eq hfits.inOld hfits.inNew
    exact ⟨_, hpatch, (HunkPatch.valid_iff hpatch hfits.inOld hfits.inNew hstart).mpr hfits⟩

/-- A line is inserted at the top and the sixth removed: the second hunk's header counts the lines
of the current text without the first. -/
theorem hunkPatch_header_not_shifted :
    ∃ hunk ∈ computeHunks (fun _ _ => some
          [⟨.insert, "x\n".toList⟩, ⟨.equal, "a\n".toList⟩, ⟨.equal, "b\n".toList⟩,
            ⟨.equal, "c\n".toList⟩, ⟨.equal, "d\n".toList⟩, ⟨.equal, "e\n".toList⟩,
            ⟨.delete, "f\n".toList⟩])
        (id : ℕ → ℕ) () "a\nb\nc\nd\ne\nf\n".toList "x\na\nb\nc\nd\ne\n".toList .external,
      ¬ ∃ patch, hunkPatch "a\nb\nc\nd\ne\nf\n".toList "x\na\nb\nc\nd\ne\n".toList hunk = some patch ∧
        patch.Valid "a\nb\nc\nd\ne\nf\n".toList "x\na\nb\nc\nd\ne\n".toList hunk := by
  refine ⟨{ id := 1, path := (), lineInfo := ⟨6, 1, 7, 0⟩, source := .external,
            oldText := some "f\n".toList, newText := [] }, by decide +kernel, ?_⟩
  rintro ⟨patch, hpatch, hvalid⟩
  have heq : patch = ⟨3, 4, 3, 3, ["c".toList, "d".toList, "e".toList], ["f".toList], [], []⟩ :=
    Option.some_inj.mp (hpatch.symm.trans (by decide +kernel))
  have hnew := hvalid.newStart
  rw [heq] at hnew
  revert hnew
  decide

/-- The fragment of the hunk in front of it is valid. -/
theorem hunkPatch_valid_first :
    ∃ patch, hunkPatch "a\nb\nc\nd\ne\nf\n".toList "x\na\nb\nc\nd\ne\n".toList
        ({ id := 0, path := (), lineInfo := ⟨1, 0, 1, 1⟩, source := .external,
           oldText := none, newText := "x\n".toList } : Hunk ℕ Unit) = some patch ∧
      patch.Valid "a\nb\nc\nd\ne\nf\n".toList "x\na\nb\nc\nd\ne\n".toList
        ({ id := 0, path := (), lineInfo := ⟨1, 0, 1, 1⟩, source := .external,
           oldText := none, newText := "x\n".toList } : Hunk ℕ Unit) :=
  (hunkPatch_valid_iff (fun _ _ => some
      [⟨.insert, "x\n".toList⟩, ⟨.equal, "a\n".toList⟩, ⟨.equal, "b\n".toList⟩,
        ⟨.equal, "c\n".toList⟩, ⟨.equal, "d\n".toList⟩, ⟨.equal, "e\n".toList⟩,
        ⟨.delete, "f\n".toList⟩])
    id () _ _ .external _ (by decide +kernel)).mpr
    { inOld := by decide +kernel
      inNew := by decide +kernel
      aligned := by decide
      sameContext := by decide
      added := by decide +kernel
      behind := by decide +kernel }

-- a lone carriage return ends a line of the diff and none of the text
example : hunkPatch "a\rb\r".toList "x".toList
    ({ id := 0, path := (), lineInfo := ⟨1, 2, 1, 1⟩, source := .external,
       oldText := some "a\rb\r".toList, newText := "x".toList } : Hunk ℕ Unit) = none := by
  decide +kernel

end Generate

end GrokBuild.HunkTracker
