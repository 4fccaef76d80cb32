import GrokBuild.HunkTracker.Blocks

/-!
# Matching new hunks with old ones

`recompute_hunks` diffs a file again and carries ids and sources over from the old hunks. It
asks `find_matching_old_hunk` for the closest content match or else the largest overlap; the
events it then emits look for the first content match and for any overlap.
-/

namespace GrokBuild.HunkTracker

open Text

section Matching

variable {HunkId Path : Type*} [DecidableEq Path]

def hunksMatchContent (a b : Hunk HunkId Path) : Bool :=
  a.path == b.path && a.oldText == b.oldText && a.newText == b.newText

def hunkMoved (old new : Hunk HunkId Path) : Bool :=
  hunksMatchContent old new && old.lineInfo != new.lineInfo

/-- Overlap in the baseline, with touching ranges counted as overlapping. -/
def hunksOverlap (a b : Hunk HunkId Path) : Bool :=
  if a.path ≠ b.path then false
  else
    let aStart := a.lineInfo.oldStart
    let aEnd := a.lineInfo.oldStart + a.lineInfo.oldCount
    let bStart := b.lineInfo.oldStart
    let bEnd := b.lineInfo.oldStart + b.lineInfo.oldCount
    if a.lineInfo.oldCount = 0 ∧ b.lineInfo.oldCount = 0 then aStart == bStart
    else if a.lineInfo.oldCount = 0 then decide (aStart ≥ bStart ∧ aStart ≤ bEnd)
    else if b.lineInfo.oldCount = 0 then decide (bStart ≥ aStart ∧ bStart ≤ aEnd)
    else !decide (aEnd < bStart ∨ bEnd < aStart)

def calculateOverlapSize (a b : HunkLineInfo) : ℕ :=
  let overlapStart := max a.oldStart b.oldStart
  let overlapEnd := min (a.oldStart + a.oldCount) (b.oldStart + b.oldCount)
  overlapEnd - overlapStart

/-- Go through a list and take an element over the one held when it is `better`. -/
def pickBy {α : Type*} (better : α → α → Bool) (l : List α) : Option α :=
  l.foldl (fun best x =>
    match best with
    | none => some x
    | some y => if better x y then some x else some y) none

/-- `Iterator::min_by_key`: the first of the least elements. -/
def minByKey {α : Type*} (key : α → ℕ) (l : List α) : Option α :=
  pickBy (fun x y => decide (key x < key y)) l

/-- `Iterator::max_by_key`: the last of the greatest elements. -/
def maxByKey {α : Type*} (key : α → ℕ) (l : List α) : Option α :=
  pickBy (fun x y => decide (key y ≤ key x)) l

def absDiff (a b : ℕ) : ℕ := max a b - min a b

def findMatchingOldHunk (newHunk : Hunk HunkId Path) (oldHunks : List (Hunk HunkId Path)) :
    Option (Hunk HunkId Path) :=
  let contentMatches := oldHunks.filter fun o => hunksMatchContent o newHunk
  if !contentMatches.isEmpty then
    minByKey (fun o => absDiff o.lineInfo.newStart newHunk.lineInfo.newStart) contentMatches
  else
    maxByKey (fun o => calculateOverlapSize o.lineInfo newHunk.lineInfo)
      (oldHunks.filter fun o => hunksOverlap o newHunk)

/-- The content match that the events look for. -/
def firstMatch (newHunk : Hunk HunkId Path) (oldHunks : List (Hunk HunkId Path)) :
    Option (Hunk HunkId Path) :=
  oldHunks.find? fun o => hunksMatchContent o newHunk

/-! ## What the searches return -/

theorem foldl_pick {α : Type*} (better : α → α → Bool) (l : List α) (y : α) :
    ∃ x, l.foldl (fun best x =>
      match best with
      | none => some x
      | some y => if better x y then some x else some y) (some y) = some x ∧ x ∈ y :: l := by
  induction l generalizing y with
  | nil => exact ⟨y, rfl, by simp⟩
  | cons a l ih =>
    by_cases hb : better a y
    · obtain ⟨x, hx, hm⟩ := ih a
      refine ⟨x, by simpa [hb] using hx, ?_⟩
      exact List.mem_cons_of_mem _ hm
    · obtain ⟨x, hx, hm⟩ := ih y
      refine ⟨x, by simpa [hb] using hx, ?_⟩
      rcases List.mem_cons.mp hm with rfl | hm
      · simp
      · simp [hm]

theorem pickBy_eq_none_iff {α : Type*} (better : α → α → Bool) (l : List α) :
    pickBy better l = none ↔ l = [] := by
  cases l with
  | nil => simp [pickBy]
  | cons a l =>
    obtain ⟨x, hx, -⟩ := foldl_pick better l a
    simp [pickBy, hx]

theorem pickBy_mem {α : Type*} {better : α → α → Bool} {l : List α} {x : α}
    (h : pickBy better l = some x) : x ∈ l := by
  cases l with
  | nil => simp [pickBy] at h
  | cons a l =>
    obtain ⟨y, hy, hm⟩ := foldl_pick better l a
    have hxy : some y = some x := hy.symm.trans h
    rwa [← Option.some.inj hxy]

section Search

variable {n o : Hunk HunkId Path} {old : List (Hunk HunkId Path)}

theorem firstMatch_eq_none_iff :
    firstMatch n old = none ↔ ∀ o ∈ old, hunksMatchContent o n = false := by
  simp [firstMatch]

theorem firstMatch_some (h : firstMatch n old = some o) :
    o ∈ old ∧ hunksMatchContent o n = true := by
  unfold firstMatch at h
  refine ⟨List.mem_of_find?_eq_some h, ?_⟩
  simpa using List.find?_some h

/-- With a content match the match has the same content, without one it overlaps. -/
theorem findMatchingOldHunk_some (h : findMatchingOldHunk n old = some o) :
    o ∈ old ∧
      ((firstMatch n old ≠ none ∧ hunksMatchContent o n = true) ∨
        (firstMatch n old = none ∧ hunksOverlap o n = true)) := by
  unfold findMatchingOldHunk at h
  by_cases hc : (old.filter fun o => hunksMatchContent o n) = []
  · simp only [hc, List.isEmpty_nil, Bool.not_true, Bool.false_eq_true, if_false] at h
    have hm := List.mem_filter.mp (pickBy_mem h)
    refine ⟨hm.1, Or.inr ⟨?_, hm.2⟩⟩
    rw [firstMatch_eq_none_iff]
    simpa [List.filter_eq_nil_iff] using hc
  · have hne : (!(old.filter fun o => hunksMatchContent o n).isEmpty) = true := by
      simpa [List.isEmpty_iff] using hc
    simp only [hne, if_true] at h
    have hm := List.mem_filter.mp (pickBy_mem h)
    refine ⟨hm.1, Or.inl ⟨?_, hm.2⟩⟩
    intro hnone
    rw [firstMatch_eq_none_iff] at hnone
    rw [hnone o hm.1] at hm
    exact absurd hm.2 (by simp)

theorem findMatchingOldHunk_eq_none (h : findMatchingOldHunk n old = none) :
    ∀ o ∈ old, hunksMatchContent o n = false ∧ hunksOverlap o n = false := by
  unfold findMatchingOldHunk at h
  by_cases hc : (old.filter fun o => hunksMatchContent o n) = []
  · simp only [hc, List.isEmpty_nil, Bool.not_true, Bool.false_eq_true, if_false, maxByKey,
      pickBy_eq_none_iff, List.filter_eq_nil_iff] at h
    intro o ho
    have h1 := List.filter_eq_nil_iff.mp hc o ho
    have h2 := h o ho
    simpa using And.intro h1 h2
  · have hne : (!(old.filter fun o => hunksMatchContent o n).isEmpty) = true := by
      simpa [List.isEmpty_iff] using hc
    simp only [hne, if_true, minByKey, pickBy_eq_none_iff] at h
    exact absurd h hc

theorem hunksMatchContent_iff {a b : Hunk HunkId Path} :
    hunksMatchContent a b = true ↔
      a.path = b.path ∧ a.oldText = b.oldText ∧ a.newText = b.newText := by
  simp [hunksMatchContent, and_assoc]

/-- New hunks with one content have one first match. -/
theorem firstMatch_congr {m : Hunk HunkId Path} (h1 : hunksMatchContent o n = true)
    (h2 : hunksMatchContent o m = true) : firstMatch n old = firstMatch m old := by
  rw [hunksMatchContent_iff] at h1 h2
  unfold firstMatch
  congr 1
  funext x
  unfold hunksMatchContent
  rw [← h1.1, ← h1.2.1, ← h1.2.2, ← h2.1, ← h2.2.1, ← h2.2.2]

end Search

end Matching

end GrokBuild.HunkTracker
