import GrokBuild.Lib.Spans
import GrokBuild.Textarea.Graphemes
import Mathlib.Data.List.Sort

/-!
# Atomic ranges

Atomic ranges may be given in any state. They are widened to grapheme boundaries, sorted and merged;
positions and ranges are then moved out of them.
-/

namespace GrokBuild.Textarea
open Text

abbrev ByteRange := Span ℕ

variable (u : Unicode) (text : Str)

/-- The grapheme boundaries around a range; an empty one is dropped. -/
def widenAtomicRange (range : ByteRange) : Option ByteRange :=
  let rawStart := min (min range.start range.stop) (utf8Len text)
  let rawEnd := min (max range.start range.stop) (utf8Len text)
  if rawStart = rawEnd then none
  else
    let start := floorGraphemeBoundary u text rawStart
    let stop := ceilGraphemeBoundary u text rawEnd
    if start < stop then some ⟨start, stop⟩ else none

/-- The order of the keys `(start, end)`. -/
def keyLe (r s : ByteRange) : Prop := r.start < s.start ∨ r.start = s.start ∧ r.stop ≤ s.stop

instance : DecidableRel keyLe := fun r s =>
  inferInstanceAs (Decidable (r.start < s.start ∨ r.start = s.start ∧ r.stop ≤ s.stop))

def normalizeAtomicRanges (ranges : List ByteRange) : List ByteRange :=
  Span.mergeSorted ((ranges.filterMap (widenAtomicRange u text)).insertionSort keyLe)

def normalizeCursorForAtomicRanges (cursor : ℕ) (ranges : List ByteRange) : ℕ :=
  match ranges.find? fun range => range.start < cursor && cursor < range.stop with
  | none => cursor
  | some range => if cursor - range.start ≤ range.stop - cursor then range.start else range.stop

/-- The end of the last range. -/
def lastStop (ranges : List ByteRange) : ℕ := (ranges.map Span.stop).foldr max 0

theorem stop_le_lastStop {ranges : List ByteRange} {range : ByteRange} (h : range ∈ ranges) :
    range.stop ≤ lastStop ranges := by
  induction ranges with
  | nil => cases h
  | cons r ranges ih =>
    rw [lastStop, List.map_cons, List.foldr_cons]
    obtain rfl | h := List.mem_cons.mp h
    · exact le_max_left _ _
    · exact (ih h).trans (le_max_right _ _)

/-- One pass over all atomic ranges. -/
def absorbPass (ranges : List ByteRange) (range : ByteRange) : ByteRange :=
  ranges.foldl Span.absorb range

theorem absorbPass_decreases (ranges : List ByteRange) (range : ByteRange)
    (h : absorbPass ranges range ≠ range) :
    (absorbPass ranges range).start + (lastStop ranges - (absorbPass ranges range).stop) <
      range.start + (lastStop ranges - range.stop) := by
  have hgrows := Span.foldl_absorb_grows ranges range
  have hbound := @Span.stop_foldl_absorb_le _ _ ranges _ (fun s hs => stop_le_lastStop hs) range
  change (absorbPass ranges range).start ≤ _ ∧ _ ≤ (absorbPass ranges range).stop at hgrows
  change (absorbPass ranges range).stop ≤ _ at hbound
  have hne : (absorbPass ranges range).start ≠ range.start ∨
      (absorbPass ranges range).stop ≠ range.stop := by
    by_contra hsame
    rw [not_or, not_not, not_not] at hsame
    apply h
    cases hnext : absorbPass ranges range
    rw [hnext] at hsame
    cases range
    congr 1
    · exact hsame.1
    · exact hsame.2
  omega

/-- The loop of passes, until one changes nothing. -/
def absorbLoop (ranges : List ByteRange) (range : ByteRange) : ByteRange :=
  if _h : absorbPass ranges range = range then range
  else absorbLoop ranges (absorbPass ranges range)
termination_by range.start + (lastStop ranges - range.stop)
decreasing_by exact absorbPass_decreases ranges range ‹_›

def normalizeReplacementRange (range : ByteRange) (ranges : List ByteRange) : ByteRange :=
  let rawStart := min (min range.start range.stop) (utf8Len text)
  let rawEnd := min (max range.start range.stop) (utf8Len text)
  if rawStart = rawEnd then
    let cursor := normalizeCursorForAtomicRanges (normalizeExternalCursor u text rawStart) ranges
    ⟨cursor, cursor⟩
  else
    absorbLoop ranges
      ⟨floorGraphemeBoundary u text rawStart, ceilGraphemeBoundary u text rawEnd⟩

def previousAtomicBoundary (byte : ℕ) (ranges : List ByteRange) : ℕ :=
  match ranges.find? fun range => range.start < byte && byte ≤ range.stop with
  | some range => range.start
  | none =>
    let boundary := previousGraphemeBoundary u text byte
    match ranges.find? fun range => range.start < boundary && boundary < range.stop with
    | some range => range.start
    | none => boundary

def nextAtomicBoundary (byte : ℕ) (ranges : List ByteRange) : ℕ :=
  match ranges.find? fun range => range.start ≤ byte && byte < range.stop with
  | some range => range.stop
  | none =>
    let boundary := nextGraphemeBoundary u text byte
    match ranges.find? fun range => range.start < boundary && boundary < range.stop with
    | some range => range.stop
    | none => boundary

def byteIsInsideAtomicRange (byte : ℕ) (ranges : List ByteRange) : Bool :=
  ranges.any fun range => range.start ≤ byte && byte < range.stop

/-! ## Normal ranges -/

section Normal

variable {u : Unicode} {text : Str} {ranges : List ByteRange} {range : ByteRange} {byte : ℕ}

/-- Separated ranges whose ends are grapheme boundaries. -/
structure Normal (u : Unicode) (text : Str) (ranges : List ByteRange) : Prop where
  separated : Span.Separated ranges
  boundary : ∀ r ∈ ranges, Boundary u text r.start ∧ Boundary u text r.stop

/-- A grapheme boundary that is not within a range. -/
structure Clear (u : Unicode) (text : Str) (ranges : List ByteRange) (byte : ℕ) : Prop where
  boundary : Boundary u text byte
  outside : ∀ r ∈ ranges, ¬ Span.Inside byte r

theorem Normal.clear_start (h : Normal u text ranges) (hr : range ∈ ranges) :
    Clear u text ranges range.start :=
  ⟨(h.boundary range hr).1, fun _ hs => h.separated.start_not_inside hr hs⟩

theorem Normal.clear_stop (h : Normal u text ranges) (hr : range ∈ ranges) :
    Clear u text ranges range.stop :=
  ⟨(h.boundary range hr).2, fun _ hs => h.separated.stop_not_inside hr hs⟩

theorem widenAtomicRange_eq_some (h : widenAtomicRange u text range = some r) :
    r.start < r.stop ∧ Boundary u text r.start ∧ Boundary u text r.stop := by
  unfold widenAtomicRange at h
  dsimp only at h
  split_ifs at h with hempty hlt
  obtain rfl := Option.some.inj h
  exact ⟨hlt, (isFloor u text _).boundary, boundary_ceil u text _⟩

instance : Std.Total keyLe where
  total r s := by
    unfold keyLe
    omega

instance : IsTrans ByteRange keyLe where
  trans r s t := by
    unfold keyLe
    omega

/-- The widened ranges are nonempty and in order before they are merged. -/
theorem widened_ordered (u : Unicode) (text : Str) (ranges : List ByteRange) :
    (∀ r ∈ (ranges.filterMap (widenAtomicRange u text)).insertionSort keyLe,
      r.start < r.stop ∧ Boundary u text r.start ∧ Boundary u text r.stop) ∧
    ((ranges.filterMap (widenAtomicRange u text)).insertionSort keyLe).Pairwise
      fun r s => r.start ≤ s.start := by
  have hsorted := List.pairwise_insertionSort keyLe (ranges.filterMap (widenAtomicRange u text))
  refine ⟨fun r hr => ?_, hsorted.imp fun hle => ?_⟩
  · rw [List.mem_insertionSort, List.mem_filterMap] at hr
    obtain ⟨range, -, hwiden⟩ := hr
    exact widenAtomicRange_eq_some hwiden
  · obtain hlt | ⟨heq, -⟩ := hle
    · exact hlt.le
    · exact heq.le

theorem normal_normalizeAtomicRanges (u : Unicode) (text : Str) (ranges : List ByteRange) :
    Normal u text (normalizeAtomicRanges u text ranges) := by
  obtain ⟨hwidened, hsorted⟩ := widened_ordered u text ranges
  exact ⟨Span.separated_mergeSorted (fun r hr => (hwidened r hr).1) hsorted,
    Span.ends_mergeSorted fun r hr => (hwidened r hr).2⟩

theorem inside_normalizeAtomicRanges_iff :
    (∃ r ∈ normalizeAtomicRanges u text ranges, Span.Inside byte r) ↔
      ∃ range ∈ ranges, ∃ r, widenAtomicRange u text range = some r ∧ Span.Inside byte r := by
  obtain ⟨hwidened, hsorted⟩ := widened_ordered u text ranges
  rw [normalizeAtomicRanges, Span.inside_mergeSorted_iff (fun r hr => (hwidened r hr).1) hsorted]
  simp only [List.mem_insertionSort, List.mem_filterMap]
  constructor
  · rintro ⟨r, ⟨range, hrange, hwiden⟩, hin⟩
    exact ⟨range, hrange, r, hwiden, hin⟩
  · rintro ⟨range, hrange, r, hwiden, hin⟩
    exact ⟨r, ⟨range, hrange, hwiden⟩, hin⟩

theorem find_inside {p : ByteRange → Bool} (h : ranges.find? p = some range) :
    range ∈ ranges ∧ p range = true := ⟨List.mem_of_find?_eq_some h, List.find?_some h⟩

theorem not_inside_of_find
    (h : (ranges.find? fun range => range.start < byte && byte < range.stop) = none) :
    ∀ r ∈ ranges, ¬ Span.Inside byte r := by
  intro r hr hin
  rw [List.find?_eq_none] at h
  apply h r hr
  rw [Bool.and_eq_true, decide_eq_true_eq, decide_eq_true_eq]
  exact hin

theorem Normal.clear_cursor (h : Normal u text ranges) (hbyte : Boundary u text byte) :
    Clear u text ranges (normalizeCursorForAtomicRanges byte ranges) := by
  unfold normalizeCursorForAtomicRanges
  split
  · rename_i hfind
    exact ⟨hbyte, not_inside_of_find hfind⟩
  · rename_i range hfind
    have hr := (find_inside hfind).1
    split_ifs
    · exact h.clear_start hr
    · exact h.clear_stop hr

theorem Normal.clear_previous (h : Normal u text ranges) (byte : ℕ) :
    Clear u text ranges (previousAtomicBoundary u text byte ranges) := by
  unfold previousAtomicBoundary
  split
  · rename_i range hfind
    exact h.clear_start (find_inside hfind).1
  · dsimp only
    split
    · rename_i range hfind
      exact h.clear_start (find_inside hfind).1
    · rename_i hfind
      exact ⟨boundary_previous u text byte, not_inside_of_find hfind⟩

theorem previousAtomicBoundary_lt (u : Unicode) (text : Str) (ranges : List ByteRange)
    (h : 0 < byte) : previousAtomicBoundary u text byte ranges < byte := by
  have hle := previousGraphemeBoundary_le u text byte
  unfold previousAtomicBoundary
  split
  · rename_i range hfind
    have hin := (find_inside hfind).2
    rw [Bool.and_eq_true, decide_eq_true_eq] at hin
    exact hin.1
  · dsimp only
    split
    · rename_i range hfind
      have hin := (find_inside hfind).2
      rw [Bool.and_eq_true, decide_eq_true_eq] at hin
      omega
    · omega

theorem previousAtomicBoundary_le (u : Unicode) (text : Str) (byte : ℕ) (ranges : List ByteRange) :
    previousAtomicBoundary u text byte ranges ≤ byte := by
  by_cases h : 0 < byte
  · exact (previousAtomicBoundary_lt u text ranges h).le
  · have hle := previousGraphemeBoundary_le u text byte
    unfold previousAtomicBoundary
    split
    · rename_i range hfind
      have hin := (find_inside hfind).2
      rw [Bool.and_eq_true, decide_eq_true_eq] at hin
      exact hin.1.le
    · dsimp only
      split
      · rename_i range hfind
        have hin := (find_inside hfind).2
        rw [Bool.and_eq_true, decide_eq_true_eq] at hin
        omega
      · omega

theorem Normal.clear_next (h : Normal u text ranges) (byte : ℕ) :
    Clear u text ranges (nextAtomicBoundary u text byte ranges) := by
  unfold nextAtomicBoundary
  split
  · rename_i range hfind
    exact h.clear_stop (find_inside hfind).1
  · dsimp only
    split
    · rename_i range hfind
      exact h.clear_stop (find_inside hfind).1
    · rename_i hfind
      exact ⟨boundary_next u text byte, not_inside_of_find hfind⟩

theorem lt_nextAtomicBoundary (u : Unicode) {text : Str} (ranges : List ByteRange)
    (h : byte < utf8Len text) : byte < nextAtomicBoundary u text byte ranges := by
  have hlt := lt_nextGraphemeBoundary u h
  unfold nextAtomicBoundary
  split
  · rename_i range hfind
    have hin := (find_inside hfind).2
    rw [Bool.and_eq_true, decide_eq_true_eq, decide_eq_true_eq] at hin
    exact hin.2
  · dsimp only
    split
    · rename_i range hfind
      have hin := (find_inside hfind).2
      rw [Bool.and_eq_true, decide_eq_true_eq, decide_eq_true_eq] at hin
      omega
    · exact hlt

theorem le_nextAtomicBoundary (u : Unicode) {text : Str} (ranges : List ByteRange)
    (h : byte ≤ utf8Len text) : byte ≤ nextAtomicBoundary u text byte ranges := by
  obtain hlt | rfl := Nat.lt_or_eq_of_le h
  · exact (lt_nextAtomicBoundary u ranges hlt).le
  · have hend : nextGraphemeBoundary u text (utf8Len text) = utf8Len text := by
      unfold nextGraphemeBoundary
      dsimp only
      rw [Nat.min_self, if_pos rfl]
    unfold nextAtomicBoundary
    split
    · rename_i range hfind
      have hin := (find_inside hfind).2
      rw [Bool.and_eq_true, decide_eq_true_eq, decide_eq_true_eq] at hin
      exact hin.2.le
    · dsimp only
      rw [hend]
      split
      · rename_i range hfind
        have hin := (find_inside hfind).2
        rw [Bool.and_eq_true, decide_eq_true_eq, decide_eq_true_eq] at hin
        exact hin.2.le
      · exact le_refl _

theorem ends_absorbLoop (h : ∀ r ∈ ranges, Boundary u text r.start ∧ Boundary u text r.stop)
    (hrange : Boundary u text range.start ∧ Boundary u text range.stop) :
    Boundary u text (absorbLoop ranges range).start ∧
      Boundary u text (absorbLoop ranges range).stop := by
  fun_induction absorbLoop ranges range with
  | case1 range hstop => exact hrange
  | case2 range hnext ih => exact ih (Span.ends_foldl_absorb h hrange)

theorem closed_absorbLoop (ranges : List ByteRange) (range : ByteRange) :
    Span.Closed ranges (absorbLoop ranges range) := by
  fun_induction absorbLoop ranges range with
  | case1 range hstop => exact Span.closed_of_foldl_absorb hstop
  | case2 range hnext ih => exact ih

theorem absorbLoop_grows (ranges : List ByteRange) (range : ByteRange) :
    (absorbLoop ranges range).start ≤ range.start ∧
      range.stop ≤ (absorbLoop ranges range).stop := by
  fun_induction absorbLoop ranges range with
  | case1 range hstop => exact ⟨le_refl _, le_refl _⟩
  | case2 range hnext ih =>
    have hgrows := Span.foldl_absorb_grows ranges range
    exact ⟨ih.1.trans hgrows.1, hgrows.2.trans ih.2⟩

/-- A range between clear positions. -/
structure ClearRange (u : Unicode) (text : Str) (ranges : List ByteRange) (range : ByteRange) :
    Prop where
  le : range.start ≤ range.stop
  start : Clear u text ranges range.start
  stop : Clear u text ranges range.stop

theorem Normal.clear_replacement (h : Normal u text ranges) (range : ByteRange) :
    ClearRange u text ranges (normalizeReplacementRange u text range ranges) := by
  unfold normalizeReplacementRange
  dsimp only
  split_ifs with hempty
  · have hclear := h.clear_cursor (boundary_normalize u text (min (min range.start range.stop)
      (utf8Len text)))
    exact ⟨le_refl _, hclear, hclear⟩
  · have hstart := isFloor u text (min (min range.start range.stop) (utf8Len text))
    have hstop := isCeil u (Nat.min_le_right (max range.start range.stop) (utf8Len text))
    have hgrows := absorbLoop_grows ranges
      ⟨floorGraphemeBoundary u text (min (min range.start range.stop) (utf8Len text)),
        ceilGraphemeBoundary u text (min (max range.start range.stop) (utf8Len text))⟩
    have hclosed := closed_absorbLoop ranges
      ⟨floorGraphemeBoundary u text (min (min range.start range.stop) (utf8Len text)),
        ceilGraphemeBoundary u text (min (max range.start range.stop) (utf8Len text))⟩
    have hends := @ends_absorbLoop _ _ _ ⟨floorGraphemeBoundary u text (min (min range.start
      range.stop) (utf8Len text)), ceilGraphemeBoundary u text (min (max range.start range.stop)
        (utf8Len text))⟩ h.boundary ⟨hstart.boundary, hstop.boundary⟩
    have hlt := hstart.le
    have hgt := hstop.ge
    dsimp only at hgrows hlt hgt
    generalize absorbLoop ranges _ = result at hgrows hclosed hends ⊢
    have hne : result.start < result.stop := by omega
    exact ⟨hne.le, ⟨hends.1, fun r hr => hclosed.start_not_inside hne hr⟩,
      ⟨hends.2, fun r hr => hclosed.stop_not_inside hne hr⟩⟩

end Normal

end GrokBuild.Textarea
