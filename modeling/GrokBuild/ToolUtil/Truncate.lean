import GrokBuild.Text.ByteSlices

/-!
# Truncated tool output

The cuts of `util/truncate.rs`, at byte offsets into the text. Limits are bytes in some of them and
characters in others.
-/

namespace GrokBuild.ToolUtil

open Text

/-- `TRUNCATION_MARKER`. -/
def truncationMarker : Str := "…".toList

/-- `FRONT_BACK_TRUNCATION_MARKER`. -/
def frontBackTruncationMarker : Str := "\n\n... (output truncated) ...\n\n".toList

/-- The marker of `truncate_middle`. -/
def middleMarker : Str := "...".toList

/-- `while !s.is_char_boundary(end) { end -= 1 }`. -/
def backToBoundary (s : Str) : ℕ → ℕ
  | 0 => 0
  | n + 1 => if (splitAtByte (n + 1) s).isSome then n + 1 else backToBoundary s n

/-- `&s[..end]`. -/
def sliceTo (s : Str) (n : ℕ) : Option Str := (splitAtByte n s).map Prod.fst

/-- `&s[start..]`. -/
def sliceFromByte (s : Str) (n : ℕ) : Option Str := (splitAtByte n s).map Prod.snd

def truncateStr (s : Str) (maxBytes : ℕ) : Option Str :=
  if utf8Len s ≤ maxBytes then some s else sliceTo s (backToBoundary s maxBytes)

def truncateStrWithMarker (s : Str) (maxBytes : ℕ) : Option Str :=
  if utf8Len s ≤ maxBytes then some s
  else if maxBytes < utf8Len truncationMarker then truncateStr s maxBytes
  else (sliceTo s (backToBoundary s (maxBytes - utf8Len truncationMarker))).map
    (· ++ truncationMarker)

/-- `s.char_indices().nth(k).map(|(i, _)| i)`. -/
def charIndex (s : Str) (k : ℕ) : Option ℕ :=
  if k < s.length then some (utf8Len (s.take k)) else none

/-- The text in front of one offset and the text behind another, with a separator between. -/
def spliceAt (s : Str) (frontEnd backStart : ℕ) (separator : Str) : Option Str :=
  (sliceTo s frontEnd).bind fun front =>
    (sliceFromByte s backStart).map fun back => front ++ separator ++ back

/-- The output, and whether it was cut. -/
def truncateFrontAndBack (s : Str) (maxChars : ℕ) : Option (Str × Bool) :=
  if utf8Len s ≤ maxChars then some (s, false)
  else
    let half := maxChars / 2
    let frontEnd := (charIndex s half).getD (utf8Len s)
    let backStart :=
      if s.length ≤ half then 0 else (charIndex s (s.length - half)).getD 0
    (spliceAt s frontEnd backStart frontBackTruncationMarker).map (·, true)

def truncateMiddle (s : Str) (maxChars : ℕ) : Option Str :=
  if s.length ≤ maxChars then some s
  else
    let remaining := maxChars - middleMarker.length
    let frontCount := remaining / 2
    let backCount := remaining - frontCount
    let frontEnd := (charIndex s frontCount).getD (utf8Len s)
    let backStart :=
      if s.length ≤ backCount then 0 else (charIndex s (s.length - backCount)).getD 0
    spliceAt s frontEnd backStart middleMarker

/-- A prefix and a suffix that do not overlap, with the separator between them. -/
def Spliced (s separator out : Str) : Prop :=
  ∃ front gap back, s = front ++ gap ++ back ∧ out = front ++ separator ++ back

variable {s out : Str} {n k : ℕ}

section Bytes

theorem splitAtByte_take (s : Str) (k : ℕ) :
    splitAtByte (utf8Len (s.take k)) s = some (s.take k, s.drop k) :=
  splitAtByte_eq_some_iff.2 ⟨(List.take_append_drop k s).symm, rfl⟩

theorem splitAtByte_length (s : Str) : splitAtByte (utf8Len s) s = some (s, []) :=
  splitAtByte_eq_some_iff.2 ⟨(List.append_nil s).symm, rfl⟩

/-- The first boundary at or in front of an offset is one, and no later than it. -/
theorem splitAtByte_backToBoundary (s : Str) (n : ℕ) :
    ∃ front back, splitAtByte (backToBoundary s n) s = some (front, back) ∧ utf8Len front ≤ n := by
  induction n with
  | zero => exact ⟨[], s, splitAtByte_take s 0, Nat.le_refl 0⟩
  | succ n ih =>
    rw [backToBoundary]
    split
    · next hsome =>
      obtain ⟨parts, hparts⟩ := Option.isSome_iff_exists.1 hsome
      exact ⟨parts.1, parts.2, hparts, (splitAtByte_eq_some_iff.1 hparts).2.le⟩
    · obtain ⟨front, back, hsplit, hle⟩ := ih
      exact ⟨front, back, hsplit, hle.trans (Nat.le_succ n)⟩

theorem sliceTo_backToBoundary (s : Str) (n : ℕ) :
    ∃ front, sliceTo s (backToBoundary s n) = some front ∧ front <+: s ∧ utf8Len front ≤ n := by
  obtain ⟨front, back, hsplit, hle⟩ := splitAtByte_backToBoundary s n
  refine ⟨front, ?_, ⟨back, (splitAtByte_eq_some_iff.1 hsplit).1.symm⟩, hle⟩
  rw [sliceTo, hsplit]
  rfl

theorem truncateStr_spec (s : Str) (n : ℕ) :
    ∃ out, truncateStr s n = some out ∧ out <+: s ∧ utf8Len out ≤ n := by
  rw [truncateStr]
  split
  · next hfits => exact ⟨s, rfl, List.prefix_rfl, hfits⟩
  · exact sliceTo_backToBoundary s n

/-- The marker counts against the limit, and stands only behind a cut. -/
theorem truncateStrWithMarker_spec (s : Str) (n : ℕ) :
    ∃ out, truncateStrWithMarker s n = some out ∧ utf8Len out ≤ n ∧
      (out = s ∨ (∃ front, front <+: s ∧ out = front ++ truncationMarker) ∨
        n < utf8Len truncationMarker ∧ out <+: s) := by
  rw [truncateStrWithMarker]
  split
  · next hfits => exact ⟨s, rfl, hfits, Or.inl rfl⟩
  · split
    · next hsmall =>
      obtain ⟨out, hout, hprefix, hle⟩ := truncateStr_spec s n
      exact ⟨out, hout, hle, Or.inr (Or.inr ⟨hsmall, hprefix⟩)⟩
    · next hroom =>
      obtain ⟨front, hfront, hprefix, hle⟩ :=
        sliceTo_backToBoundary s (n - utf8Len truncationMarker)
      refine ⟨front ++ truncationMarker, ?_, ?_, Or.inr (Or.inl ⟨front, hprefix, rfl⟩)⟩
      · rw [hfront, Option.map_some]
      · rw [utf8Len_append]
        omega

end Bytes

section Characters

/-- Offsets of characters are where the text can be cut. -/
theorem spliceAt_take (s separator : Str) (i j : ℕ) :
    spliceAt s (utf8Len (s.take i)) (utf8Len (s.take j)) separator =
      some (s.take i ++ separator ++ s.drop j) := by
  rw [spliceAt, sliceTo, sliceFromByte, splitAtByte_take, splitAtByte_take]
  rfl

theorem charIndex_front (s : Str) (k : ℕ) :
    (charIndex s k).getD (utf8Len s) = utf8Len (s.take k) := by
  rw [charIndex]
  split
  · rfl
  · next hlong => rw [List.take_of_length_le (not_lt.1 hlong), Option.getD_none]

/-- The character from which the rest of a text is kept: the first one where none is to be kept, as
there is no character behind the last. -/
def backFrom (s : Str) (count : ℕ) : ℕ := if count = 0 then 0 else s.length - count

theorem charIndex_back (s : Str) (count : ℕ) :
    (if s.length ≤ count then 0 else (charIndex s (s.length - count)).getD 0) =
      utf8Len (s.take (backFrom s count)) := by
  rw [backFrom]
  by_cases hzero : count = 0
  · rw [if_pos hzero, hzero, Nat.sub_zero, charIndex, if_neg (Nat.lt_irrefl _), List.take_zero]
    split
    · rfl
    · rfl
  · rw [if_neg hzero]
    split
    · next hle => rw [Nat.sub_eq_zero_of_le hle, List.take_zero, utf8Len_nil]
    · next hlong =>
      rw [charIndex, if_pos (by omega)]
      rfl

theorem truncateMiddle_cut (h : n < s.length) :
    truncateMiddle s n = some (s.take ((n - 3) / 2) ++ middleMarker ++
      s.drop (backFrom s (n - 3 - (n - 3) / 2))) := by
  rw [truncateMiddle, if_neg (not_le.2 h)]
  dsimp only
  rw [charIndex_front, charIndex_back, spliceAt_take]
  rfl

theorem truncateFrontAndBack_cut (h : n < utf8Len s) :
    truncateFrontAndBack s n =
      some (s.take (n / 2) ++ frontBackTruncationMarker ++ s.drop (backFrom s (n / 2)), true) := by
  rw [truncateFrontAndBack, if_neg (not_le.2 h)]
  dsimp only
  rw [charIndex_front, charIndex_back, spliceAt_take, Option.map_some]

end Characters

section Overlap

variable {separator : Str} {i j : ℕ}

theorem spliced_of_le (separator : Str) (h : i ≤ j) :
    Spliced s separator (s.take i ++ separator ++ s.drop j) := by
  refine ⟨s.take i, (s.take j).drop i, s.drop j, ?_, rfl⟩
  have hfront : s.take i = (s.take j).take i := by rw [List.take_take, Nat.min_eq_left h]
  rw [hfront, List.take_append_drop, List.take_append_drop]

theorem Spliced.length_le (h : Spliced s separator out) :
    out.length ≤ s.length + separator.length := by
  obtain ⟨front, gap, back, rfl, rfl⟩ := h
  simp only [List.length_append]
  omega

/-- What is kept in front may not reach into what is kept behind: a longer output cannot be taken
apart otherwise either. -/
theorem spliced_take_drop_iff (hj : j ≤ s.length) :
    Spliced s separator (s.take i ++ separator ++ s.drop j) ↔ min i s.length ≤ j := by
  constructor
  · intro h
    have hlength := h.length_le
    simp only [List.length_append, List.length_take, List.length_drop] at hlength
    omega
  · intro hle
    have htake : s.take i = s.take (min i s.length) := by
      rw [← List.take_eq_take_min]
    rw [htake]
    exact spliced_of_le separator hle

theorem backFrom_le (s : Str) (count : ℕ) : backFrom s count ≤ s.length := by
  rw [backFrom]
  split
  · exact Nat.zero_le _
  · exact Nat.sub_le _ _

end Overlap

/-! ## Budgets -/

/-- The cut in the middle keeps within its limit, if there is room for the marker and a character
behind it. -/
theorem truncateMiddle_length_iff (s : Str) (n : ℕ) :
    (∃ out, truncateMiddle s n = some out ∧ out.length ≤ n) ↔ s.length ≤ n ∨ 4 ≤ n := by
  by_cases hfits : s.length ≤ n
  · refine iff_of_true ⟨s, ?_, hfits⟩ (Or.inl hfits)
    rw [truncateMiddle, if_pos hfits]
  · have hmarker : middleMarker.length = 3 := by rfl
    have hlength : ∀ out, truncateMiddle s n = some out → (out.length ≤ n ↔ 4 ≤ n) := by
      intro out hout
      rw [truncateMiddle_cut (not_le.1 hfits)] at hout
      rw [← Option.some.inj hout]
      simp only [List.length_append, List.length_take, List.length_drop, hmarker, backFrom]
      split
      · omega
      · omega
    constructor
    · rintro ⟨out, hout, hle⟩
      exact Or.inr ((hlength out hout).1 hle)
    · intro h
      refine ⟨_, truncateMiddle_cut (not_le.1 hfits), ?_⟩
      exact (hlength _ (truncateMiddle_cut (not_le.1 hfits))).2 (h.resolve_left hfits)

/-- The cut in the middle never repeats a character. -/
theorem truncateMiddle_spliced (h : n < s.length) (hout : truncateMiddle s n = some out) :
    Spliced s middleMarker out := by
  rw [truncateMiddle_cut h] at hout
  rw [← Option.some.inj hout, spliced_take_drop_iff (backFrom_le _ _), backFrom]
  split
  · omega
  · omega

/-- Halves of a number of characters repeat a text of fewer characters, when its bytes are over the
limit. -/
theorem truncateFrontAndBack_spliced_iff (h : n < utf8Len s) :
    (∃ out, truncateFrontAndBack s n = some (out, true) ∧ Spliced s frontBackTruncationMarker out) ↔
      2 * (n / 2) ≤ s.length := by
  have hcut := truncateFrontAndBack_cut h
  have hne : s ≠ [] := fun heq => by
    rw [heq, utf8Len_nil] at h
    exact Nat.not_lt_zero n h
  have hpos := List.length_pos_of_ne_nil hne
  have hspliced : Spliced s frontBackTruncationMarker
      (s.take (n / 2) ++ frontBackTruncationMarker ++ s.drop (backFrom s (n / 2))) ↔
      2 * (n / 2) ≤ s.length := by
    rw [spliced_take_drop_iff (backFrom_le _ _), backFrom]
    split
    · omega
    · omega
  constructor
  · rintro ⟨out, hout, hout'⟩
    have heq := (Prod.mk.inj (Option.some.inj (hcut.symm.trans hout))).1
    exact hspliced.1 (heq ▸ hout')
  · intro hle
    exact ⟨_, hcut, hspliced.2 hle⟩

/-- `truncate_str_with_marker` keeps within its bytes and cuts at the end only. -/
def MarkerHolds (s : Str) (n : ℕ) : Prop :=
  ∃ out, truncateStrWithMarker s n = some out ∧ utf8Len out ≤ n ∧
    (out = s ∨ (∃ front, front <+: s ∧ out = front ++ truncationMarker) ∨
      n < utf8Len truncationMarker ∧ out <+: s)

/-- `truncate_middle` keeps within its characters, and what it cuts is a prefix and a suffix. -/
def MiddleHolds (s : Str) (n : ℕ) : Prop :=
  ∃ out, truncateMiddle s n = some out ∧ out.length ≤ n ∧
    (if s.length ≤ n then out = s else Spliced s middleMarker out)

/-- What `truncate_front_and_back` cuts is a prefix and a suffix. -/
def FrontAndBackHolds (s : Str) (n : ℕ) : Prop :=
  ∃ out cut, truncateFrontAndBack s n = some (out, cut) ∧
    (if cut then Spliced s frontBackTruncationMarker out else out = s)

/-- The three helpers keep their budgets and repeat no text exactly when `truncate_middle` has room
for its marker and a character, and `truncate_front_and_back` has no more characters to keep than
there are. -/
theorem truncation_holds_iff (s : Str) (n : ℕ) :
    (MarkerHolds s n ∧ MiddleHolds s n ∧ FrontAndBackHolds s n) ↔
      (s.length ≤ n ∨ 4 ≤ n) ∧ (utf8Len s ≤ n ∨ 2 * (n / 2) ≤ s.length) := by
  have hmarker : MarkerHolds s n := truncateStrWithMarker_spec s n
  have hmiddle : MiddleHolds s n ↔ s.length ≤ n ∨ 4 ≤ n := by
    rw [← truncateMiddle_length_iff]
    constructor
    · rintro ⟨out, hout, hle, -⟩
      exact ⟨out, hout, hle⟩
    · rintro ⟨out, hout, hle⟩
      refine ⟨out, hout, hle, ?_⟩
      split
      · next hfits =>
        rw [truncateMiddle, if_pos hfits] at hout
        exact (Option.some.inj hout).symm
      · next hcut => exact truncateMiddle_spliced (not_le.1 hcut) hout
  have hfront : FrontAndBackHolds s n ↔ utf8Len s ≤ n ∨ 2 * (n / 2) ≤ s.length := by
    by_cases hfits : utf8Len s ≤ n
    · refine iff_of_true ⟨s, false, ?_, rfl⟩ (Or.inl hfits)
      rw [truncateFrontAndBack, if_pos hfits]
    · rw [or_iff_right hfits, ← truncateFrontAndBack_spliced_iff (not_le.1 hfits)]
      constructor
      · rintro ⟨out, cut, hout, hholds⟩
        have hcut := truncateFrontAndBack_cut (not_le.1 hfits)
        have htrue : cut = true := (Prod.mk.inj (Option.some.inj (hout.symm.trans hcut))).2
        rw [htrue] at hout hholds
        exact ⟨out, hout, hholds⟩
      · rintro ⟨out, hout, hspliced⟩
        exact ⟨out, true, hout, hspliced⟩
  rw [hmiddle, hfront]
  exact and_iff_right hmarker

/-- Three bytes for a text of four: the whole text behind the marker. -/
theorem middle_over_budget : truncateMiddle "abcd".toList 3 = some "...abcd".toList ∧
    ¬(MarkerHolds "abcd".toList 3 ∧ MiddleHolds "abcd".toList 3 ∧
      FrontAndBackHolds "abcd".toList 3) := by
  refine ⟨by decide +kernel, fun h => ?_⟩
  obtain ⟨out, hout, hle, -⟩ := h.2.1
  have hcut : truncateMiddle "abcd".toList 3 = some "...abcd".toList := by decide +kernel
  rw [← Option.some.inj (hcut.symm.trans hout)] at hle
  exact absurd hle (by decide +kernel)

/-- Two characters of three bytes each, cut to five: both are there twice. -/
example : truncateFrontAndBack "✓✗".toList 5 =
    some ("✓✗".toList ++ frontBackTruncationMarker ++ "✓✗".toList, true) := by decide +kernel

end GrokBuild.ToolUtil
