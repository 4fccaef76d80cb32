import GrokBuild.Text.Slices
import GrokBuild.Text.Utf8Decode

/-!
# Byte offsets into strings

Slices and replacements at byte offsets. An offset inside a character or past the end, where the
source panics, is `none`.
-/

namespace GrokBuild.Text

/-- What stands in front of a byte offset, and what follows. -/
@[grind] def splitAtByte : ℕ → Str → Option (Str × Str)
  | 0, s => some ([], s)
  | _ + 1, [] => none
  | n + 1, c :: s =>
    if c.utf8Size ≤ n + 1 then
      (splitAtByte (n + 1 - c.utf8Size) s).map fun parts => (c :: parts.1, parts.2)
    else none

/-- `&s[a..b]`. -/
@[grind] def sliceBytes (s : Str) (a b : ℕ) : Option Str :=
  if a ≤ b then
    match splitAtByte b s with
    | none => none
    | some (front, _) => (splitAtByte a front).map Prod.snd
  else none

/-- `s.replace_range(a..b, replacement)`. -/
def replaceBytes (s : Str) (a b : ℕ) (replacement : Str) : Option Str :=
  if a ≤ b then
    match splitAtByte b s with
    | none => none
    | some (front, back) =>
      (splitAtByte a front).map fun parts => parts.1 ++ replacement ++ back
  else none

/-- `s.as_bytes()[i]`. -/
def byteAt (s : Str) (i : ℕ) : Option UInt8 := (encode s)[i]?

section

variable {s front back mid : Str} {c : Char} {n a b i : ℕ}

@[simp] theorem utf8Len_nil : utf8Len [] = 0 := rfl

@[simp] theorem utf8Len_append (s t : Str) : utf8Len (s ++ t) = utf8Len s + utf8Len t := by
  rw [utf8Len, List.map_append, List.sum_append]
  rfl

theorem utf8Len_pos (h : s ≠ []) : 0 < utf8Len s := by
  obtain ⟨c, s, rfl⟩ := List.exists_cons_of_ne_nil h
  rw [utf8Len_cons]
  exact Nat.add_pos_left c.utf8Size_pos _

theorem eq_nil_of_utf8Len_add_le (h : n + utf8Len s ≤ n) : s = [] := by
  by_contra hne
  have hzero : utf8Len s ≤ 0 := Nat.le_of_add_le_add_left (h : n + utf8Len s ≤ n + 0)
  exact absurd (utf8Len_pos hne) (Nat.not_lt.2 hzero)

theorem length_le_utf8Len (s : Str) : s.length ≤ utf8Len s := by
  induction s with
  | nil => exact Nat.le_refl 0
  | cons c s ih =>
    have hpos := c.utf8Size_pos
    rw [List.length_cons, utf8Len_cons]
    omega

theorem length_encode (s : Str) : (encode s).length = utf8Len s := by
  induction s with
  | nil => rfl
  | cons c s ih =>
    rw [encode, List.flatMap_cons, List.length_append, utf8Len_cons, String.length_utf8EncodeChar]
    exact congrArg (c.utf8Size + ·) ih

theorem splitAtByte_eq_some_iff :
    splitAtByte n s = some (front, back) ↔ s = front ++ back ∧ utf8Len front = n := by
  induction s generalizing n front with
  | nil =>
    cases n with
    | zero =>
      rw [splitAtByte, Option.some.injEq, Prod.mk.injEq]
      constructor
      · rintro ⟨rfl, rfl⟩
        exact ⟨rfl, rfl⟩
      · rintro ⟨h, -⟩
        obtain ⟨rfl, rfl⟩ := List.append_eq_nil_iff.mp h.symm
        exact ⟨rfl, rfl⟩
    | succ n =>
      refine iff_of_false (Option.some_ne_none _).symm ?_
      rintro ⟨h, hlen⟩
      obtain ⟨rfl, rfl⟩ := List.append_eq_nil_iff.mp h.symm
      cases hlen
  | cons c s ih =>
    cases n with
    | zero =>
      rw [splitAtByte, Option.some.injEq, Prod.mk.injEq]
      constructor
      · rintro ⟨rfl, rfl⟩
        exact ⟨rfl, rfl⟩
      · rintro ⟨h, hlen⟩
        have hnil : front = [] := by
          by_contra hne
          exact absurd (utf8Len_pos hne) (hlen ▸ Nat.lt_irrefl 0)
        subst hnil
        exact ⟨rfl, h⟩
    | succ n =>
      have hpos := c.utf8Size_pos
      rw [splitAtByte]
      split_ifs with hle
      · rw [Option.map_eq_some_iff]
        constructor
        · rintro ⟨⟨front', back'⟩, hsplit, hparts⟩
          rw [Prod.mk.injEq] at hparts
          obtain ⟨rfl, rfl⟩ := hparts
          obtain ⟨rfl, hlen⟩ := ih.mp hsplit
          refine ⟨rfl, ?_⟩
          rw [utf8Len_cons, hlen]
          exact Nat.add_sub_of_le hle
        · rintro ⟨h, hlen⟩
          cases front with
          | nil => cases hlen
          | cons c' front =>
            rw [List.cons_append, List.cons.injEq] at h
            obtain ⟨rfl, rfl⟩ := h
            rw [utf8Len_cons] at hlen
            exact ⟨(front, back), ih.mpr ⟨rfl, Nat.eq_sub_of_add_eq' hlen⟩, rfl⟩
      · refine iff_of_false not_false ?_
        rintro ⟨h, hlen⟩
        cases front with
        | nil => cases hlen
        | cons c' front =>
          rw [List.cons_append, List.cons.injEq] at h
          obtain ⟨rfl, rfl⟩ := h
          rw [utf8Len_cons] at hlen
          exact hle (hlen ▸ Nat.le_add_right _ _)

/-- A byte offset at the boundary of a character. -/
def CharBoundary (s : Str) (n : ℕ) : Prop := ∃ front back, s = front ++ back ∧ utf8Len front = n

theorem splitAtByte_isSome_iff : (splitAtByte n s).isSome = true ↔ CharBoundary s n := by
  rw [Option.isSome_iff_exists]
  constructor
  · rintro ⟨⟨front, back⟩, h⟩
    exact ⟨front, back, splitAtByte_eq_some_iff.1 h⟩
  · rintro ⟨front, back, h⟩
    exact ⟨(front, back), splitAtByte_eq_some_iff.2 h⟩

theorem CharBoundary.le (h : CharBoundary s n) : n ≤ utf8Len s := by
  obtain ⟨front, back, rfl, rfl⟩ := h
  rw [utf8Len_append]
  exact Nat.le_add_right _ _

/-- Two boundaries in order split the text in three. -/
theorem exists_split_three (ha : CharBoundary s a) (hb : CharBoundary s b) (hab : a ≤ b) :
    ∃ front mid back, s = front ++ mid ++ back ∧ utf8Len front = a ∧
      utf8Len (front ++ mid) = b := by
  obtain ⟨front, rest, rfl, rfl⟩ := ha
  obtain ⟨whole, back, hsplit, rfl⟩ := hb
  obtain ⟨mid, hwhole, hrest⟩ | ⟨mid, hfront, hback⟩ := List.append_eq_append_iff.mp hsplit
  · subst hwhole
    exact ⟨front, mid, back, by rw [hrest, List.append_assoc], rfl, rfl⟩
  · subst hfront
    rw [utf8Len_append] at hab
    have hmid : mid = [] := eq_nil_of_utf8Len_add_le hab
    subst hmid
    rw [List.nil_append] at hback
    subst hback
    refine ⟨whole, [], back, rfl, ?_, ?_⟩
    · rw [List.append_nil]
    · rw [List.append_nil]

theorem sliceBytes_split (front mid back : Str) :
    sliceBytes (front ++ mid ++ back) (utf8Len front) (utf8Len (front ++ mid)) = some mid := by
  have hle : utf8Len front ≤ utf8Len (front ++ mid) := by
    rw [utf8Len_append]
    exact Nat.le_add_right _ _
  rw [sliceBytes, if_pos hle, splitAtByte_eq_some_iff.2 ⟨rfl, rfl⟩]
  dsimp only
  rw [splitAtByte_eq_some_iff.2 ⟨rfl, rfl⟩]
  rfl

theorem replaceBytes_split (front mid back replacement : Str) :
    replaceBytes (front ++ mid ++ back) (utf8Len front) (utf8Len (front ++ mid)) replacement =
      some (front ++ replacement ++ back) := by
  have hle : utf8Len front ≤ utf8Len (front ++ mid) := by
    rw [utf8Len_append]
    exact Nat.le_add_right _ _
  rw [replaceBytes, if_pos hle, splitAtByte_eq_some_iff.2 ⟨rfl, rfl⟩]
  dsimp only
  rw [splitAtByte_eq_some_iff.2 ⟨rfl, rfl⟩]
  rfl

theorem sliceBytes_isSome (ha : CharBoundary s a) (hb : CharBoundary s b) (hab : a ≤ b) :
    ∃ mid, sliceBytes s a b = some mid ∧ utf8Len mid = b - a := by
  obtain ⟨front, mid, back, rfl, rfl, rfl⟩ := exists_split_three ha hb hab
  refine ⟨mid, sliceBytes_split front mid back, ?_⟩
  rw [utf8Len_append, Nat.add_sub_cancel_left]

theorem sliceBytes_self (h : CharBoundary s a) : sliceBytes s a a = some [] := by
  obtain ⟨mid, hmid, hlen⟩ := sliceBytes_isSome h h (Nat.le_refl a)
  rw [Nat.sub_self] at hlen
  have hnil : mid = [] := eq_nil_of_utf8Len_add_le (Nat.le_of_eq ((Nat.zero_add _).trans hlen))
  rw [hmid, hnil]

/-- An ASCII byte is a character of its own. -/
theorem byteAt_ascii {x : UInt8} (hx : x < 0x80) (h : byteAt s i = some x) :
    ∃ front back, s = front ++ asciiChar x :: back ∧ utf8Len front = i := by
  induction s generalizing i with
  | nil => cases h
  | cons c s ih =>
    rw [byteAt, encode, List.flatMap_cons] at h
    by_cases hlt : i < (String.utf8EncodeChar c).length
    · rw [List.getElem?_append_left hlt] at h
      obtain ⟨hsingle, hc⟩ := utf8EncodeChar_of_ascii hx (List.mem_of_getElem? h)
      rw [hsingle, List.length_singleton] at hlt
      exact ⟨[], s, by rw [hc]; rfl, (Nat.lt_one_iff.mp hlt).symm⟩
    · rw [List.getElem?_append_right (Nat.le_of_not_lt hlt), String.length_utf8EncodeChar] at h
      rw [String.length_utf8EncodeChar] at hlt
      obtain ⟨front, back, rfl, hlen⟩ := ih h
      refine ⟨c :: front, back, rfl, ?_⟩
      rw [utf8Len_cons, hlen]
      exact Nat.add_sub_of_le (Nat.le_of_not_lt hlt)

theorem sliceBytes_eq_some_iff {w : Str} : sliceBytes s a b = some w ↔
    ∃ front back, s = front ++ w ++ back ∧ utf8Len front = a ∧ b = a + utf8Len w := by
  constructor
  · intro h
    unfold sliceBytes at h
    split_ifs at h
    split at h
    · cases h
    · rename_i whole back hwhole
      rw [Option.map_eq_some_iff] at h
      obtain ⟨⟨front, w'⟩, hfront, rfl⟩ := h
      obtain ⟨hs, hlen⟩ := splitAtByte_eq_some_iff.1 hwhole
      obtain ⟨hwhole, hstart⟩ := splitAtByte_eq_some_iff.1 hfront
      refine ⟨front, back, by rw [hs, hwhole], hstart, ?_⟩
      rw [← hlen, hwhole, utf8Len_append, hstart]
  · rintro ⟨front, back, rfl, rfl, rfl⟩
    rw [← utf8Len_append]
    exact sliceBytes_split front w back

/-- A slice in front of a replaced part. -/
theorem sliceBytes_before {w replacement : Str}
    (h : sliceBytes (front ++ mid ++ back) a b = some w) (hle : b ≤ utf8Len front) :
    sliceBytes (front ++ replacement ++ back) a b = some w := by
  obtain ⟨before, after, hsplit, rfl, rfl⟩ := sliceBytes_eq_some_iff.1 h
  rw [List.append_assoc] at hsplit
  have hfront : ∃ rest, front = before ++ w ++ rest := by
    obtain ⟨rest, hrest, -⟩ | ⟨rest, hrest, -⟩ := List.append_eq_append_iff.mp hsplit
    · refine ⟨[], ?_⟩
      have hnil : rest = [] := by
        rw [← utf8Len_append, hrest, utf8Len_append] at hle
        exact eq_nil_of_utf8Len_add_le hle
      rw [hrest, hnil, List.append_nil, List.append_nil]
    · exact ⟨rest, hrest⟩
  obtain ⟨rest, rfl⟩ := hfront
  refine sliceBytes_eq_some_iff.2 ⟨before, rest ++ replacement ++ back, ?_, rfl, rfl⟩
  simp only [List.append_assoc]

/-- A slice behind a replaced part is shifted with the text. -/
theorem sliceBytes_behind {w replacement : Str} {a' b' : ℕ}
    (h : sliceBytes (front ++ mid ++ back) a b = some w) (hle : utf8Len (front ++ mid) ≤ a)
    (ha : a' + utf8Len mid = a + utf8Len replacement)
    (hb : b' + utf8Len mid = b + utf8Len replacement) :
    sliceBytes (front ++ replacement ++ back) a' b' = some w := by
  obtain ⟨before, after, hsplit, rfl, rfl⟩ := sliceBytes_eq_some_iff.1 h
  rw [List.append_assoc before] at hsplit
  have hbefore : ∃ rest, before = front ++ mid ++ rest ∧ back = rest ++ (w ++ after) := by
    obtain ⟨rest, hrest, hback⟩ | ⟨rest, hrest, hback⟩ := List.append_eq_append_iff.mp hsplit
    · exact ⟨rest, hrest, hback⟩
    · have hnil : rest = [] := by
        rw [hrest, utf8Len_append] at hle
        exact eq_nil_of_utf8Len_add_le hle
      subst hnil
      rw [List.append_nil] at hrest
      rw [List.nil_append] at hback
      exact ⟨[], by rw [hrest, List.append_nil], hback.symm⟩
  obtain ⟨rest, rfl, rfl⟩ := hbefore
  refine sliceBytes_eq_some_iff.2 ⟨front ++ replacement ++ rest, after, ?_, ?_, ?_⟩
  · simp only [List.append_assoc]
  · simp only [utf8Len_append] at ha ⊢
    omega
  · simp only [utf8Len_append] at ha hb ⊢
    omega

end

end GrokBuild.Text
