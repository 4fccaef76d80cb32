import GrokBuild.Text.Segments
import GrokBuild.Text.Utf8
import Mathlib.Tactic.IntervalCases

/-!
# URL paths of managed policies

Both sides of a policy comparison decode the escapes of unreserved characters, and the deny side
collapses empty segments as well. No respelling of a path changes what is compared.
-/

namespace GrokBuild.Permission
open Text

/-! ## Escapes -/

def hexVal (c : Char) : Option ℕ :=
  let n := c.toNat
  if 48 ≤ n ∧ n ≤ 57 then some (n - 48)
  else if 97 ≤ n ∧ n ≤ 102 then some (n - 97 + 10)
  else if 65 ≤ n ∧ n ≤ 70 then some (n - 65 + 10)
  else none

/-- `is_ascii_alphanumeric` or one of `-`, `.`, `_` and `~`, on the byte. -/
def isUnreserved (n : ℕ) : Bool :=
  (48 ≤ n && n ≤ 57) || (65 ≤ n && n ≤ 90) || (97 ≤ n && n ≤ 122) ||
    n == 45 || n == 46 || n == 95 || n == 126

/-- What an escape becomes. A reserved one stays, with upper-case digits. -/
def decodeEscape (h l : Char) (hi lo : ℕ) : Str :=
  if isUnreserved (hi * 16 + lo) then [Char.ofNat (hi * 16 + lo)]
  else ['%', h.toUpper, l.toUpper]

def decodeUnreservedEscapes : Str → Str
  | '%' :: h :: l :: rest =>
    match hexVal h, hexVal l with
    | some hi, some lo => decodeEscape h l hi lo ++ decodeUnreservedEscapes rest
    | _, _ => '%' :: decodeUnreservedEscapes (h :: l :: rest)
  | c :: rest => c :: decodeUnreservedEscapes rest
  | [] => []

def collapseEmptySegments (path : Str) : Str :=
  path.foldl (fun out c => if c == '/' && endsWith out ['/'] then out else out ++ [c]) []

/-! ## Spellings of a path -/

/-- Every `%` is followed by two hex digits. -/
inductive WellEscaped : Str → Prop
  | nil : WellEscaped []
  | plain {c : Char} {p : Str} (hc : c ≠ '%') (h : WellEscaped p) : WellEscaped (c :: p)
  | escape {h l : Char} {hi lo : ℕ} {p : Str} (hh : hexVal h = some hi) (hl : hexVal l = some lo)
      (hp : WellEscaped p) : WellEscaped ('%' :: h :: l :: p)

/-- The escape with these digits spells the character. -/
def Spells (h l c : Char) : Prop :=
  ∃ hi lo, hexVal h = some hi ∧ hexVal l = some lo ∧ c.toNat = hi * 16 + lo

/-- The second path spells the first one in another way: unreserved characters are escaped or not,
the digits of an escape change their case, and slashes are repeated. -/
inductive Respelled : Str → Str → Prop
  | nil : Respelled [] []
  | plain {c : Char} {p p' : Str} (hc : c ≠ '%') (h : Respelled p p') : Respelled (c :: p) (c :: p')
  | escape {c h l : Char} {p p' : Str} (hc : isUnreserved c.toNat = true) (hs : Spells h l c)
      (hp : Respelled p p') : Respelled (c :: p) ('%' :: h :: l :: p')
  | unescape {c h l : Char} {p p' : Str} (hc : isUnreserved c.toNat = true) (hs : Spells h l c)
      (hp : Respelled p p') : Respelled ('%' :: h :: l :: p) (c :: p')
  | recase {h l h' l' : Char} {hi lo : ℕ} {p p' : Str} (hh : hexVal h = some hi)
      (hl : hexVal l = some lo) (hh' : hexVal h' = some hi) (hl' : hexVal l' = some lo)
      (hp : Respelled p p') : Respelled ('%' :: h :: l :: p) ('%' :: h' :: l' :: p')
  | slash {p p' : Str} (h : Respelled p ('/' :: p')) : Respelled p ('/' :: '/' :: p')

/-! ## Digits -/

section Digits

variable {c h l h' l' : Char} {hi lo v : ℕ}

theorem toNat_ofNat {n : ℕ} (hn : n < 256) : (Char.ofNat n).toNat = n := by
  have hvalid : n.isValidChar := by
    left
    omega
  rw [Char.ofNat, dif_pos hvalid]
  rfl

theorem hexVal_lt (hc : hexVal c = some v) : v < 16 := by
  unfold hexVal at hc
  dsimp only at hc
  split at hc
  · cases hc
    omega
  · split at hc
    · cases hc
      omega
    · split at hc
      · cases hc
        omega
      · cases hc

/-- The upper-case digit of a value. -/
def upperDigit (v : ℕ) : Char := Char.ofNat (if v < 10 then 48 + v else 55 + v)

/-- The case of a digit is gone once it is upper case. -/
theorem toUpper_of_hexVal (hc : hexVal c = some v) : c.toUpper = upperDigit v := by
  have hchar : c = Char.ofNat c.toNat := (Char.ofNat_toNat c).symm
  unfold hexVal at hc
  dsimp only at hc
  generalize c.toNat = n at hc hchar
  split at hc
  · rename_i hn
    obtain ⟨hlow, hhigh⟩ := hn
    cases hc
    rw [hchar]
    interval_cases n <;> rfl
  · split at hc
    · rename_i hn
      obtain ⟨hlow, hhigh⟩ := hn
      cases hc
      rw [hchar]
      interval_cases n <;> rfl
    · split at hc
      · rename_i hn
        obtain ⟨hlow, hhigh⟩ := hn
        cases hc
        rw [hchar]
        interval_cases n <;> rfl
      · cases hc

theorem hexVal_upperDigit (hv : v < 16) : hexVal (upperDigit v) = some v := by
  interval_cases v <;> rfl

theorem hexVal_ne_slash (hc : hexVal c = some v) : c ≠ '/' := by
  rintro rfl
  cases hc

theorem upperDigit_ne_slash (hv : v < 16) : upperDigit v ≠ '/' :=
  hexVal_ne_slash (hexVal_upperDigit hv)

/-- An escape is decoded by its value alone. -/
theorem decodeEscape_eq (hh : hexVal h = some hi) (hl : hexVal l = some lo) :
    decodeEscape h l hi lo =
      if isUnreserved (hi * 16 + lo) then [Char.ofNat (hi * 16 + lo)]
      else ['%', upperDigit hi, upperDigit lo] := by
  rw [decodeEscape, toUpper_of_hexVal hh, toUpper_of_hexVal hl]

theorem ne_percent_of_isUnreserved (hc : isUnreserved c.toNat = true) : c ≠ '%' := by
  rintro rfl
  cases hc

theorem decodeEscape_spells (hc : isUnreserved c.toNat = true) (hs : Spells h l c) :
    ∃ hi lo, hexVal h = some hi ∧ hexVal l = some lo ∧ decodeEscape h l hi lo = [c] := by
  obtain ⟨hi, lo, hh, hl, hval⟩ := hs
  refine ⟨hi, lo, hh, hl, ?_⟩
  rw [decodeEscape, ← hval, if_pos hc, Char.ofNat_toNat]

end Digits

/-! ## Decoding -/

section Decode

variable {c h l : Char} {hi lo : ℕ} {p p' : Str}

@[simp] theorem decode_nil : decodeUnreservedEscapes [] = [] := rfl

theorem decode_plain (hc : c ≠ '%') (p : Str) :
    decodeUnreservedEscapes (c :: p) = c :: decodeUnreservedEscapes p := by
  rw [decodeUnreservedEscapes]
  rintro h l rest rfl
  exact absurd rfl hc

theorem decode_escape (hh : hexVal h = some hi) (hl : hexVal l = some lo) (p : Str) :
    decodeUnreservedEscapes ('%' :: h :: l :: p) =
      decodeEscape h l hi lo ++ decodeUnreservedEscapes p := by
  rw [decodeUnreservedEscapes, hh, hl]

theorem decode_decodeEscape (hh : hexVal h = some hi) (hl : hexVal l = some lo) (p : Str) :
    decodeUnreservedEscapes (decodeEscape h l hi lo ++ p) =
      decodeEscape h l hi lo ++ decodeUnreservedEscapes p := by
  have hhi := hexVal_lt hh
  have hlo := hexVal_lt hl
  rw [decodeEscape_eq hh hl]
  split
  · rename_i hun
    have hne : Char.ofNat (hi * 16 + lo) ≠ '%' := by
      intro heq
      have hnat := congrArg Char.toNat heq
      rw [toNat_ofNat (by omega)] at hnat
      rw [hnat] at hun
      cases hun
    rw [List.singleton_append, decode_plain hne]
    rfl
  · rename_i hres
    have hup := decode_escape (hexVal_upperDigit hhi) (hexVal_upperDigit hlo) p
    rw [decodeEscape_eq (hexVal_upperDigit hhi) (hexVal_upperDigit hlo), if_neg hres] at hup
    exact hup

theorem decode_idem (hp : WellEscaped p) :
    decodeUnreservedEscapes (decodeUnreservedEscapes p) = decodeUnreservedEscapes p := by
  induction hp with
  | nil => rfl
  | plain hc _ ih => rw [decode_plain hc, decode_plain hc, ih]
  | escape hh hl _ ih => rw [decode_escape hh hl, decode_decodeEscape hh hl, ih]

theorem slash_not_mem_decodeEscape (hh : hexVal h = some hi) (hl : hexVal l = some lo) :
    '/' ∉ decodeEscape h l hi lo := by
  have hhi := hexVal_lt hh
  have hlo := hexVal_lt hl
  rw [decodeEscape_eq hh hl]
  split
  · rename_i hun
    rw [List.mem_singleton]
    intro heq
    have hnat := congrArg Char.toNat heq.symm
    rw [toNat_ofNat (by omega)] at hnat
    rw [hnat] at hun
    cases hun
  · simp only [List.mem_cons, List.not_mem_nil, or_false, not_or]
    exact ⟨by decide, (upperDigit_ne_slash hhi).symm, (upperDigit_ne_slash hlo).symm⟩

theorem map_cons_head_tail {x : Str} {segments : List Str} (hne : segments ≠ []) {x' : Str}
    (f : Str → Str) (hf : f (x ++ segments.head hne) = x' ++ f (segments.head hne)) :
    ((x ++ segments.head hne) :: segments.tail).map f =
      (x' ++ (segments.map f).head (by simpa using hne)) :: (segments.map f).tail := by
  cases segments with
  | nil => exact absurd rfl hne
  | cons s segments =>
    rw [List.head_cons] at hf
    simp only [List.head_cons, List.tail_cons, List.map_cons, hf]

/-- Decoding works inside the segments: no slash comes or goes. -/
theorem splitOnChar_decode (hp : WellEscaped p) :
    splitOnChar '/' (decodeUnreservedEscapes p) =
      (splitOnChar '/' p).map decodeUnreservedEscapes := by
  induction hp with
  | nil => rfl
  | @plain c p hc _ ih =>
    rw [decode_plain hc]
    by_cases hslash : c = '/'
    · subst hslash
      rw [splitOnChar_sep, splitOnChar_sep, ih, List.map_cons, decode_nil]
    · have hx : '/' ∉ [c] := by
        rw [List.mem_singleton]
        exact Ne.symm hslash
      have hleft := splitOnChar_append_of_not_mem hx (decodeUnreservedEscapes p)
      have hright := splitOnChar_append_of_not_mem hx p
      rw [List.singleton_append] at hleft hright
      have hmap := @map_cons_head_tail [c] _ (splitOnChar_ne_nil '/' p) [c]
        decodeUnreservedEscapes (decode_plain hc _)
      rw [hleft, hright, hmap]
      simp only [ih]
  | @escape h l hi lo p hh hl _ ih =>
    have hx : '/' ∉ ['%', h, l] := by
      simp only [List.mem_cons, List.not_mem_nil, or_false, not_or]
      exact ⟨by decide, (hexVal_ne_slash hh).symm, (hexVal_ne_slash hl).symm⟩
    have hright := splitOnChar_append_of_not_mem hx p
    simp only [List.cons_append, List.nil_append] at hright
    have hleft := splitOnChar_append_of_not_mem (slash_not_mem_decodeEscape hh hl)
      (decodeUnreservedEscapes p)
    have hmap := map_cons_head_tail (x := ['%', h, l]) (splitOnChar_ne_nil '/' p)
      decodeUnreservedEscapes (decode_escape hh hl _)
    simp only [List.cons_append, List.nil_append] at hmap
    rw [decode_escape hh hl, hleft, hright, hmap]
    simp only [ih]

end Decode

/-! ## Collapsing -/

section Collapse

/-- The collapse from a place on, given whether a slash has just been written. -/
def collapseFrom (afterSlash : Bool) : Str → Str
  | [] => []
  | c :: rest =>
    if c == '/' && afterSlash then collapseFrom true rest
    else c :: collapseFrom (c == '/') rest

theorem endsWith_slash_concat (out : Str) (c : Char) :
    endsWith (out ++ [c]) ['/'] = (c == '/') := by
  rw [Bool.eq_iff_iff, endsWith, List.isSuffixOf_iff_suffix, beq_iff_eq]
  constructor
  · rintro ⟨t, ht⟩
    exact (List.append_inj_right' ht rfl |> List.cons.inj).1.symm
  · rintro rfl
    exact List.suffix_append out ['/']

theorem foldl_collapse (path out : Str) :
    path.foldl (fun out c => if c == '/' && endsWith out ['/'] then out else out ++ [c]) out =
      out ++ collapseFrom (endsWith out ['/']) path := by
  induction path generalizing out with
  | nil => rw [List.foldl_nil, collapseFrom, List.append_nil]
  | cons c path ih =>
    rw [List.foldl_cons, ih, collapseFrom]
    split
    · rename_i h
      rw [Bool.and_eq_true] at h
      rw [h.2]
    · rw [endsWith_slash_concat, List.append_assoc, List.singleton_append]

theorem collapseEmptySegments_eq (path : Str) :
    collapseEmptySegments path = collapseFrom false path :=
  foldl_collapse path []

theorem collapseFrom_append (b : Bool) (x : Str) {y y' : Str}
    (h : ∀ b, collapseFrom b y = collapseFrom b y') :
    collapseFrom b (x ++ y) = collapseFrom b (x ++ y') := by
  induction x generalizing b with
  | nil => exact h b
  | cons c x ih =>
    rw [List.cons_append, List.cons_append, collapseFrom, collapseFrom, ih, ih]

theorem collapseFrom_slash_slash (b : Bool) (p : Str) :
    collapseFrom b ('/' :: '/' :: p) = collapseFrom b ('/' :: p) := by
  cases b with
  | true => rfl
  | false => rfl

/-- What the comparison sees of a path is the same for all its spellings. -/
theorem collapseFrom_respelled {p p' : Str} (h : Respelled p p') :
    ∀ b, collapseFrom b (decodeUnreservedEscapes p') = collapseFrom b (decodeUnreservedEscapes p) := by
  induction h with
  | nil =>
    intro b
    rfl
  | @plain c p p' hc _ ih =>
    intro b
    rw [decode_plain hc, decode_plain hc]
    exact collapseFrom_append b [c] ih
  | @escape c h l p p' hc hs _ ih =>
    intro b
    obtain ⟨hi, lo, hh, hl, hdecode⟩ := decodeEscape_spells hc hs
    rw [decode_escape hh hl, hdecode, decode_plain (ne_percent_of_isUnreserved hc)]
    exact collapseFrom_append b [c] ih
  | @unescape c h l p p' hc hs _ ih =>
    intro b
    obtain ⟨hi, lo, hh, hl, hdecode⟩ := decodeEscape_spells hc hs
    rw [decode_escape hh hl, hdecode, decode_plain (ne_percent_of_isUnreserved hc)]
    exact collapseFrom_append b [c] ih
  | recase hh hl hh' hl' _ ih =>
    intro b
    rw [decode_escape hh hl, decode_escape hh' hl', decodeEscape_eq hh hl, decodeEscape_eq hh' hl']
    exact collapseFrom_append b _ ih
  | slash _ ih =>
    intro b
    have hslash : '/' ≠ '%' := by decide
    rw [← ih b, decode_plain hslash, decode_plain hslash]
    exact collapseFrom_slash_slash b _

/-- Comparing paths is blind to how they are spelled, decoding twice is decoding once, and the
segments of a path are decoded one by one. -/
theorem respelled_path_compares_equal (p : Str) (hp : WellEscaped p) :
    (∀ p', Respelled p p' → collapseEmptySegments (decodeUnreservedEscapes p') =
        collapseEmptySegments (decodeUnreservedEscapes p)) ∧
      decodeUnreservedEscapes (decodeUnreservedEscapes p) = decodeUnreservedEscapes p ∧
        splitOnChar '/' (decodeUnreservedEscapes p) =
          (splitOnChar '/' p).map decodeUnreservedEscapes := by
  refine ⟨fun p' h => ?_, decode_idem hp, splitOnChar_decode hp⟩
  rw [collapseEmptySegments_eq, collapseEmptySegments_eq, collapseFrom_respelled h]

/-- `//%61dmin` is compared as `/admin`. -/
theorem escaped_admin_compares_equal :
    collapseEmptySegments (decodeUnreservedEscapes "//%61dmin".toList) =
      collapseEmptySegments (decodeUnreservedEscapes "/admin".toList) := by
  have hdmin : Respelled "dmin".toList "dmin".toList :=
    .plain (by decide) (.plain (by decide) (.plain (by decide) (.plain (by decide) .nil)))
  have hplain : WellEscaped "/admin".toList :=
    .plain (by decide) (.plain (by decide) (.plain (by decide) (.plain (by decide)
      (.plain (by decide) (.plain (by decide) .nil)))))
  exact (respelled_path_compares_equal "/admin".toList hplain).1 _
    (.slash (.plain (by decide) (.escape (by decide) ⟨6, 1, rfl, rfl, rfl⟩ hdmin)))

end Collapse

end GrokBuild.Permission
