import Mathlib.Data.List.DropRight
import Mathlib.Data.List.Chain
import Mathlib.Tactic.Common

/-!
# Byte slices of UTF-8 text

A `str` is its bytes. A slice is taken at byte offsets and panics off a character boundary;
here it is `none`. An offset next to an ASCII byte is a boundary in every encoded text.
-/

namespace GrokBuild.Text

abbrev Bytes := List UInt8

def encode (s : List Char) : Bytes := s.flatMap String.utf8EncodeChar

def isContinuation (b : UInt8) : Bool := 0x80 ≤ b && b < 0xC0

/-- `str::is_char_boundary`. The offset 0 of a text is one as well; no encoded text starts
with a continuation byte. -/
def isCharBoundary (text : Bytes) (k : ℕ) : Bool :=
  match text[k]? with
  | some b => !isContinuation b
  | none => k == text.length

/-- `&text[a..b]`. -/
def slice (text : Bytes) (a b : ℕ) : Option Bytes :=
  if a ≤ b ∧ isCharBoundary text a ∧ isCharBoundary text b then some ((text.take b).drop a)
  else none

/-- `&text[a..]`. -/
def sliceFrom (text : Bytes) (a : ℕ) : Option Bytes := slice text a text.length

def trimMatches (p : UInt8 → Bool) (text : Bytes) : Bytes := (text.dropWhile p).rdropWhile p

/-- The lines of a text with what ends them. -/
def byteLinesInclusive : Bytes → List Bytes
  | [] => []
  | c :: t =>
    if c == 0x0a then [c] :: byteLinesInclusive t
    else
      match byteLinesInclusive t with
      | [] => [[c]]
      | line :: lines => (c :: line) :: lines

/-- `str::lines`: each without its `\n` or `\r\n`. -/
def byteLines (text : Bytes) : List Bytes :=
  (byteLinesInclusive text).map fun line =>
    if [0x0d, 0x0a].isSuffixOf line then line.take (line.length - 2)
    else if [0x0a].isSuffixOf line then line.take (line.length - 1)
    else line

/-! ## Boundaries of encoded text -/

/-- The text starts at a character boundary. -/
def StartsChar (text : Bytes) : Prop := ∀ b ∈ text.head?, isContinuation b = false

/-- No continuation byte stands first or after an ASCII byte. -/
structure WellEncoded (text : Bytes) : Prop where
  starts : StartsChar text
  chain : text.IsChain fun a b => a < 0x80 → isContinuation b = false

section Boundary

variable {text x : Bytes} {a b k : ℕ}

theorem isCharBoundary_zero : isCharBoundary text 0 = true ↔ StartsChar text := by
  cases text with
  | nil => simp [isCharBoundary, StartsChar]
  | cons c t => simp [isCharBoundary, StartsChar]

theorem isCharBoundary_le (h : isCharBoundary text k = true) : k ≤ text.length := by
  rw [isCharBoundary] at h
  split at h
  · next hk =>
    obtain ⟨hlt, -⟩ := List.getElem?_eq_some_iff.1 hk
    omega
  · simp only [beq_iff_eq] at h
    omega

theorem isCharBoundary_length : isCharBoundary text text.length = true := by
  simp [isCharBoundary]

theorem isCharBoundary_iff_startsChar_drop (hk : k ≤ text.length) :
    isCharBoundary text k = true ↔ StartsChar (text.drop k) := by
  rw [isCharBoundary, StartsChar, List.head?_drop]
  cases h : text[k]? with
  | some b => simp
  | none =>
    have hlen := List.getElem?_eq_none_iff.1 h
    simp
    omega

theorem isCharBoundary_append (hx : StartsChar x) (h : isCharBoundary text k = true) :
    isCharBoundary (text ++ x) k = true := by
  have hk := isCharBoundary_le h
  rw [isCharBoundary_iff_startsChar_drop hk] at h
  rw [isCharBoundary_iff_startsChar_drop (by simp; omega), List.drop_append_of_le_length hk]
  cases hd : text.drop k with
  | nil => exact hx
  | cons c t =>
    rw [hd] at h
    exact h

theorem slice_eq_some_iff {out : Bytes} :
    slice text a b = some out ↔ (a ≤ b ∧ isCharBoundary text a = true ∧
      isCharBoundary text b = true) ∧ (text.take b).drop a = out := by
  simp [slice]

theorem slice_append {out : Bytes} (hx : StartsChar x) (h : slice text a b = some out) :
    slice (text ++ x) a b = some out := by
  obtain ⟨⟨hab, ha, hb⟩, rfl⟩ := slice_eq_some_iff.1 h
  rw [slice_eq_some_iff]
  refine ⟨⟨hab, isCharBoundary_append hx ha, isCharBoundary_append hx hb⟩, ?_⟩
  rw [List.take_append_of_le_length (isCharBoundary_le hb)]

/-- A slice from the start that reaches into what was appended. -/
theorem slice_append_length (ht : StartsChar text) (hx : StartsChar x) (k : ℕ) :
    slice (text ++ x) 0 (text.length + k) = (slice x 0 k).map (text ++ ·) := by
  have h0 : isCharBoundary (text ++ x) 0 = true :=
    isCharBoundary_append hx (isCharBoundary_zero.2 ht)
  have hk : isCharBoundary (text ++ x) (text.length + k) = isCharBoundary x k := by
    simp only [isCharBoundary, List.getElem?_append_right (Nat.le_add_right _ _),
      Nat.add_sub_cancel_left, List.length_append, Nat.add_left_cancel_iff, beq_eq_decide]
  have hx0 : isCharBoundary x 0 = true := isCharBoundary_zero.2 hx
  simp only [slice, h0, hk, hx0, Nat.zero_le, List.drop_zero]
  split
  · simp [List.take_append, List.take_of_length_le]
  · rfl

end Boundary

section WellEncoded

variable {text x : Bytes} {c : UInt8} {k : ℕ}

theorem WellEncoded.nil : WellEncoded [] := ⟨by simp [StartsChar], List.isChain_nil⟩

theorem not_isContinuation_of_ascii (h : c < 0x80) : isContinuation c = false := by
  simp only [isContinuation, Bool.and_eq_false_iff, decide_eq_false_iff_not]
  exact Or.inl (UInt8.not_le.2 h)

/-- Between an ASCII byte and what follows there is a boundary. -/
theorem WellEncoded.of_cons_ascii {t : Bytes} (h : WellEncoded (c :: t)) (hc : c < 0x80) :
    WellEncoded t := by
  have hchain := List.isChain_cons.1 h.chain
  exact ⟨fun b hb => hchain.1 b hb hc, hchain.2⟩

/-- In front of an ASCII byte there is a boundary. -/
theorem WellEncoded.of_append_cons_ascii {p t : Bytes} (h : WellEncoded (p ++ c :: t))
    (hc : c < 0x80) : WellEncoded (c :: t) := by
  refine ⟨?_, (List.isChain_append.1 h.chain).2.1⟩
  simp only [StartsChar, List.head?_cons, Option.mem_def, Option.some.injEq, forall_eq']
  exact not_isContinuation_of_ascii hc

theorem WellEncoded.of_append_ascii {tok t : Bytes} (h : WellEncoded (tok ++ t))
    (htok : ∀ b ∈ tok, b < 0x80) : WellEncoded t := by
  induction tok with
  | nil => exact h
  | cons c tok ih =>
    apply ih (h.of_cons_ascii (htok c List.mem_cons_self))
    exact fun b hb => htok b (List.mem_cons_of_mem c hb)

/-- Both ends of the slice stand where well encoded text starts. -/
theorem slice_eq_some_of_wellEncoded {p q t : Bytes} (hq : StartsChar (q ++ t))
    (ht : StartsChar t) : slice (p ++ q ++ t) p.length (p.length + q.length) = some q := by
  rw [slice_eq_some_iff]
  have hlen : p.length + q.length = (p ++ q).length := List.length_append.symm
  refine ⟨⟨Nat.le_add_right _ _, ?_, ?_⟩, ?_⟩
  · rw [isCharBoundary_iff_startsChar_drop (by simp)]
    simpa using hq
  · rw [isCharBoundary_iff_startsChar_drop (by simp), hlen, List.drop_left]
    exact ht
  · rw [hlen, List.take_left, List.drop_left]

theorem WellEncoded.append (h : WellEncoded text) (hx : WellEncoded x) :
    WellEncoded (text ++ x) := by
  refine ⟨?_, ?_⟩
  · cases text with
    | nil => exact hx.starts
    | cons c t => exact h.starts
  · rw [List.isChain_append]
    exact ⟨h.chain, hx.chain, fun a _ b hb _ => hx.starts b hb⟩

theorem not_ascii_ofNat {n : ℕ} (h : 0x80 ≤ n) (hn : n < 256) : ¬UInt8.ofNat n < 0x80 := by
  rw [UInt8.lt_iff_toNat_lt, UInt8.toNat_ofNat_of_lt' hn]
  exact Nat.not_lt.2 h

theorem not_isContinuation_ofNat {n : ℕ} (h : 0xC0 ≤ n) (hn : n < 256) :
    isContinuation (UInt8.ofNat n) = false := by
  simp only [isContinuation, Bool.and_eq_false_iff, decide_eq_false_iff_not,
    UInt8.lt_iff_toNat_lt, UInt8.toNat_ofNat_of_lt' hn]
  exact Or.inr (Nat.not_lt.2 h)

/-- A character of several bytes has no ASCII byte. -/
theorem wellEncoded_of_multibyte {c : UInt8} {t : Bytes} (hc : isContinuation c = false)
    (h : ∀ b ∈ c :: t, ¬b < 0x80) : WellEncoded (c :: t) := by
  refine ⟨by simpa [StartsChar] using hc, ?_⟩
  apply List.Pairwise.isChain
  rw [List.pairwise_iff_forall_sublist]
  intro a b hab ha
  exact absurd ha (h a (hab.subset List.mem_cons_self))

theorem wellEncoded_utf8EncodeChar (c : Char) : WellEncoded (String.utf8EncodeChar c) := by
  rw [String.utf8EncodeChar]
  split
  · next h =>
    refine ⟨?_, List.isChain_singleton _⟩
    simp only [StartsChar, List.head?_cons, Option.mem_def, Option.some.injEq, forall_eq']
    apply not_isContinuation_of_ascii
    rw [UInt8.lt_iff_toNat_lt, UInt8.toNat_ofNat_of_lt' (Nat.lt_of_le_of_lt h (by decide))]
    exact Nat.lt_succ_of_le h
  split
  · apply wellEncoded_of_multibyte (not_isContinuation_ofNat (by omega) (by omega))
    simp only [List.forall_mem_cons, List.not_mem_nil, false_imp_iff, implies_true, and_true]
    exact ⟨not_ascii_ofNat (by omega) (by omega), not_ascii_ofNat (by omega) (by omega)⟩
  split
  · apply wellEncoded_of_multibyte (not_isContinuation_ofNat (by omega) (by omega))
    simp only [List.forall_mem_cons, List.not_mem_nil, false_imp_iff, implies_true, and_true]
    exact ⟨not_ascii_ofNat (by omega) (by omega), not_ascii_ofNat (by omega) (by omega),
      not_ascii_ofNat (by omega) (by omega)⟩
  · apply wellEncoded_of_multibyte (not_isContinuation_ofNat (by omega) (by omega))
    simp only [List.forall_mem_cons, List.not_mem_nil, false_imp_iff, implies_true, and_true]
    exact ⟨not_ascii_ofNat (by omega) (by omega), not_ascii_ofNat (by omega) (by omega),
      not_ascii_ofNat (by omega) (by omega), not_ascii_ofNat (by omega) (by omega)⟩

theorem wellEncoded_encode (s : List Char) : WellEncoded (encode s) := by
  induction s with
  | nil => exact WellEncoded.nil
  | cons c s ih =>
    rw [encode, List.flatMap_cons]
    exact (wellEncoded_utf8EncodeChar c).append ih

theorem encode_flatten (chunks : List (List Char)) :
    encode chunks.flatten = (chunks.map encode).flatten := by
  induction chunks with
  | nil => rfl
  | cons c chunks ih =>
    rw [List.flatten_cons, List.map_cons, List.flatten_cons, ← ih]
    exact List.flatMap_append

end WellEncoded

end GrokBuild.Text
