import GrokBuild.Text.Str
import GrokBuild.Text.Utf8

/-!
# Decoding UTF-8

`str::from_utf8` as the partial inverse of the encoding. ASCII bytes stand for themselves, so a
text can be cut at one, or trimmed of them, before it is decoded or after.
-/

namespace GrokBuild.Text

/-- `str::from_utf8`. -/
def fromUtf8 (bytes : Bytes) : Option Str := bytes.toByteArray.utf8Decode?.map Array.toList

theorem encode_append (s t : Str) : encode (s ++ t) = encode s ++ encode t := List.flatMap_append

theorem toByteArray_encode (s : Str) : (encode s).toByteArray = s.utf8Encode := rfl

theorem toByteArray_inj {x y : Bytes} (h : x.toByteArray = y.toByteArray) : x = y := by
  have hdata := congrArg (fun b => b.data.toList) h
  simpa using hdata

theorem fromUtf8_eq_some_iff {bytes : Bytes} {s : Str} :
    fromUtf8 bytes = some s ↔ bytes = encode s := by
  constructor
  · intro h
    obtain ⟨chars, hchars, rfl⟩ := Option.map_eq_some_iff.1 h
    have hsome : bytes.toByteArray.utf8Decode?.isSome := by rw [hchars]; rfl
    have hget := ByteArray.utf8Encode_get_utf8Decode? (b := bytes.toByteArray) (h := hsome)
    simp only [hchars, Option.get_some] at hget
    rw [← toByteArray_encode] at hget
    exact (toByteArray_inj hget).symm
  · rintro rfl
    rw [fromUtf8, toByteArray_encode, List.utf8Decode?_utf8Encode]
    simp

theorem fromUtf8_encode (s : Str) : fromUtf8 (encode s) = some s := fromUtf8_eq_some_iff.2 rfl

section Ascii

variable {b : UInt8} {c : Char} {bytes : Bytes}

/-- The character of an ASCII byte. -/
def asciiChar (b : UInt8) : Char := Char.ofNat b.toNat

/-- An ASCII byte in the encoding of a character is all of it. -/
theorem utf8EncodeChar_of_ascii (hb : b < 0x80) (h : b ∈ String.utf8EncodeChar c) :
    String.utf8EncodeChar c = [b] ∧ c = asciiChar b := by
  rw [String.utf8EncodeChar] at h ⊢
  split at h
  · next hle =>
    rw [if_pos hle]
    rw [List.mem_singleton] at h
    subst h
    refine ⟨rfl, ?_⟩
    have hnat : (UInt8.ofNat c.val.toNat).toNat = c.toNat :=
      UInt8.toNat_ofNat_of_lt' (Nat.lt_of_le_of_lt hle (by decide))
    rw [asciiChar, hnat, Char.ofNat_toNat]
  · exfalso
    have hnot : ∀ n, 0x80 ≤ n → n < 256 → b ≠ UInt8.ofNat n := by
      rintro n hn hlt rfl
      exact not_ascii_ofNat hn hlt hb
    split at h
    · simp only [List.mem_cons, List.not_mem_nil, or_false] at h
      rcases h with h | h
      · exact hnot _ (by omega) (by omega) h
      · exact hnot _ (by omega) (by omega) h
    split at h
    · simp only [List.mem_cons, List.not_mem_nil, or_false] at h
      rcases h with h | h | h
      · exact hnot _ (by omega) (by omega) h
      · exact hnot _ (by omega) (by omega) h
      · exact hnot _ (by omega) (by omega) h
    · simp only [List.mem_cons, List.not_mem_nil, or_false] at h
      rcases h with h | h | h | h
      · exact hnot _ (by omega) (by omega) h
      · exact hnot _ (by omega) (by omega) h
      · exact hnot _ (by omega) (by omega) h
      · exact hnot _ (by omega) (by omega) h

theorem utf8EncodeChar_asciiChar (hb : b < 0x80) : String.utf8EncodeChar (asciiChar b) = [b] := by
  have hlt : b.toNat < 0x80 := hb
  have hnat : (asciiChar b).toNat = b.toNat := by
    have hvalid : b.toNat.isValidChar := Or.inl (by omega)
    rw [asciiChar, Char.ofNat, dif_pos hvalid]
    rfl
  have hle : (asciiChar b).val.toNat ≤ 0x7f := by
    change (asciiChar b).toNat ≤ 0x7f
    omega
  rw [String.utf8EncodeChar, if_pos hle]
  congr 1
  change UInt8.ofNat (asciiChar b).toNat = b
  rw [hnat, UInt8.ofNat_toNat]

/-- An encoded text is cut at its ASCII bytes. -/
theorem encode_eq_append_cons {r : Str} {x y : Bytes} (hb : b < 0x80)
    (h : encode r = x ++ b :: y) :
    ∃ s t, r = s ++ asciiChar b :: t ∧ x = encode s ∧ y = encode t := by
  induction r generalizing x with
  | nil => simp [encode] at h
  | cons c r ih =>
    rw [encode, List.flatMap_cons] at h
    change String.utf8EncodeChar c ++ encode r = _ at h
    rcases List.append_eq_append_iff.1 h with ⟨x', rfl, hrest⟩ | ⟨z, hc, hrest⟩
    · obtain ⟨s, t, rfl, rfl, rfl⟩ := ih hrest
      exact ⟨c :: s, t, rfl, rfl, rfl⟩
    · cases z with
      | nil =>
        -- the character ends where the byte stands
        rw [List.append_nil] at hc
        obtain ⟨s, t, hr, hx, hy⟩ := ih (x := []) (by simpa using hrest.symm)
        subst hr hy
        exact ⟨c :: s, t, rfl, by rw [← hc, encode, List.flatMap_cons, ← encode, ← hx, List.append_nil], rfl⟩
      | cons b' z =>
        rw [List.cons_append, List.cons.injEq] at hrest
        obtain ⟨rfl, hrest⟩ := hrest
        obtain ⟨hsingle, hchar⟩ := utf8EncodeChar_of_ascii hb (by rw [hc]; simp)
        have hx : x = [] ∧ z = [] := by
          have hlen : (String.utf8EncodeChar c).length = (x ++ b :: z).length := by rw [hc]
          rw [hsingle, List.length_singleton, List.length_append, List.length_cons] at hlen
          exact ⟨List.length_eq_zero_iff.1 (by omega), List.length_eq_zero_iff.1 (by omega)⟩
        obtain ⟨rfl, rfl⟩ := hx
        exact ⟨[], r, by rw [hchar]; rfl, rfl, by simpa using hrest⟩

theorem fromUtf8_append_cons (hb : b < 0x80) (x y : Bytes) :
    fromUtf8 (x ++ b :: y) =
      (fromUtf8 x).bind fun s => (fromUtf8 y).map fun t => s ++ asciiChar b :: t := by
  ext r
  rw [fromUtf8_eq_some_iff, Option.bind_eq_some_iff]
  constructor
  · intro h
    obtain ⟨s, t, rfl, rfl, rfl⟩ := encode_eq_append_cons hb h.symm
    exact ⟨s, fromUtf8_encode s, by rw [fromUtf8_encode]; rfl⟩
  · rintro ⟨s, hs, h⟩
    obtain ⟨t, ht, rfl⟩ := Option.map_eq_some_iff.1 h
    rw [fromUtf8_eq_some_iff.1 hs, fromUtf8_eq_some_iff.1 ht, encode_append]
    congr 1
    change _ = String.utf8EncodeChar (asciiChar b) ++ encode t
    rw [utf8EncodeChar_asciiChar hb]
    rfl

theorem fromUtf8_nil : fromUtf8 [] = some [] := fromUtf8_encode []

theorem fromUtf8_cons (hb : b < 0x80) (bytes : Bytes) :
    fromUtf8 (b :: bytes) = (fromUtf8 bytes).map (asciiChar b :: ·) := by
  have h := fromUtf8_append_cons hb [] bytes
  rwa [fromUtf8_nil, Option.bind_some] at h

theorem fromUtf8_concat (hb : b < 0x80) (bytes : Bytes) :
    fromUtf8 (bytes ++ [b]) = (fromUtf8 bytes).map (· ++ [asciiChar b]) := by
  rw [fromUtf8_append_cons hb, fromUtf8_nil]
  cases fromUtf8 bytes <;> rfl

end Ascii

section Trim

variable {p : UInt8 → Bool} {q : Char → Bool}

/-- A test for ASCII bytes that is the same on their characters. -/
structure AsciiTest (p : UInt8 → Bool) (q : Char → Bool) : Prop where
  ascii : ∀ b, p b = true → b < 0x80
  char : ∀ b, p b = true → q (asciiChar b) = true
  byte : ∀ c, q c = true → ∃ b, p b = true ∧ c = asciiChar b

theorem AsciiTest.encode (h : AsciiTest p q) {c : Char} (hc : q c = true) :
    ∃ b, p b = true ∧ String.utf8EncodeChar c = [b] := by
  obtain ⟨b, hb, rfl⟩ := h.byte c hc
  exact ⟨b, hb, utf8EncodeChar_asciiChar (h.ascii b hb)⟩

theorem fromUtf8_dropWhile (h : AsciiTest p q) (bytes : Bytes) :
    fromUtf8 (bytes.dropWhile p) = (fromUtf8 bytes).map (List.dropWhile q) := by
  induction bytes with
  | nil => rw [List.dropWhile_nil, fromUtf8_nil]; rfl
  | cons b bytes ih =>
    cases hb : p b with
    | true =>
      rw [List.dropWhile_cons_of_pos hb, ih, fromUtf8_cons (h.ascii b hb), Option.map_map]
      congr 1
      funext s
      exact (List.dropWhile_cons_of_pos (h.char b hb)).symm
    | false =>
      rw [List.dropWhile_cons_of_neg (by simp [hb])]
      cases hs : fromUtf8 (b :: bytes) with
      | none => rfl
      | some s =>
        rw [Option.map_some]
        rw [fromUtf8_eq_some_iff] at hs
        cases s with
        | nil => rfl
        | cons c s =>
          have hc : q c ≠ true := by
            intro hc
            obtain ⟨b', hb', hencode⟩ := h.encode hc
            rw [Text.encode, List.flatMap_cons, hencode, List.cons_append, List.cons.injEq] at hs
            rw [hs.1, hb'] at hb
            cases hb
          rw [List.dropWhile_cons_of_neg hc]

theorem fromUtf8_rdropWhile (h : AsciiTest p q) (bytes : Bytes) :
    fromUtf8 (bytes.rdropWhile p) = (fromUtf8 bytes).map (List.rdropWhile q) := by
  induction bytes using List.reverseRecOn with
  | nil => rw [List.rdropWhile_nil, fromUtf8_nil]; rfl
  | append_singleton bytes b ih =>
    cases hb : p b with
    | true =>
      rw [List.rdropWhile_concat_pos _ _ _ hb, ih, fromUtf8_concat (h.ascii b hb), Option.map_map]
      congr 1
      funext s
      exact (List.rdropWhile_concat_pos _ _ _ (h.char b hb)).symm
    | false =>
      rw [List.rdropWhile_concat_neg _ _ _ (by simp [hb])]
      cases hs : fromUtf8 (bytes ++ [b]) with
      | none => rfl
      | some s =>
        rw [Option.map_some]
        rw [fromUtf8_eq_some_iff] at hs
        rcases List.eq_nil_or_concat s with rfl | ⟨s, c, rfl⟩
        · rfl
        · rw [List.concat_eq_append] at hs ⊢
          have hc : ¬q c = true := by
            intro hc
            obtain ⟨b', hb', hencode⟩ := h.encode hc
            have hlast : Text.encode [c] = [b'] := by simp [Text.encode, hencode]
            rw [encode_append, hlast] at hs
            obtain ⟨-, heq⟩ := List.append_inj' hs rfl
            rw [List.cons.injEq] at heq
            rw [heq.1, hb'] at hb
            cases hb
          rw [List.rdropWhile_concat_neg _ _ _ hc]

end Trim

end GrokBuild.Text
