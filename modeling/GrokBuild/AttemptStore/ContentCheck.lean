import Mathlib
import GrokBuild.AttemptStore.ScanSafe
import GrokBuild.Lib.JsonGrammar
import GrokBuild.Text.Utf8Decode

/-!
# The scan agrees with the grammar

On a JSON text each scanner stops where the grammar says, so the check sees the members of the
object and nothing inside of them.
-/

namespace GrokBuild.AttemptStore

open Text JsonGrammar

variable {ε : Type} {b e : UInt8} {pre post text value space : Text.Bytes} {fuel depth : ℕ}
  {opening closing : UInt8}

/-! ## Looking at an index -/

theorem byteAt_append : (byteAt (pre ++ b :: post) pre.length : Scan ε UInt8) = .ok b := by
  rw [byteAt, List.getElem?_append_right (Nat.le_refl _), Nat.sub_self]
  rfl

theorem range_left : (range (pre ++ post) 0 pre.length : Scan ε Text.Bytes) = .ok pre := by
  rw [range, if_pos ⟨Nat.zero_le _, by rw [List.length_append]; exact Nat.le_add_right _ _⟩,
    List.take_left, List.drop_zero]

theorem range_right :
    (range (pre ++ post) pre.length (pre ++ post).length : Scan ε Text.Bytes) = .ok post := by
  rw [range, if_pos ⟨by rw [List.length_append]; exact Nat.le_add_right _ _, Nat.le_refl _⟩,
    List.take_length, List.drop_left]

theorem length_lt_append : pre.length < (pre ++ b :: post).length := by
  rw [List.length_append, List.length_cons]
  omega

theorem append_cons_eq : pre ++ b :: post = (pre ++ [b]) ++ post :=
  (List.append_assoc pre [b] post).symm

theorem length_concat : (pre ++ [b]).length = pre.length + 1 := List.length_append

theorem stripBytes_append (pre post : Text.Bytes) : stripBytes (pre ++ post) pre = some post := by
  rw [stripBytes, if_pos (List.prefix_append pre post), List.drop_left]

/-! ## Strings -/

theorem stringLoop_plain (h : 0x20 ≤ b ∧ b ≠ quote ∧ b ≠ backslash) :
    jsonStringLoop (fuel + 1) (pre ++ b :: post) pre.length =
      jsonStringLoop fuel (pre ++ b :: post) (pre.length + 1) := by
  rw [jsonStringLoop, if_pos length_lt_append, byteAt_append]
  simp only [bind, Except.bind, if_neg h.2.1, if_neg h.2.2, if_neg (UInt8.not_lt.mpr h.1)]

theorem stringLoop_escape (h : e ≠ letterU) :
    jsonStringLoop (fuel + 1) (pre ++ backslash :: e :: post) pre.length =
      jsonStringLoop fuel (pre ++ backslash :: e :: post) (pre.length + 2) := by
  have hnext : (byteAt (pre ++ backslash :: e :: post) (pre.length + 1) : Scan Unit UInt8) =
      .ok e := by
    rw [append_cons_eq, ← length_concat, byteAt_append]
  have hmore : ¬ (pre ++ backslash :: e :: post).length ≤ pre.length + 1 := by
    rw [List.length_append, List.length_cons, List.length_cons]
    omega
  rw [jsonStringLoop, if_pos length_lt_append, byteAt_append]
  simp only [bind, Except.bind, hnext, if_neg hmore, if_neg h]
  rfl

theorem stringLoop_unicode :
    jsonStringLoop (fuel + 1) (pre ++ backslash :: letterU :: post) pre.length =
      jsonStringLoop fuel (pre ++ backslash :: letterU :: post) (pre.length + 6) := by
  have hnext : (byteAt (pre ++ backslash :: letterU :: post) (pre.length + 1) : Scan Unit UInt8) =
      .ok letterU := by
    rw [append_cons_eq, ← length_concat, byteAt_append]
  have hmore : ¬ (pre ++ backslash :: letterU :: post).length ≤ pre.length + 1 := by
    rw [List.length_append, List.length_cons, List.length_cons]
    omega
  rw [jsonStringLoop, if_pos length_lt_append, byteAt_append]
  simp only [bind, Except.bind, hnext, if_neg hmore]
  rfl

theorem stringLoop_quote :
    jsonStringLoop (fuel + 1) (pre ++ quote :: post) pre.length = .ok (pre, post) := by
  have hright : (range (pre ++ quote :: post) (pre.length + 1) (pre ++ quote :: post).length :
      Scan Unit Text.Bytes) = .ok post := by
    rw [append_cons_eq, ← length_concat, range_right]
  rw [jsonStringLoop, if_pos length_lt_append, byteAt_append]
  simp only [bind, Except.bind, range_left, hright]
  rfl

theorem shortEscape_ne_letterU {mapped : UInt8} (h : JsonGrammar.shortEscape b = some mapped) :
    b ≠ letterU := by
  rintro rfl
  have hnone : JsonGrammar.shortEscape letterU = none := by decide
  rw [hnone] at h
  cases h

/-- The scan steps over the items of a string to its closing quote. -/
theorem jsonStringLoop_items (items : List StringItem) (pre post : Text.Bytes)
    (hfuel : (itemsText items ++ quote :: post).length < fuel) :
    jsonStringLoop fuel (pre ++ (itemsText items ++ quote :: post)) pre.length =
      .ok (pre ++ itemsText items, post) := by
  induction items generalizing pre fuel with
  | nil =>
    obtain ⟨fuel, rfl⟩ := Nat.exists_eq_add_of_lt hfuel
    rw [itemsText, List.flatMap_nil, List.nil_append, List.append_nil]
    exact stringLoop_quote
  | cons item items ih =>
    rw [itemsText, List.flatMap_cons, ← itemsText] at hfuel ⊢
    simp only [List.length_append, List.length_cons] at hfuel ih
    obtain ⟨fuel, rfl⟩ := Nat.exists_eq_add_of_lt (Nat.zero_lt_of_lt hfuel)
    rw [Nat.zero_add]
    cases item with
    | plain b h =>
      have hstep := @ih fuel (pre ++ [b]) (by simp [StringItem.text] at hfuel; omega)
      rw [length_concat] at hstep
      simp only [StringItem.text, List.append_assoc, List.cons_append, List.nil_append] at hstep ⊢
      rw [stringLoop_plain h, hstep]
    | short b mapped h =>
      have hstep := @ih fuel (pre ++ [backslash, b])
        (by simp [StringItem.text] at hfuel; omega)
      rw [List.length_append] at hstep
      simp only [StringItem.text, List.append_assoc, List.cons_append, List.nil_append] at hstep ⊢
      rw [stringLoop_escape (shortEscape_ne_letterU h)]
      exact hstep
    | unicode d₁ d₂ d₃ d₄ =>
      have hstep := @ih fuel
        (pre ++ [backslash, letterU, d₁.byte, d₂.byte, d₃.byte, d₄.byte])
        (by simp [StringItem.text] at hfuel; omega)
      rw [List.length_append] at hstep
      simp only [StringItem.text, List.append_assoc, List.cons_append, List.nil_append] at hstep ⊢
      rw [stringLoop_unicode]
      exact hstep

theorem jsonString_stringText (items : List StringItem) (post : Text.Bytes) :
    jsonString (stringText items ++ post) = .ok (itemsText items, post) := by
  have htext : stringText items ++ post = [quote] ++ (itemsText items ++ quote :: post) := by
    rw [stringText, List.cons_append, List.append_assoc]
    rfl
  rw [htext, jsonString, stripBytes_append]
  exact jsonStringLoop_items items [] post (Nat.lt_succ_self _)

/-! ## Containers -/

/-- The two kinds of brackets. -/
def IsPair (opening closing : UInt8) : Prop :=
  (opening = openBrace ∧ closing = closeBrace) ∨ (opening = openBracket ∧ closing = closeBracket)

theorem container_open :
    jsonContainerLoop (fuel + 1) (pre ++ opening :: post) opening closing depth pre.length =
      jsonContainerLoop fuel (pre ++ opening :: post) opening closing (depth + 1)
        (pre.length + 1) := by
  rw [jsonContainerLoop, if_pos length_lt_append, byteAt_append]
  simp only [bind, Except.bind, if_true]

theorem IsPair.ne (h : IsPair opening closing) : closing ≠ opening := by
  obtain ⟨rfl, rfl⟩ | ⟨rfl, rfl⟩ := h
  · decide
  · decide

theorem container_close (h : IsPair opening closing) (hdepth : 0 < depth) :
    jsonContainerLoop (fuel + 1) (pre ++ closing :: post) opening closing (depth + 1) pre.length =
      jsonContainerLoop fuel (pre ++ closing :: post) opening closing depth (pre.length + 1) := by
  rw [jsonContainerLoop, if_pos length_lt_append, byteAt_append]
  simp only [bind, Except.bind, if_neg h.ne, if_true, if_neg (Nat.succ_ne_zero depth),
    Nat.add_sub_cancel, if_neg hdepth.ne']

theorem container_end (h : IsPair opening closing) :
    jsonContainerLoop (fuel + 1) (pre ++ closing :: post) opening closing 1 pre.length =
      .ok (pre ++ [closing], post) := by
  have hleft : (range (pre ++ closing :: post) 0 (pre.length + 1) : Scan Unit Text.Bytes) =
      .ok (pre ++ [closing]) := by
    rw [append_cons_eq, ← length_concat, range_left]
  have hright : (range (pre ++ closing :: post) (pre.length + 1) (pre ++ closing :: post).length :
      Scan Unit Text.Bytes) = .ok post := by
    rw [append_cons_eq, ← length_concat, range_right]
  rw [jsonContainerLoop, if_pos length_lt_append, byteAt_append]
  simp only [bind, Except.bind, if_neg h.ne, if_true, if_neg Nat.one_ne_zero, Nat.sub_self, hleft,
    hright]
  rfl

theorem container_skip (hopen : b ≠ opening) (hclose : b ≠ closing) (hquote : b ≠ quote) :
    jsonContainerLoop (fuel + 1) (pre ++ b :: post) opening closing depth pre.length =
      jsonContainerLoop fuel (pre ++ b :: post) opening closing depth (pre.length + 1) := by
  rw [jsonContainerLoop, if_pos length_lt_append, byteAt_append]
  simp only [bind, Except.bind, if_neg hopen, if_neg hclose, if_neg hquote]

theorem IsPair.ne_quote (h : IsPair opening closing) : quote ≠ opening ∧ quote ≠ closing := by
  obtain ⟨rfl, rfl⟩ | ⟨rfl, rfl⟩ := h
  · decide
  · decide

theorem container_string (h : IsPair opening closing) (items : List StringItem) :
    jsonContainerLoop (fuel + 1) (pre ++ (stringText items ++ post)) opening closing depth
        pre.length =
      jsonContainerLoop fuel (pre ++ (stringText items ++ post)) opening closing depth
        (pre ++ stringText items).length := by
  have hright : (range (pre ++ (stringText items ++ post)) pre.length
      (pre ++ (stringText items ++ post)).length : Scan Unit Text.Bytes) =
        .ok (stringText items ++ post) := range_right
  have hcons : pre ++ (stringText items ++ post) =
      pre ++ quote :: (itemsText items ++ [quote] ++ post) := rfl
  have hrest : (pre ++ (stringText items ++ post)).length - post.length =
      (pre ++ stringText items).length := by
    simp only [List.length_append]
    omega
  have hle : post.length ≤ (pre ++ (stringText items ++ post)).length := by
    simp only [List.length_append]
    omega
  have hbyte : (byteAt (pre ++ (stringText items ++ post)) pre.length : Scan Unit UInt8) =
      .ok quote := by
    rw [hcons, byteAt_append]
  have hlt : pre.length < (pre ++ (stringText items ++ post)).length := by
    rw [hcons]
    exact length_lt_append
  rw [jsonContainerLoop, if_pos hlt, hbyte]
  simp only [bind, Except.bind, if_neg h.ne_quote.1, if_neg h.ne_quote.2, if_true, hright,
    jsonString_stringText, if_pos hle, hrest]

/-- Inside of a container the scan goes over a text and stays at its depth. -/
def Passes (opening closing : UInt8) (text : Text.Bytes) : Prop :=
  ∀ (pre post : Text.Bytes) (depth fuel : ℕ), 0 < depth → (text ++ post).length < fuel →
    ∃ fuel', post.length < fuel' ∧
      jsonContainerLoop fuel (pre ++ (text ++ post)) opening closing depth pre.length =
        jsonContainerLoop fuel' (pre ++ (text ++ post)) opening closing depth (pre ++ text).length

theorem Passes.append {text₁ text₂ : Text.Bytes} (h₁ : Passes opening closing text₁)
    (h₂ : Passes opening closing text₂) : Passes opening closing (text₁ ++ text₂) := by
  intro pre post depth fuel hdepth hfuel
  rw [List.append_assoc] at hfuel ⊢
  obtain ⟨fuel₁, hfuel₁, hrun₁⟩ := h₁ pre (text₂ ++ post) depth fuel hdepth hfuel
  obtain ⟨fuel₂, hfuel₂, hrun₂⟩ := h₂ (pre ++ text₁) post depth fuel₁ hdepth hfuel₁
  refine ⟨fuel₂, hfuel₂, ?_⟩
  rw [List.append_assoc] at hrun₂
  rw [hrun₁, hrun₂, List.append_assoc]

theorem passes_nil : Passes opening closing [] := by
  intro pre post depth fuel _ hfuel
  exact ⟨fuel, hfuel, by rw [List.append_nil]⟩

/-- A byte that is no bracket of the kind and no quote. -/
theorem passes_byte (hopen : b ≠ opening) (hclose : b ≠ closing) (hquote : b ≠ quote) :
    Passes opening closing [b] := by
  intro pre post depth fuel _ hfuel
  obtain ⟨fuel, rfl⟩ := Nat.exists_eq_add_of_lt (Nat.zero_lt_of_lt hfuel)
  rw [List.length_append, List.length_singleton] at hfuel
  refine ⟨fuel, by omega, ?_⟩
  rw [Nat.zero_add, List.singleton_append, container_skip hopen hclose hquote, length_concat]

theorem passes_bytes (h : ∀ b ∈ text, b ≠ opening ∧ b ≠ closing ∧ b ≠ quote) :
    Passes opening closing text := by
  induction text with
  | nil => exact passes_nil
  | cons b text ih =>
    obtain ⟨hb, htext⟩ := List.forall_mem_cons.mp h
    exact (passes_byte hb.1 hb.2.1 hb.2.2).append (ih htext)

theorem passes_string (h : IsPair opening closing) (items : List StringItem) :
    Passes opening closing (stringText items) := by
  intro pre post depth fuel _ hfuel
  obtain ⟨fuel, rfl⟩ := Nat.exists_eq_add_of_lt (Nat.zero_lt_of_lt hfuel)
  rw [List.length_append, stringText, List.length_cons] at hfuel
  refine ⟨fuel, by omega, ?_⟩
  rw [Nat.zero_add, container_string h]

/-- A container of the same kind goes one deeper and comes back. -/
theorem passes_nested (h : IsPair opening closing) (htext : Passes opening closing text) :
    Passes opening closing (opening :: (text ++ [closing])) := by
  intro pre post depth fuel hdepth hfuel
  obtain ⟨fuel, rfl⟩ := Nat.exists_eq_add_of_lt (Nat.zero_lt_of_lt hfuel)
  have hopened : pre ++ (opening :: (text ++ [closing]) ++ post) =
      (pre ++ [opening]) ++ (text ++ closing :: post) := by
    simp only [List.append_assoc, List.cons_append, List.nil_append]
  have hclosing : pre ++ (opening :: (text ++ [closing]) ++ post) =
      (pre ++ [opening] ++ text) ++ closing :: post := by
    simp only [List.append_assoc, List.cons_append, List.nil_append]
  have hend : (pre ++ [opening] ++ text).length + 1 =
      (pre ++ opening :: (text ++ [closing])).length := by
    simp only [List.length_append, List.length_cons, List.length_nil]
    omega
  simp only [List.length_append, List.length_cons, List.length_nil] at hfuel
  obtain ⟨fuel₁, hfuel₁, hrun₁⟩ := htext (pre ++ [opening]) (closing :: post) (depth + 1) fuel
    (Nat.succ_pos _) (by rw [List.length_append, List.length_cons]; omega)
  obtain ⟨fuel₁, rfl⟩ := Nat.exists_eq_add_of_lt (Nat.zero_lt_of_lt hfuel₁)
  rw [List.length_cons] at hfuel₁
  refine ⟨fuel₁, by omega, ?_⟩
  have hstart : jsonContainerLoop (0 + fuel + 1) (pre ++ (opening :: (text ++ [closing]) ++ post))
      opening closing depth pre.length =
        jsonContainerLoop fuel (pre ++ (opening :: (text ++ [closing]) ++ post)) opening closing
          (depth + 1) (pre.length + 1) := by
    rw [Nat.zero_add]
    exact container_open
  rw [hstart, hopened, ← length_concat, hrun₁, ← hopened, hclosing, Nat.zero_add,
    container_close h hdepth, hend]

/-! ## Values -/

theorem digit_bytes (h : ∀ b ∈ text, IsDigit b) : ∀ b ∈ text, isNumberByte b = true := by
  intro b hb
  obtain ⟨hlow, hhigh⟩ := h b hb
  simp [isNumberByte, hlow, hhigh]

theorem intPart_bytes (h : IntPart text) : (∀ b ∈ text, isNumberByte b = true) ∧
    ∃ first digits, text = first :: digits ∧ 0x30 ≤ first ∧ first ≤ 0x39 := by
  obtain rfl | ⟨first, digits, rfl, hlow, hhigh, hdigits⟩ := h
  · exact ⟨List.forall_mem_singleton.mpr rfl, _, _, rfl, by decide, by decide⟩
  · have hlow' : (0x30 : UInt8) ≤ first := UInt8.le_trans (by decide) hlow
    refine ⟨List.forall_mem_cons.mpr ⟨?_, digit_bytes hdigits⟩, first, digits, rfl, hlow', hhigh⟩
    simp [isNumberByte, hlow', hhigh]

theorem fracPart_bytes (h : FracPart text) : ∀ b ∈ text, isNumberByte b = true := by
  obtain rfl | ⟨digits, rfl, -, hdigits⟩ := h
  · exact nofun
  · exact List.forall_mem_cons.mpr ⟨by decide, digit_bytes hdigits⟩

theorem expPart_bytes (h : ExpPart text) : ∀ b ∈ text, isNumberByte b = true := by
  obtain rfl | ⟨letter, sign, digits, rfl, hletter, hsign, -, hdigits⟩ := h
  · exact nofun
  · have hsignBytes : ∀ b ∈ sign, isNumberByte b = true := by
      obtain rfl | rfl | rfl := hsign
      · exact nofun
      · exact List.forall_mem_singleton.mpr rfl
      · exact List.forall_mem_singleton.mpr rfl
    refine List.forall_mem_cons.mpr ⟨?_, List.forall_mem_append.mpr
      ⟨hsignBytes, digit_bytes hdigits⟩⟩
    obtain rfl | rfl := hletter
    · decide
    · decide

theorem number_bytes {text : Text.Bytes} (h : IsNumber text) :
    (∀ b ∈ text, isNumberByte b = true) ∧
      ∃ first rest, text = first :: rest ∧ (first = 0x2d ∨ (0x30 ≤ first ∧ first ≤ 0x39)) := by
  obtain ⟨minus, int, frac, exp, rfl, hminus, hint, hfrac, hexp⟩ := h
  have hminusBytes : ∀ b ∈ minus, isNumberByte b = true := by
    obtain rfl | rfl := hminus
    · exact nofun
    · exact List.forall_mem_singleton.mpr rfl
  obtain ⟨hintBytes, hintFirst⟩ := intPart_bytes hint
  refine ⟨?_, ?_⟩
  · exact List.forall_mem_append.mpr ⟨hminusBytes, List.forall_mem_append.mpr ⟨hintBytes,
      List.forall_mem_append.mpr ⟨fracPart_bytes hfrac, expPart_bytes hexp⟩⟩⟩
  · obtain rfl | rfl := hminus
    · obtain ⟨first, digits, rfl, hfirst⟩ := hintFirst
      exact ⟨first, _, rfl, .inr hfirst⟩
    · exact ⟨_, _, rfl, .inl rfl⟩

theorem numberByte_passes (h : isNumberByte b = true) (hpair : IsPair opening closing) :
    b ≠ opening ∧ b ≠ closing ∧ b ≠ quote := by
  obtain ⟨rfl, rfl⟩ | ⟨rfl, rfl⟩ := hpair
  · refine ⟨?_, ?_, ?_⟩
    all_goals
      rintro rfl
      exact absurd h (by decide)
  · refine ⟨?_, ?_, ?_⟩
    all_goals
      rintro rfl
      exact absurd h (by decide)

theorem passes_space (hpair : IsPair opening closing) (h : IsSpace text) :
    Passes opening closing text := by
  refine passes_bytes fun b hb => ?_
  obtain ⟨rfl, rfl⟩ | ⟨rfl, rfl⟩ := hpair
  · obtain rfl | rfl | rfl | rfl := h b hb
    all_goals decide
  · obtain rfl | rfl | rfl | rfl := h b hb
    all_goals decide

theorem passes_word (hpair : IsPair opening closing) (h : text ∈ literals) :
    Passes opening closing text := by
  refine passes_bytes fun b hb => ?_
  have hall : ∀ word ∈ literals, ∀ b ∈ word, b ≠ openBrace ∧ b ≠ closeBrace ∧ b ≠ quote ∧
      b ≠ openBracket ∧ b ≠ closeBracket := by
    simp [literals, quote, openBrace, closeBrace, openBracket, closeBracket]
  obtain ⟨h₁, h₂, h₃, h₄, h₅⟩ := hall text h b hb
  obtain ⟨rfl, rfl⟩ | ⟨rfl, rfl⟩ := hpair
  · exact ⟨h₁, h₂, h₃⟩
  · exact ⟨h₄, h₅, h₃⟩

theorem passes_comma (hpair : IsPair opening closing) : Passes opening closing [comma] := by
  obtain ⟨rfl, rfl⟩ | ⟨rfl, rfl⟩ := hpair
  · exact passes_byte (by decide) (by decide) (by decide)
  · exact passes_byte (by decide) (by decide) (by decide)

theorem passes_colon (hpair : IsPair opening closing) : Passes opening closing [colon] := by
  obtain ⟨rfl, rfl⟩ | ⟨rfl, rfl⟩ := hpair
  · exact passes_byte (by decide) (by decide) (by decide)
  · exact passes_byte (by decide) (by decide) (by decide)

/-- Braces around a text that passes, for either kind of brackets. -/
theorem passes_braces (hpair : IsPair opening closing) (h : Passes opening closing text) :
    Passes opening closing (openBrace :: (text ++ [closeBrace])) := by
  obtain ⟨rfl, rfl⟩ | ⟨rfl, rfl⟩ := hpair
  · exact passes_nested (.inl ⟨rfl, rfl⟩) h
  · exact (passes_byte (by decide) (by decide) (by decide)).append
      (h.append (passes_byte (by decide) (by decide) (by decide)))

theorem passes_brackets (hpair : IsPair opening closing) (h : Passes opening closing text) :
    Passes opening closing (openBracket :: (text ++ [closeBracket])) := by
  obtain ⟨rfl, rfl⟩ | ⟨rfl, rfl⟩ := hpair
  · exact (passes_byte (by decide) (by decide) (by decide)).append
      (h.append (passes_byte (by decide) (by decide) (by decide)))
  · exact passes_nested (.inr ⟨rfl, rfl⟩) h

theorem passes_derived (hpair : IsPair opening closing) {nonterminal : Nonterminal}
    (h : Derives nonterminal text) : Passes opening closing text := by
  induction h with
  | literal hword => exact passes_word hpair hword
  | number hnumber =>
    exact passes_bytes fun b hb => numberByte_passes ((number_bytes hnumber).1 b hb) hpair
  | string items => exact passes_string hpair items
  | emptyArray hspace => exact passes_brackets hpair (passes_space hpair hspace)
  | array _ ih => exact passes_brackets hpair ih
  | emptyObject hspace => exact passes_braces hpair (passes_space hpair hspace)
  | object _ ih => exact passes_braces hpair ih
  | element hbefore _ hafter ih =>
    exact (passes_space hpair hbefore).append (ih.append (passes_space hpair hafter))
  | elements _ _ ih₁ ih₂ => exact ih₁.append ((passes_comma hpair).append ih₂)
  | member key hbefore hafterKey hbeforeValue _ hafter ih =>
    exact (passes_space hpair hbefore).append ((passes_string hpair key).append
      ((passes_space hpair hafterKey).append ((passes_colon hpair).append
        ((passes_space hpair hbeforeValue).append (ih.append (passes_space hpair hafter))))))
  | members _ _ ih₁ ih₂ => exact ih₁.append ((passes_comma hpair).append ih₂)

theorem jsonContainer_eq (hpair : IsPair opening closing) (htext : Passes opening closing text)
    (post : Text.Bytes) :
    jsonContainer (opening :: (text ++ [closing]) ++ post) opening closing =
      .ok (opening :: (text ++ [closing]), post) := by
  have hhead : (opening :: (text ++ [closing]) ++ post).head? = some opening := rfl
  have hstart : jsonContainerLoop ((opening :: (text ++ [closing]) ++ post).length + 1)
      (opening :: (text ++ [closing]) ++ post) opening closing 0 0 =
        jsonContainerLoop (opening :: (text ++ [closing]) ++ post).length
          (opening :: (text ++ [closing]) ++ post) opening closing 1 1 :=
    @container_open [] _ _ _ _ _
  have hopened : opening :: (text ++ [closing]) ++ post = [opening] ++ (text ++ closing :: post) := by
    simp only [List.append_assoc, List.cons_append, List.nil_append]
  have hclosing : opening :: (text ++ [closing]) ++ post = ([opening] ++ text) ++ closing :: post := by
    simp only [List.append_assoc, List.cons_append, List.nil_append]
  obtain ⟨fuel, hfuel, hrun⟩ := htext [opening] (closing :: post) 1
    (opening :: (text ++ [closing]) ++ post).length Nat.one_pos (by simp)
  obtain ⟨fuel, rfl⟩ := Nat.exists_eq_add_of_lt (Nat.zero_lt_of_lt hfuel)
  rw [List.length_singleton] at hrun
  rw [jsonContainer, if_pos hhead, hstart]
  conv_lhs => rw [hopened]
  rw [hopened] at hrun
  rw [hrun, ← hopened, hclosing, Nat.zero_add, container_end hpair]
  rfl

/-- The first byte of a value that is no word and no number decides. -/
theorem jsonValue_container (hpair : IsPair opening closing) (h : Passes opening closing text)
    (post : Text.Bytes) :
    jsonValue (opening :: (text ++ [closing]) ++ post) =
      .ok (opening :: (text ++ [closing]), post) := by
  have hcontainer := jsonContainer_eq hpair h post
  have hhead : (opening :: (text ++ [closing]) ++ post).head? = some opening := rfl
  rw [jsonValue, hhead]
  obtain ⟨rfl, rfl⟩ | ⟨rfl, rfl⟩ := hpair
  · exact hcontainer
  · exact hcontainer

theorem jsonValue_string (items : List StringItem) (post : Text.Bytes) :
    jsonValue (stringText items ++ post) = .ok (stringText items, post) := by
  have hhead : (stringText items ++ post).head? = some quote := rfl
  have hlen : (itemsText items).length + 2 = (stringText items).length := by
    simp [stringText]
  rw [jsonValue, hhead]
  simp only [if_true, jsonString_stringText, bind, Except.bind, hlen, range_left]
  rfl

theorem jsonValue_word {word : Text.Bytes} (h : word ∈ literals) (post : Text.Bytes) :
    jsonValue (word ++ post) = .ok (word, post) := by
  simp only [literals, List.mem_cons, List.not_mem_nil, or_false] at h
  obtain rfl | rfl | rfl := h
  · simp [jsonValue, trueWord, quote, openBrace, openBracket, pure, Except.pure]
  · simp [jsonValue, trueWord, falseWord, quote, openBrace, openBracket, pure, Except.pure]
  · simp [jsonValue, trueWord, falseWord, nullWord, quote, openBrace, openBracket, pure,
      Except.pure]

theorem takeWhile_append_stop {p : UInt8 → Bool} (h : ∀ b ∈ text, p b = true)
    (hpost : ∀ b ∈ post.head?, p b = false) :
    (text ++ post).takeWhile p = text ∧ (text ++ post).dropWhile p = post := by
  rw [List.takeWhile_append_of_pos h, List.dropWhile_append_of_pos h]
  cases post with
  | nil => exact ⟨List.append_nil _, rfl⟩
  | cons b post =>
    have hb : ¬ p b = true := by
      rw [hpost b rfl]
      exact Bool.false_ne_true
    rw [List.takeWhile_cons_of_neg hb, List.dropWhile_cons_of_neg hb]
    exact ⟨List.append_nil _, rfl⟩

theorem jsonValue_number (h : IsNumber text) (hpost : ∀ b ∈ post.head?, isNumberByte b = false) :
    jsonValue (text ++ post) = .ok (text, post) := by
  obtain ⟨hbytes, first, rest, rfl, hfirst⟩ := number_bytes h
  obtain ⟨htake, hdrop⟩ := takeWhile_append_stop hbytes hpost
  have hletter : ∀ b ∈ [quote, openBrace, openBracket, 0x74, 0x66, 0x6e], first ≠ b := by
    rintro b hb rfl
    simp only [List.mem_cons, List.not_mem_nil, or_false] at hb
    obtain rfl | rfl | rfl | rfl | rfl | rfl := hb
    all_goals exact absurd hfirst (by decide)
  have hword : ∀ letter word, letter ∈ [(0x74 : UInt8), 0x66, 0x6e] →
      ¬ (letter :: word <+: first :: rest ++ post) := by
    intro letter word hmem hprefix
    rw [List.cons_append, List.cons_prefix_cons] at hprefix
    refine hletter letter ?_ hprefix.1.symm
    simp only [List.mem_cons, List.not_mem_nil, or_false] at hmem ⊢
    tauto
  have hhead : (first :: rest ++ post).head? = some first := rfl
  rw [jsonValue, hhead]
  dsimp only
  rw [if_neg (hletter quote (by decide)), if_neg (hletter openBrace (by decide)),
    if_neg (hletter openBracket (by decide)), trueWord, falseWord, nullWord,
    if_neg (hword _ _ (by decide)), if_neg (hword _ _ (by decide)),
    if_neg (hword _ _ (by decide)), if_pos hfirst, htake, hdrop]
  rfl

/-- A value is taken whole, with any rest that does not go on like a number. -/
theorem jsonValue_eq (h : Derives .value value)
    (hpost : ∀ b ∈ post.head?, isNumberByte b = false) :
    jsonValue (value ++ post) = .ok (value, post) := by
  have hbrace : IsPair openBrace closeBrace := .inl ⟨rfl, rfl⟩
  have hbracket : IsPair openBracket closeBracket := .inr ⟨rfl, rfl⟩
  cases h with
  | literal hword => exact jsonValue_word hword post
  | number hnumber => exact jsonValue_number hnumber hpost
  | string items => exact jsonValue_string items post
  | emptyArray hspace => exact jsonValue_container hbracket (passes_space hbracket hspace) post
  | array htext => exact jsonValue_container hbracket (passes_derived hbracket htext) post
  | emptyObject hspace => exact jsonValue_container hbrace (passes_space hbrace hspace) post
  | object htext => exact jsonValue_container hbrace (passes_derived hbrace htext) post

/-! ## Keys -/

theorem keyByte_plain (h : 0x20 ≤ b ∧ b ≠ quote ∧ b ≠ backslash) :
    keyByte (pre ++ b :: post) pre.length = .ok (some (b, 1)) := by
  rw [keyByte, byteAt_append]
  simp only [bind, Except.bind, if_neg h.2.2]
  rw [if_pos ⟨h.1, h.2.1⟩]
  rfl

theorem getElem?_next (pre post : Text.Bytes) (b e : UInt8) :
    (pre ++ b :: e :: post)[pre.length + 1]? = some e := by
  rw [append_cons_eq, ← length_concat, List.getElem?_append_right (Nat.le_refl _), Nat.sub_self]
  rfl

theorem keyByte_short {mapped : UInt8} (h : shortEscape e = some mapped) :
    keyByte (pre ++ backslash :: e :: post) pre.length = .ok (some (mapped, 2)) := by
  rw [keyByte, byteAt_append]
  simp only [bind, Except.bind, if_true, getElem?_next, h]
  rfl

theorem hexValue_digits (d₁ d₂ d₃ d₄ : HexDigit) :
    hexValue [d₁.byte, d₂.byte, d₃.byte, d₄.byte] = some (codeUnit d₁ d₂ d₃ d₄) := by
  have hdigit : ∀ d : HexDigit, hexDigit d.byte = some d.value := fun d => d.spells
  simp [hexValue, List.foldlM, hdigit, codeUnit]

theorem keyByte_unicode (d₁ d₂ d₃ d₄ : HexDigit) :
    keyByte (pre ++ backslash :: letterU :: d₁.byte :: d₂.byte :: d₃.byte :: d₄.byte :: post)
        pre.length =
      .ok (if 0x7f < codeUnit d₁ d₂ d₃ d₄ then none
        else some (UInt8.ofNat (codeUnit d₁ d₂ d₃ d₄), 6)) := by
  have hnone : shortEscape letterU = none := by decide
  have hroom : pre.length + 6 ≤ (pre ++ backslash :: letterU :: d₁.byte :: d₂.byte :: d₃.byte ::
      d₄.byte :: post).length := by
    simp only [List.length_append, List.length_cons]
    omega
  have hhex : (range (pre ++ backslash :: letterU :: d₁.byte :: d₂.byte :: d₃.byte :: d₄.byte ::
      post) (pre.length + 2) (pre.length + 6) : Scan CodecError Text.Bytes) =
        .ok [d₁.byte, d₂.byte, d₃.byte, d₄.byte] := by
    rw [range, if_pos ⟨by omega, hroom⟩, List.drop_take, ← List.drop_drop, List.drop_left]
    have hfour : pre.length + 6 - (pre.length + 2) = 4 := by omega
    rw [hfour]
    rfl
  rw [keyByte, byteAt_append]
  simp only [bind, Except.bind, if_true, getElem?_next, hnone]
  rw [if_pos ⟨trivial, hroom⟩]
  simp only [hhex, hexValue_digits]
  split_ifs
  · rfl
  · rfl

/-- What the key scanner reads of an item. -/
def itemByte : StringItem → Option (UInt8 × ℕ)
  | .plain b _ => some (b, 1)
  | .short _ mapped _ => some (mapped, 2)
  | .unicode d₁ d₂ d₃ d₄ =>
    if 0x7f < codeUnit d₁ d₂ d₃ d₄ then none
    else some (UInt8.ofNat (codeUnit d₁ d₂ d₃ d₄), 6)

theorem keyByte_item (item : StringItem) (pre post : Text.Bytes) :
    keyByte (pre ++ (item.text ++ post)) pre.length = .ok (itemByte item) := by
  cases item with
  | plain b h => exact keyByte_plain h
  | short b mapped h => exact keyByte_short h
  | unicode d₁ d₂ d₃ d₄ => exact keyByte_unicode d₁ d₂ d₃ d₄

theorem itemByte_consumed {item : StringItem} {consumed : ℕ}
    (h : itemByte item = some (b, consumed)) : consumed = item.text.length := by
  cases item with
  | plain _ _ => cases h; rfl
  | short _ _ _ => cases h; rfl
  | unicode d₁ d₂ d₃ d₄ =>
    rw [itemByte] at h
    split_ifs at h
    cases h
    rfl

/-- A key is `c` if it is one item that is read as `c`. -/
def readsC : List StringItem → Bool
  | [item] => (itemByte item).any fun read => read.1 == letterC
  | _ => false

theorem keyIsCLoop_item {decoded : Option UInt8} (item : StringItem) (pre post : Text.Bytes) :
    keyIsCLoop (fuel + 1) (pre ++ (item.text ++ post)) decoded pre.length =
      match itemByte item with
      | none => .ok false
      | some (byte, _) =>
        if decoded.isSome then .ok false
        else keyIsCLoop fuel (pre ++ (item.text ++ post)) (some byte) (pre ++ item.text).length := by
  have hlt : pre.length < (pre ++ (item.text ++ post)).length := by
    have hpos : 0 < item.text.length := by
      cases item with
      | plain _ _ => exact Nat.succ_pos _
      | short _ _ _ => exact Nat.succ_pos _
      | unicode _ _ _ _ => exact Nat.succ_pos _
    simp only [List.length_append]
    omega
  rw [keyIsCLoop, if_pos hlt, keyByte_item]
  simp only [bind, Except.bind]
  cases hread : itemByte item with
  | none => rfl
  | some read =>
    obtain ⟨byte, consumed⟩ := read
    rw [List.length_append, ← itemByte_consumed hread]
    rfl

theorem keyIsC_items (items : List StringItem) : keyIsC (itemsText items) = .ok (readsC items) := by
  cases items with
  | nil => rfl
  | cons item items =>
    have htext : itemsText (item :: items) = [] ++ (item.text ++ itemsText items) := rfl
    obtain ⟨fuel, hfuel⟩ : ∃ fuel, (itemsText (item :: items)).length = fuel + 1 := by
      refine Nat.exists_eq_add_one.mpr ?_
      rw [htext]
      cases item with
      | plain _ _ => exact Nat.succ_pos _
      | short _ _ _ => exact Nat.succ_pos _
      | unicode _ _ _ _ => exact Nat.succ_pos _
    have hfirst : keyIsCLoop (fuel + 1 + 1) ([] ++ (item.text ++ itemsText items)) none 0 = _ :=
      keyIsCLoop_item item [] (itemsText items)
    rw [keyIsC, hfuel, htext, hfirst]
    cases hread : itemByte item with
    | none =>
      cases items with
      | nil => simp [readsC, hread]
      | cons next items => rfl
    | some read =>
      obtain ⟨byte, consumed⟩ := read
      dsimp only [Option.isSome_none, Bool.false_eq_true, if_false]
      cases items with
      | nil =>
        have hend : ¬ ([] ++ item.text).length <
            ([] ++ (item.text ++ itemsText [])).length := by
          simp [itemsText]
        rw [if_neg Bool.false_ne_true, keyIsCLoop, if_neg hend]
        simp [readsC, hread, pure, Except.pure]
      | cons next items =>
        -- a second item is too much, whatever it is
        have hsecond : keyIsCLoop (fuel + 1) (([] ++ item.text) ++ (next.text ++ itemsText items))
            (some byte) ([] ++ item.text).length = _ :=
          keyIsCLoop_item next ([] ++ item.text) (itemsText items)
        have hwhole : [] ++ (item.text ++ itemsText (next :: items)) =
            ([] ++ item.text) ++ (next.text ++ itemsText items) :=
          (List.append_assoc [] item.text _).symm
        rw [if_neg Bool.false_ne_true, hwhole, hsecond]
        cases itemByte next with
        | none => rfl
        | some read => rfl

theorem length_le_map {items : List StringItem} {front bytes : JsonGrammar.Bytes} {n : ℕ}
    (hfront : n ≤ front.length)
    (ih : ∀ rest, decoded items = some rest → items.length ≤ rest.length)
    (h : (decoded items).map (front ++ ·) = some bytes) : items.length + n ≤ bytes.length := by
  obtain ⟨rest, hrest, rfl⟩ := Option.map_eq_some_iff.mp h
  have hle := ih rest hrest
  rw [List.length_append]
  omega

theorem toNat_charOfNat (n : ℕ) : (Char.ofNat n).toNat = if n.isValidChar then n else 0 := by
  rw [Char.ofNat]
  split_ifs
  · rfl
  · rfl

/-- The second half of a pair makes four bytes of two items. -/
theorem length_utf8EncodeChar_pair {n : ℕ} (hlow : 0x10000 ≤ n) (hhigh : n ≤ 0x10ffff) :
    2 ≤ (String.utf8EncodeChar (Char.ofNat n)).length := by
  have hvalid : n.isValidChar := .inr ⟨by omega, by omega⟩
  have hn : (Char.ofNat n).val.toNat = n := by
    have hnat := toNat_charOfNat n
    rwa [if_pos hvalid] at hnat
  rw [String.length_utf8EncodeChar, Char.utf8Size]
  split_ifs with hascii
  · rw [UInt32.le_iff_toNat_le, hn] at hascii
    exact absurd (Nat.le_trans hlow hascii) (by decide)
  · exact Nat.le_refl 2
  · exact Nat.le_succ 2
  · exact Nat.le_add_left 2 2

theorem decoded_length {items : List StringItem} {bytes : JsonGrammar.Bytes}
    (h : decoded items = some bytes) : items.length ≤ bytes.length := by
  have hchar : ∀ c, 1 ≤ (String.utf8EncodeChar c).length := fun c => by
    rw [String.length_utf8EncodeChar]
    exact c.utf8Size_pos
  induction items using decoded.induct generalizing bytes with
  | case1 => exact Nat.zero_le _
  | case2 b hb items ih =>
    rw [decoded] at h
    have hone : 1 ≤ [b].length := Nat.le_refl 1
    exact length_le_map hone (fun _ => ih) h
  | case3 b mapped hb items ih =>
    rw [decoded] at h
    have hone : 1 ≤ [mapped].length := Nat.le_refl 1
    exact length_le_map hone (fun _ => ih) h
  | case4 d₁ d₂ d₃ d₄ e₁ e₂ e₃ e₄ items unit low hunit hlow =>
    rename_i ih
    have hfour := @length_utf8EncodeChar_pair (0x10000 + (unit - 0xd800) * 0x400 + (low - 0xdc00))
      (by omega) (by omega)
    rw [decoded, if_pos hunit, if_pos hlow] at h
    have hrest := length_le_map hfour (fun _ => ih) h
    exact hrest
  | case5 d₁ d₂ d₃ d₄ e₁ e₂ e₃ e₄ items unit low hunit =>
    rename_i hlow
    rw [decoded, if_pos hunit, if_neg hlow] at h
    cases h
  | case6 d₁ d₂ d₃ d₄ e₁ e₂ e₃ e₄ items unit hunit =>
    rename_i hsurrogate
    rw [decoded, if_neg hunit, if_pos hsurrogate] at h
    cases h
  | case7 d₁ d₂ d₃ d₄ e₁ e₂ e₃ e₄ items unit hunit hsurrogate =>
    rename_i ih
    rw [decoded, if_neg hunit, if_neg hsurrogate] at h
    exact length_le_map (hchar _) (fun _ => ih) h
  | case8 d₁ d₂ d₃ d₄ items hlast unit =>
    rename_i hsurrogate
    rw [decoded, if_pos hsurrogate] at h
    · cases h
    · exact hlast
  | case9 d₁ d₂ d₃ d₄ items hlast unit hsurrogate =>
    rename_i ih
    rw [decoded, if_neg hsurrogate] at h
    · exact length_le_map (hchar _) (fun _ => ih) h
    · exact hlast

theorem unicode_eq_c_iff (d₁ d₂ d₃ d₄ : HexDigit) :
    decoded [.unicode d₁ d₂ d₃ d₄] = some [letterC] ↔ codeUnit d₁ d₂ d₃ d₄ = 0x63 := by
  rw [decoded]
  swap
  · exact nofun
  constructor
  · intro h
    split_ifs at h with hsurrogate
    have hbytes : String.utf8EncodeChar (Char.ofNat (codeUnit d₁ d₂ d₃ d₄)) = [letterC] := by
      rw [decoded, Option.map_some, List.append_nil, Option.some.injEq] at h
      exact h
    obtain ⟨-, hchar⟩ := utf8EncodeChar_of_ascii (b := letterC) (by decide)
      (by rw [hbytes]; exact List.mem_singleton_self _)
    have hnat := toNat_charOfNat (codeUnit d₁ d₂ d₃ d₄)
    rw [hchar] at hnat
    have hc : (asciiChar letterC).toNat = 0x63 := by decide
    split_ifs at hnat
    · exact hnat.symm.trans hc
    · rw [hc] at hnat
      cases hnat
  · intro h
    rw [h]
    decide

/-- Only a string of one ASCII character decodes to one byte. -/
theorem decoded_eq_singleton_iff (items : List StringItem) :
    decoded items = some [letterC] ↔ readsC items = true := by
  match items with
  | [] => exact ⟨nofun, nofun⟩
  | [.plain b h] => simp [decoded, readsC, itemByte]
  | [.short b mapped h] => simp [decoded, readsC, itemByte]
  | [.unicode d₁ d₂ d₃ d₄] =>
    rw [unicode_eq_c_iff]
    simp only [readsC, itemByte]
    constructor
    · intro h
      rw [h]
      decide
    · intro h
      split_ifs at h with hascii
      · cases h
      · simp only [Option.any_some, beq_iff_eq] at h
        have hnat := congrArg UInt8.toNat h
        rw [UInt8.toNat_ofNat'] at hnat
        have hc : letterC.toNat = 0x63 := rfl
        omega
  | first :: second :: items =>
    refine ⟨fun h => ?_, nofun⟩
    have hlen := decoded_length h
    simp only [List.length_cons, List.length_nil] at hlen
    omega

end GrokBuild.AttemptStore
