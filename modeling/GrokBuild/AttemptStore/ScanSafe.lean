import GrokBuild.AttemptStore.ContentScan

/-!
# The scan ends without a panic

On any bytes: no index is out of bounds, no depth falls below zero, and each round leaves fewer
bytes.
-/

namespace GrokBuild.AttemptStore

open Text

variable {ε α β : Type}

/-- Neither a panic nor an endless loop, and a result with the property. -/
def Meets (p : α → Prop) : Scan ε α → Prop
  | .ok a => p a
  | .error (.error _) => True
  | .error .panic => False
  | .error .endless => False

theorem Meets.bind {p : α → Prop} {q : β → Prop} {scan : Scan ε α} {next : α → Scan ε β}
    (h : Meets p scan) (hnext : ∀ a, p a → Meets q (next a)) : Meets q (scan >>= next) := by
  cases scan with
  | ok a => exact hnext a h
  | error halt =>
    cases halt with
    | error e => trivial
    | panic => exact h
    | endless => exact h

theorem Meets.okOr {p : α → Prop} {scan : Scan Unit α} (h : Meets p scan) (e : CodecError) :
    Meets p (okOr e scan) := by
  cases scan with
  | ok a => exact h
  | error halt =>
    cases halt with
    | error _ => trivial
    | panic => exact h
    | endless => exact h

theorem Meets.mono {p q : α → Prop} {scan : Scan ε α} (h : Meets p scan) (hpq : ∀ a, p a → q a) :
    Meets q scan := by
  cases scan with
  | ok a => exact hpq a h
  | error halt =>
    cases halt with
    | error e => trivial
    | panic => exact h
    | endless => exact h

/-! ## Bounds -/

variable {bytes rest input key : Bytes} {a b index fuel depth : ℕ}

theorem byteAt_meets (h : index < bytes.length) :
    Meets (fun byte => bytes[index] = byte) (byteAt bytes index : Scan ε UInt8) := by
  rw [byteAt, List.getElem?_eq_getElem h]
  exact rfl

theorem range_meets (hab : a ≤ b) (hb : b ≤ bytes.length) :
    Meets (fun part => (bytes.take b).drop a = part) (range bytes a b : Scan ε Bytes) := by
  rw [range, if_pos ⟨hab, hb⟩]
  exact rfl

theorem stripBytes_eq_some {start : Bytes} (h : stripBytes bytes start = some rest) :
    bytes = start ++ rest := by
  unfold stripBytes at h
  split_ifs at h with hprefix
  obtain ⟨tail, rfl⟩ := hprefix
  rw [List.drop_left] at h
  rw [Option.some.inj h]

theorem trimStart_length (bytes : Bytes) : (trimStart bytes).length ≤ bytes.length :=
  (List.dropWhile_suffix _).length_le

/-! ## Strings -/

/-- The parts before and behind a byte. -/
def Splits (bytes : Bytes) (byte : UInt8) (parts : Bytes × Bytes) : Prop :=
  bytes = parts.1 ++ byte :: parts.2

theorem jsonStringLoop_meets (hfuel : rest.length < fuel + index) (hpos : 0 < fuel) :
    Meets (Splits rest quote) (jsonStringLoop fuel rest index) := by
  induction fuel generalizing index with
  | zero => exact absurd hpos (lt_irrefl 0)
  | succ fuel ih =>
    rw [jsonStringLoop]
    by_cases hindex : index < rest.length
    swap
    · rw [if_neg hindex]
      trivial
    rw [if_pos hindex]
    refine (byteAt_meets hindex).bind ?_
    rintro byte rfl
    split
    · next hquote =>
      refine (range_meets (Nat.zero_le _) hindex.le).bind ?_
      rintro interior rfl
      refine (range_meets hindex (Nat.le_refl _)).bind ?_
      rintro after rfl
      have hsplit : rest = rest.take index ++ rest[index] :: rest.drop (index + 1) := by
        rw [← List.drop_eq_getElem_cons hindex, List.take_append_drop]
      rw [hquote] at hsplit
      rw [List.take_length, List.drop_zero]
      exact hsplit
    split
    · split
      · trivial
      · next hend =>
        refine (byteAt_meets (Nat.not_le.mp hend)).bind ?_
        rintro escape rfl
        split
        · exact ih (by omega) (by omega)
        · exact ih (by omega) (by omega)
    split
    · trivial
    · exact ih (by omega) (by omega)

/-- A string is what stands between two quotes. -/
theorem jsonString_meets (input : Bytes) :
    Meets (fun parts => input = quote :: (parts.1 ++ quote :: parts.2)) (jsonString input) := by
  unfold jsonString
  cases hstrip : stripBytes input [quote] with
  | none => trivial
  | some rest =>
    rw [stripBytes_eq_some hstrip]
    refine (jsonStringLoop_meets (by omega) (Nat.succ_pos _)).mono ?_
    rintro parts hsplit
    exact congrArg (List.cons quote) hsplit

theorem keyByte_meets (h : index < key.length) :
    Meets (fun read => ∀ p ∈ read, 0 < p.2) (keyByte key index) := by
  unfold keyByte
  refine (byteAt_meets h).bind ?_
  rintro byte rfl
  split_ifs with hslash hplain
  · cases key[index + 1]? with
    | none => trivial
    | some escape =>
      dsimp only
      cases shortEscape escape with
      | some mapped =>
        rintro p ⟨⟩
        exact Nat.succ_pos 1
      | none =>
        dsimp only
        split_ifs with hunicode
        · refine (range_meets (by omega) hunicode.2).bind ?_
          rintro hex rfl
          cases hexValue ((key.take (index + 6)).drop (index + 2)) with
          | none => trivial
          | some value =>
            dsimp only
            split_ifs
            · exact nofun
            · rintro p ⟨⟩
              exact Nat.succ_pos 5
        · trivial
  · rintro p ⟨⟩
    exact Nat.one_pos
  · trivial

theorem keyIsCLoop_meets {decoded : Option UInt8} (hfuel : key.length < fuel + index)
    (hpos : 0 < fuel) : Meets (fun _ => True) (keyIsCLoop fuel key decoded index) := by
  induction fuel generalizing index decoded with
  | zero => exact absurd hpos (lt_irrefl 0)
  | succ fuel ih =>
    rw [keyIsCLoop]
    by_cases hindex : index < key.length
    swap
    · rw [if_neg hindex]
      trivial
    rw [if_pos hindex]
    refine (keyByte_meets hindex).bind ?_
    rintro (_ | ⟨byte, consumed⟩) hconsumed
    · trivial
    · have hstep := hconsumed _ rfl
      dsimp only at hstep ⊢
      split
      · trivial
      · exact ih (by omega) (by omega)

theorem keyIsC_meets (key : Bytes) : Meets (fun _ => True) (keyIsC key) :=
  keyIsCLoop_meets (by omega) (Nat.succ_pos _)

/-! ## Values -/

/-- Inside of a container the depth is not zero. -/
theorem jsonContainerLoop_meets {opening closing : UInt8} (hfuel : input.length < fuel + index)
    (hpos : 0 < fuel)
    (hdepth : 0 < depth ∨ (index = 0 ∧ input.head? = some opening)) :
    Meets (fun parts => parts.1.length + parts.2.length = input.length ∧ parts.1 ≠ [])
      (jsonContainerLoop fuel input opening closing depth index) := by
  induction fuel generalizing index depth with
  | zero => exact absurd hpos (lt_irrefl 0)
  | succ fuel ih =>
    rw [jsonContainerLoop]
    by_cases hindex : index < input.length
    swap
    · rw [if_neg hindex]
      trivial
    rw [if_pos hindex]
    refine (byteAt_meets hindex).bind ?_
    rintro byte rfl
    by_cases hopen : input[index] = opening
    · rw [if_pos hopen]
      exact ih (by omega) (by omega) (.inl (Nat.succ_pos _))
    rw [if_neg hopen]
    have hdepth : 0 < depth := by
      -- the first byte opens
      obtain hdepth | ⟨rfl, hhead⟩ := hdepth
      · exact hdepth
      · rw [List.head?_eq_getElem?, List.getElem?_eq_getElem hindex, Option.some.injEq] at hhead
        exact absurd hhead hopen
    by_cases hclose : input[index] = closing
    · rw [if_pos hclose, if_neg hdepth.ne']
      split
      swap
      · exact ih (by omega) (by omega) (.inl (by omega))
      refine (range_meets (Nat.zero_le _) hindex).bind ?_
      rintro value rfl
      refine (range_meets hindex (Nat.le_refl _)).bind ?_
      rintro after rfl
      refine ⟨?_, ?_⟩
      · simp only [List.drop_zero, List.length_take, List.take_length, List.length_drop]
        omega
      · have hlen : ((input.take (index + 1)).drop 0).length = index + 1 := by
          simp only [List.drop_zero, List.length_take]
          omega
        exact List.ne_nil_of_length_pos (hlen ▸ Nat.succ_pos index)
    rw [if_neg hclose]
    split
    · refine (range_meets hindex.le (Nat.le_refl _)).bind ?_
      rintro string rfl
      refine (jsonString_meets _).bind ?_
      rintro ⟨interior, after⟩ hsplit
      have hlen := congrArg List.length hsplit
      simp only [List.length_cons, List.length_append, List.length_drop, List.take_length] at hlen
      dsimp only
      rw [if_pos (by omega)]
      exact ih (by omega) (by omega) (.inl hdepth)
    · exact ih (by omega) (by omega) (.inl hdepth)

theorem jsonContainer_meets (input : Bytes) (opening closing : UInt8) :
    Meets (fun parts => parts.1.length + parts.2.length = input.length ∧ parts.1 ≠ [])
      (jsonContainer input opening closing) := by
  unfold jsonContainer
  split_ifs with hhead
  · exact jsonContainerLoop_meets (by omega) (Nat.succ_pos _) (.inr ⟨rfl, hhead⟩)
  · trivial

/-- What is left behind a value is shorter. -/
theorem jsonValue_meets (input : Bytes) :
    Meets (fun parts => parts.2.length ≤ input.length) (jsonValue input) := by
  unfold jsonValue
  cases input.head? with
  | none => trivial
  | some first =>
    dsimp only
    split_ifs
    · refine (jsonString_meets input).bind ?_
      rintro ⟨interior, after⟩ hsplit
      have hlen := congrArg List.length hsplit
      simp only [List.length_cons, List.length_append] at hlen
      refine (range_meets (Nat.zero_le _) (by dsimp only; omega)).bind ?_
      rintro value rfl
      have hle : after.length ≤ input.length := by omega
      exact hle
    · exact (jsonContainer_meets input _ _).mono fun parts h => by omega
    · exact (jsonContainer_meets input _ _).mono fun parts h => by omega
    · exact (List.drop_suffix _ _).length_le
    · exact (List.drop_suffix _ _).length_le
    · exact (List.drop_suffix _ _).length_le
    · exact (List.dropWhile_suffix _).length_le
    · trivial

/-! ## The check -/

theorem boundContentString_meets (value : Bytes) :
    Meets (fun _ => True) (boundContentString value) := by
  unfold boundContentString
  split
  · trivial
  · split_ifs
    · trivial
    · trivial
    · trivial
    · trivial

theorem noteContent_meets (key value : Bytes) (seenContent : Bool) :
    Meets (fun _ => True) (noteContent key value seenContent) := by
  refine (keyIsC_meets key).bind fun isC _ => ?_
  split
  · refine (boundContentString_meets value).bind fun _ _ => ?_
    split
    · trivial
    · trivial
  · trivial

/-- A member takes some bytes. -/
theorem readMember_meets (fields : Bytes) :
    Meets (fun parts => parts.2.2.length < fields.length) (readMember fields) := by
  refine ((jsonString_meets _).okOr _).bind ?_
  rintro ⟨key, afterKey⟩ hsplit
  have hlen := congrArg List.length hsplit
  have htrim := trimStart_length fields
  have htrimKey := trimStart_length afterKey
  simp only [List.length_cons, List.length_append] at hlen
  dsimp only
  cases hcolon : stripBytes (trimStart afterKey) [colon] with
  | none => trivial
  | some afterColon =>
    have hcolonLen := congrArg List.length (stripBytes_eq_some hcolon)
    have htrimColon := trimStart_length afterColon
    simp only [List.length_cons, List.length_append, List.length_nil] at hcolonLen
    refine ((jsonValue_meets _).okOr _).bind ?_
    rintro ⟨value, afterValue⟩ hle
    have hlt : afterValue.length < fields.length := by
      dsimp only at hle
      omega
    exact hlt

theorem checkFields_meets {fields : Bytes} {seenContent : Bool} (hfuel : fields.length < fuel) :
    Meets (fun _ => True) (checkFields fuel fields seenContent) := by
  induction fuel generalizing fields seenContent with
  | zero => exact absurd hfuel (Nat.not_lt_zero _)
  | succ fuel ih =>
    rw [checkFields]
    split_ifs
    · trivial
    · trivial
    refine (readMember_meets fields).bind ?_
    rintro ⟨key, value, afterValue⟩ hlt
    refine (noteContent_meets key value seenContent).bind fun seen _ => ?_
    dsimp only at hlt ⊢
    split_ifs
    · trivial
    · trivial
    · cases hcomma : stripBytes (trimStart afterValue) [comma] with
      | none => trivial
      | some next =>
        have hlen := congrArg List.length (stripBytes_eq_some hcomma)
        have htrim := trimStart_length afterValue
        simp only [List.length_cons, List.length_append, List.length_nil] at hlen
        exact ih (by omega)

/-- On any bytes the check ends without a panic. -/
theorem checkContentEncodedLen_meets (body : Bytes) :
    Meets (fun _ => True) (checkContentEncodedLen body) := by
  unfold checkContentEncodedLen
  split
  · trivial
  · exact checkFields_meets (Nat.lt_succ_self _)

end GrokBuild.AttemptStore
