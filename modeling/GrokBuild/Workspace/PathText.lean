import GrokBuild.Lib.TokenCuts
import GrokBuild.Text.ByteSlices
import GrokBuild.Workspace.PathVirtualization

/-!
# Paths in text

The scanners of `path_virtualization.rs` that rewrite the paths of a text, by byte offsets. On the
way out the real root is replaced wherever it stands as a token, on the way in each absolute path
token is mapped as a path of its own.
-/

namespace GrokBuild.Workspace

open GrokBuild.Text GrokBuild.TokenCuts

section Scanners

def isPathTokenByte (b : UInt8) : Bool :=
  (48 ≤ b && b ≤ 57) || (65 ≤ b && b ≤ 90) || (97 ≤ b && b ≤ 122) || b == 46 || b == 95 || b == 45

def slashByte : UInt8 := 47

/-- `i == 0 || !is_path_token_char(bytes[i - 1])`. -/
def okBefore (text : Str) (i : ℕ) : Bool := i == 0 || !(byteAt text (i - 1)).any isPathTokenByte

/-- `end == bytes.len() || !is_path_token_char(bytes[end])`. -/
def okAfter (text : Str) (stop : ℕ) : Bool := !(byteAt text stop).any isPathTokenByte

/-- How many bytes one character at `i` takes, and the buffer with the character. -/
def pushCharAt (text : Str) (i : ℕ) (out : Option Str) : ℕ × Option Str :=
  match (splitAtByte i text).bind (·.2.head?) with
  | none => (1, out)
  | some c => (c.utf8Size, out.map (· ++ [c]))

/-- The loop of both scanners. The rule finds the end of a token at `i` and what it becomes; a slice
off a character boundary is `none`, as is a loop that does not end within `fuel` steps. -/
def scanLoop (rule : Str → ℕ → Option (Option (ℕ × Str))) (text : Str) :
    ℕ → ℕ → Option Str → Option (Option Str)
  | 0, _, _ => none
  | fuel + 1, i, out =>
    if i < utf8Len text then
      (rule text i).bind fun found =>
        match found with
        | some (stop, piece) =>
          (splitAtByte i text).bind fun parts =>
            scanLoop rule text fuel stop (some (out.getD parts.1 ++ piece))
        | none =>
          let pushed := pushCharAt text i out
          scanLoop rule text fuel (i + pushed.1) pushed.2
    else some out

/-- The loop from the start of the text, which is returned as it is where nothing was rewritten. -/
def scanText (rule : Str → ℕ → Option (Option (ℕ × Str))) (text : Str) : Option Str :=
  (scanLoop rule text (utf8Len text + 1) 0 none).map (·.getD text)

def outboundRule (source target text : Str) (i : ℕ) : Option (Option (ℕ × Str)) :=
  (splitAtByte i text).map fun parts =>
    if startsWith parts.2 source && okBefore text i && okAfter text (i + utf8Len source) then
      some (i + utf8Len source, target)
    else none

def replacePathPrefixInText (text source target : Str) : Option Str :=
  if source.isEmpty || ¬source <:+: text then some text
  else scanText (outboundRule source target) text

def pathTokenEnd (bytes : Bytes) (start : ℕ) : ℕ :=
  start + 1 + ((bytes.drop (start + 1)).takeWhile fun b =>
    b == slashByte || isPathTokenByte b).length

namespace PathVirtualization

def inboundRule (v : PathVirtualization) (text : Str) (i : ℕ) : Option (Option (ℕ × Str)) :=
  if byteAt text i = some slashByte ∧ okBefore text i = true then
    let stop := pathTokenEnd (encode text) i
    (sliceBytes text i stop).map fun token => some (stop, v.toGuest token)
  else some none

def rewriteTextInbound (v : PathVirtualization) (text : Str) : Option Str :=
  if '/' ∈ text then scanText v.inboundRule text else some text

def rewriteTextOutbound (v : PathVirtualization) (text : Str) : Option Str :=
  replacePathPrefixInText text v.realRoot visibleRoot

/-- Outbound: a guest path to the path that the model sees. -/
def toModelVisible (v : PathVirtualization) (path : Str) : Str :=
  match pathPrefixMatch path v.realRoot with
  | some rest => joinRootSuffix visibleRoot rest
  | none => path

end PathVirtualization

end Scanners

/-! ## The scanners by characters -/

section Characters

def isPathTokenChar (c : Char) : Bool := c.isAlphanum || c == '.' || c == '_' || c == '-'

def inToken (c : Char) : Bool := c == '/' || isPathTokenChar c

/-- A test that the bytes of a character pass when the character does. -/
def Bytewise (p : UInt8 → Bool) (q : Char → Bool) : Prop :=
  ∀ c, ∀ b ∈ String.utf8EncodeChar c, p b = q c

theorem Bytewise.of_ascii {p : UInt8 → Bool} {q : Char → Bool}
    (hascii : ∀ n < 128, p (UInt8.ofNat n) = q (Char.ofNat n)) (hp : ∀ b, p b = true → b < 0x80)
    (hq : ∀ c, q c = true → c.toNat < 128) : Bytewise p q := by
  intro c b hb
  by_cases hlt : b < 0x80
  · obtain ⟨-, rfl⟩ := utf8EncodeChar_of_ascii hlt hb
    have hnat : b.toNat < 128 := hlt
    have hself : UInt8.ofNat b.toNat = b := UInt8.ofNat_toNat
    rw [← hself, hascii b.toNat hnat, hself]
    rfl
  · have hpb : p b = false := by
      by_contra hpb
      exact hlt (hp b (by simpa using hpb))
    have hqc : q c = false := by
      by_contra hqc
      have hc := hq c (by simpa using hqc)
      -- an ASCII character is its one byte
      have hnat : (UInt8.ofNat c.toNat).toNat = c.toNat :=
        UInt8.toNat_ofNat_of_lt' (Nat.lt_of_lt_of_le hc (by decide))
      have hbyte : UInt8.ofNat c.toNat < 0x80 := by
        rw [UInt8.lt_iff_toNat_lt, hnat]
        exact hc
      have hchar : asciiChar (UInt8.ofNat c.toNat) = c := by
        rw [asciiChar, hnat, Char.ofNat_toNat]
      have hsingle := utf8EncodeChar_asciiChar hbyte
      rw [hchar] at hsingle
      rw [hsingle, List.mem_singleton] at hb
      exact hlt (hb ▸ hbyte)
    rw [hpb, hqc]

theorem isPathTokenByte_lt {b : UInt8} (h : isPathTokenByte b = true) : b < 0x80 := by
  simp only [isPathTokenByte, Bool.or_eq_true, Bool.and_eq_true, decide_eq_true_eq, beq_iff_eq,
    UInt8.le_iff_toNat_le, ← UInt8.toNat_inj, UInt8.lt_iff_toNat_lt] at h ⊢
  simp at h ⊢
  omega

theorem isPathTokenChar_lt {c : Char} (h : isPathTokenChar c = true) : c.toNat < 128 := by
  simp only [isPathTokenChar, Bool.or_eq_true, beq_iff_eq, Char.isAlphanum, Char.isAlpha,
    Char.isUpper, Char.isLower, Char.isDigit, Bool.and_eq_true, decide_eq_true_eq, ge_iff_le,
    UInt32.le_iff_toNat_le] at h
  rcases h with ((((⟨-, h⟩ | ⟨-, h⟩) | ⟨-, h⟩) | rfl) | rfl) | rfl
  · exact Nat.lt_of_le_of_lt h (by decide)
  · exact Nat.lt_of_le_of_lt h (by decide)
  · exact Nat.lt_of_le_of_lt h (by decide)
  · decide
  · decide
  · decide

theorem bytewise_pathToken : Bytewise isPathTokenByte isPathTokenChar :=
  Bytewise.of_ascii (by decide) (fun _ => isPathTokenByte_lt) fun _ => isPathTokenChar_lt

theorem bytewise_inToken : Bytewise (fun b => b == slashByte || isPathTokenByte b) inToken := by
  intro c b hb
  have hslash : (b == slashByte) = (c == '/') := by
    have htest : Bytewise (· == slashByte) (· == '/') := by
      apply Bytewise.of_ascii (by decide)
      · intro b hb
        rw [beq_iff_eq.1 hb]
        decide
      · intro c hc
        rw [beq_iff_eq.1 hc]
        decide
    exact htest c b hb
  dsimp only
  rw [inToken, hslash, bytewise_pathToken c b hb]

variable {p : UInt8 → Bool} {q : Char → Bool}

theorem utf8EncodeChar_cons (c : Char) : ∃ b bytes, String.utf8EncodeChar c = b :: bytes := by
  apply List.exists_cons_of_length_pos
  rw [String.length_utf8EncodeChar]
  exact c.utf8Size_pos

theorem Bytewise.takeWhile (h : Bytewise p q) (s : Str) :
    (encode s).takeWhile p = encode (s.takeWhile q) := by
  induction s with
  | nil => rfl
  | cons c s ih =>
    obtain ⟨b, bytes, hbytes⟩ := utf8EncodeChar_cons c
    rw [encode, List.flatMap_cons]
    cases hc : q c with
    | true =>
      rw [List.takeWhile_append_of_pos fun b hb => (h c b hb).trans hc,
        List.takeWhile_cons_of_pos hc]
      exact congrArg (String.utf8EncodeChar c ++ ·) ih
    | false =>
      have hb : p b = false := (h c b (hbytes ▸ List.mem_cons_self)).trans hc
      rw [hbytes, List.cons_append, List.takeWhile_cons_of_neg (by simp [hb]),
        List.takeWhile_cons_of_neg (by simp [hc])]
      rfl

theorem byteAt_front (front rest : Str) :
    byteAt (front ++ rest) (utf8Len front) = (encode rest).head? := by
  rw [byteAt, encode_append, ← length_encode, List.getElem?_append_right (Nat.le_refl _),
    Nat.sub_self, List.head?_eq_getElem?]

theorem Bytewise.head (h : Bytewise p q) (rest : Str) :
    (encode rest).head?.any p = rest.head?.any q := by
  cases rest with
  | nil => rfl
  | cons c rest =>
    obtain ⟨b, bytes, hbytes⟩ := utf8EncodeChar_cons c
    rw [encode, List.flatMap_cons, hbytes, List.cons_append, List.head?_cons, List.head?_cons,
      Option.any_some, Option.any_some, h c b (hbytes ▸ List.mem_cons_self)]

theorem okAfter_eq (front rest : Str) :
    okAfter (front ++ rest) (utf8Len front) = !rest.head?.any isPathTokenChar := by
  rw [okAfter, byteAt_front, (bytewise_pathToken).head]

theorem okBefore_eq (front rest : Str) :
    okBefore (front ++ rest) (utf8Len front) = !front.getLast?.any isPathTokenChar := by
  obtain rfl | ⟨init, c, rfl⟩ := List.eq_nil_or_concat' front
  · rfl
  · have hpos : utf8Len (init ++ [c]) ≠ 0 := (utf8Len_pos (by simp)).ne'
    have hlen : utf8Len (init ++ [c]) = (encode (init ++ [c])).length := (length_encode _).symm
    -- the byte in front is the last one of the last character
    obtain ⟨bytes, b, hbytes⟩ : ∃ bytes b, String.utf8EncodeChar c = bytes ++ [b] := by
      obtain hnil | hconcat := List.eq_nil_or_concat' (String.utf8EncodeChar c)
      · obtain ⟨b, bytes, hbytes⟩ := utf8EncodeChar_cons c
        rw [hnil] at hbytes
        cases hbytes
      · exact hconcat
    have hencode : encode (init ++ [c]) = encode init ++ bytes ++ [b] := by
      rw [encode_append, encode, encode, List.flatMap_cons, hbytes]
      simp
    have hbyte : byteAt (init ++ [c] ++ rest) (utf8Len (init ++ [c]) - 1) = some b := by
      rw [byteAt, encode_append, hlen, hencode, List.length_append, List.length_singleton,
        Nat.add_sub_cancel, List.append_assoc, List.getElem?_append_right (Nat.le_refl _),
        Nat.sub_self]
      rfl
    rw [okBefore, beq_eq_false_iff_ne.2 hpos, Bool.false_or, hbyte, Option.any_some,
      List.getLast?_concat, Option.any_some,
      bytewise_pathToken c b (hbytes ▸ List.mem_append_right _ List.mem_cons_self)]

theorem byteAt_slash_iff (front rest : Str) :
    byteAt (front ++ rest) (utf8Len front) = some slashByte ↔ rest.head? = some '/' := by
  rw [byteAt_front]
  cases rest with
  | nil => exact iff_of_false (fun h => by cases h) fun h => by cases h
  | cons c rest =>
    constructor
    · intro h
      rw [encode, List.flatMap_cons] at h
      obtain ⟨b, bytes, hbytes⟩ := utf8EncodeChar_cons c
      rw [hbytes, List.cons_append, List.head?_cons] at h
      have hmem : slashByte ∈ String.utf8EncodeChar c := by
        rw [hbytes, Option.some.inj h]
        exact List.mem_cons_self
      rw [List.head?_cons, (utf8EncodeChar_of_ascii (by decide) hmem).2]
      rfl
    · intro h
      rw [Option.some.inj h]
      rfl

theorem pathTokenEnd_eq (front rest : Str) :
    pathTokenEnd (encode (front ++ '/' :: rest)) (utf8Len front) =
      utf8Len front + utf8Len (('/' :: rest).takeWhile inToken) := by
  have hencode : encode (front ++ '/' :: rest) = encode front ++ slashByte :: encode rest := by
    rw [encode_append]
    rfl
  have hdrop : (encode (front ++ '/' :: rest)).drop (utf8Len front + 1) = encode rest := by
    rw [hencode, ← length_encode, List.drop_length_add_append]
    rfl
  rw [pathTokenEnd, hdrop, (bytewise_inToken).takeWhile, length_encode,
    List.takeWhile_cons_of_pos (by rfl), utf8Len_cons, Nat.add_assoc]
  rfl

end Characters

section Loop

variable {rule : Str → ℕ → Option (Option (ℕ × Str))} {cut : Option Char → Str → ℕ}
  {f : Str → Str} {text : Str}

/-- The rule finds the tokens of `cut`. -/
def Finds (rule : Str → ℕ → Option (Option (ℕ × Str))) (cut : Option Char → Str → ℕ)
    (f : Str → Str) (text : Str) : Prop :=
  ∀ front rest, text = front ++ rest → rest ≠ [] →
    rule text (utf8Len front) = some (
      if cut front.getLast? rest = 0 then none
      else some (utf8Len (front ++ rest.take (cut front.getLast? rest)),
        f (rest.take (cut front.getLast? rest))))

theorem scanLoop_eq (h : Finds rule cut f text) (prev : Option Char) (rest : Str) :
    ∀ front fuel out, text = front ++ rest → prev = front.getLast? → rest.length < fuel →
      ∃ out', scanLoop rule text fuel (utf8Len front) out = some out' ∧
        out'.getD text = out.getD front ++ render f (pieces cut prev rest) := by
  induction prev, rest using pieces.induct cut with
  | case1 prev =>
    intro front fuel out htext hprev hfuel
    obtain ⟨fuel, rfl⟩ := Nat.exists_eq_succ_of_ne_zero (Nat.ne_of_gt hfuel)
    rw [List.append_nil] at htext
    rw [scanLoop, htext, if_neg (Nat.lt_irrefl _), pieces, render, List.append_nil]
    exact ⟨out, rfl, rfl⟩
  | case2 prev c rest hcut ih =>
    intro front fuel out htext hprev hfuel
    obtain ⟨fuel, rfl⟩ := Nat.exists_eq_succ_of_ne_zero (Nat.ne_of_gt (Nat.zero_lt_of_lt hfuel))
    have hlt : utf8Len front < utf8Len text := by
      rw [htext, utf8Len_append]
      exact Nat.lt_add_of_pos_right (utf8Len_pos (List.cons_ne_nil _ _))
    have hrule := h front (c :: rest) htext (List.cons_ne_nil _ _)
    rw [← hprev, if_pos hcut] at hrule
    have hpush : pushCharAt text (utf8Len front) out = (c.utf8Size, out.map (· ++ [c])) := by
      rw [pushCharAt, splitAtByte_eq_some_iff.2 ⟨htext, rfl⟩]
      rfl
    have hnext : utf8Len front + c.utf8Size = utf8Len (front ++ [c]) := by
      rw [utf8Len_append, utf8Len_cons, utf8Len_nil, Nat.add_zero]
    obtain ⟨out', hrun, hout⟩ := ih (front ++ [c]) fuel (out.map (· ++ [c]))
      (by rw [htext, List.append_assoc]; rfl) List.getLast?_concat.symm
      (by rw [List.length_cons] at hfuel; omega)
    refine ⟨out', ?_, ?_⟩
    · rw [scanLoop, if_pos hlt, hrule, Option.bind_some]
      dsimp only
      rw [hpush, hnext]
      exact hrun
    · rw [hout, pieces_kept hcut, render]
      cases out with
      | none => exact List.append_assoc _ _ _
      | some buffer => exact List.append_assoc _ _ _
  | case3 prev c rest hcut ih =>
    intro front fuel out htext hprev hfuel
    obtain ⟨fuel, rfl⟩ := Nat.exists_eq_succ_of_ne_zero (Nat.ne_of_gt (Nat.zero_lt_of_lt hfuel))
    have hlt : utf8Len front < utf8Len text := by
      rw [htext, utf8Len_append]
      exact Nat.lt_add_of_pos_right (utf8Len_pos (List.cons_ne_nil _ _))
    have hrule := h front (c :: rest) htext (List.cons_ne_nil _ _)
    rw [← hprev, if_neg hcut] at hrule
    have htoken : (c :: rest).take (cut prev (c :: rest)) ≠ [] := by
      rw [Ne, List.take_eq_nil_iff, not_or]
      exact ⟨hcut, List.cons_ne_nil _ _⟩
    obtain ⟨out', hrun, hout⟩ := ih (front ++ (c :: rest).take (cut prev (c :: rest))) fuel
      (some (out.getD front ++ f ((c :: rest).take (cut prev (c :: rest)))))
      (by rw [htext, List.append_assoc, List.take_append_drop])
      (by rw [List.getLast?_append_of_ne_nil _ htoken])
      (by rw [List.length_drop]; rw [List.length_cons] at hfuel ⊢; omega)
    refine ⟨out', ?_, ?_⟩
    · rw [scanLoop, if_pos hlt, hrule, Option.bind_some]
      dsimp only
      rw [splitAtByte_eq_some_iff.2 ⟨htext, rfl⟩, Option.bind_some]
      exact hrun
    · rw [hout, pieces_token (List.cons_ne_nil _ _) hcut, render, Option.getD_some,
        List.append_assoc]

/-- A scan ends, slices at boundaries only, and rewrites the tokens and nothing else. -/
theorem scanText_eq (h : Finds rule cut f text) :
    scanText rule text = some (render f (pieces cut none text)) := by
  obtain ⟨out, hrun, hout⟩ := scanLoop_eq h none text [] (utf8Len text + 1) none rfl rfl
    (Nat.lt_succ_of_le (length_le_utf8Len text))
  rw [scanText]
  rw [utf8Len_nil] at hrun
  rw [hrun, Option.map_some, hout]
  rfl

end Loop

section Tokens

/-- An absolute path token starts at a slash that no token character stands before. -/
def inboundCut : Option Char → Str → ℕ := runCut (· == '/') isPathTokenChar inToken

def outboundCut (source : Str) (prev : Option Char) (rest : Str) : ℕ :=
  if startsWith rest source && !prev.any isPathTokenChar &&
      !(rest.drop source.length).head?.any isPathTokenChar then source.length
  else 0

theorem finds_inboundRule (v : PathVirtualization) (text : Str) :
    Finds v.inboundRule inboundCut v.toGuest text := by
  rintro front rest rfl hne
  rw [PathVirtualization.inboundRule, inboundCut]
  have hcond : (byteAt (front ++ rest) (utf8Len front) = some slashByte ∧
      okBefore (front ++ rest) (utf8Len front) = true) ↔
      rest.head? = some '/' ∧ (!front.getLast?.any isPathTokenChar) = true := by
    rw [byteAt_slash_iff, okBefore_eq]
  by_cases hstart : rest.head? = some '/' ∧ (!front.getLast?.any isPathTokenChar) = true
  · rw [if_pos (hcond.2 hstart)]
    obtain ⟨s, rfl⟩ : ∃ s, rest = '/' :: s := List.head?_eq_some_iff.1 hstart.1
    have hcut : runCut (· == '/') isPathTokenChar inToken front.getLast? ('/' :: s) =
        (('/' :: s).takeWhile inToken).length := by
      rw [runCut, hstart.2, Bool.and_true]
      exact if_pos (by rfl)
    have htake : ('/' :: s).take (('/' :: s).takeWhile inToken).length =
        ('/' :: s).takeWhile inToken :=
      (List.prefix_iff_eq_take.1 (List.takeWhile_prefix inToken)).symm
    have hpos : (('/' :: s).takeWhile inToken).length ≠ 0 := by
      rw [List.takeWhile_cons_of_pos (by rfl)]
      exact Nat.succ_ne_zero _
    have hslice : sliceBytes (front ++ '/' :: s) (utf8Len front)
        (utf8Len front + utf8Len (('/' :: s).takeWhile inToken)) =
          some (('/' :: s).takeWhile inToken) := by
      refine sliceBytes_eq_some_iff.2 ⟨front, ('/' :: s).dropWhile inToken, ?_, rfl, rfl⟩
      rw [List.append_assoc, List.takeWhile_append_dropWhile]
    dsimp only
    rw [pathTokenEnd_eq, hslice, hcut, if_neg hpos, htake, utf8Len_append]
    rfl
  · have hcut : runCut (· == '/') isPathTokenChar inToken front.getLast? rest = 0 := by
      rw [runCut]
      refine if_neg fun hboth => hstart ?_
      rw [Bool.and_eq_true] at hboth
      refine ⟨?_, hboth.2⟩
      cases rest with
      | nil => exact absurd rfl hne
      | cons c s =>
        rw [List.head?_cons, beq_iff_eq.1 hboth.1]
    rw [if_neg fun h => hstart (hcond.1 h), if_pos hcut]

theorem finds_outboundRule {source : Str} (hsource : source ≠ []) (target text : Str) :
    Finds (outboundRule source target) (outboundCut source) (fun _ => target) text := by
  rintro front rest rfl hne
  rw [outboundRule, splitAtByte_eq_some_iff.2 ⟨rfl, rfl⟩, Option.map_some, outboundCut, okBefore_eq]
  dsimp only
  cases hstarts : startsWith rest source with
  | false => simp
  | true =>
    obtain ⟨rest, rfl⟩ := List.isPrefixOf_iff_prefix.1 hstarts
    have hafter : okAfter (front ++ (source ++ rest)) (utf8Len front + utf8Len source) =
        !rest.head?.any isPathTokenChar := by
      rw [← List.append_assoc, ← utf8Len_append, okAfter_eq]
    have hlength : source.length ≠ 0 := fun h => hsource (List.length_eq_zero_iff.1 h)
    rw [hafter, List.drop_left, Bool.true_and]
    split
    · rw [List.take_left, utf8Len_append]
    · rfl

theorem rewriteTextInbound_eq (v : PathVirtualization) (text : Str) :
    v.rewriteTextInbound text = some (render v.toGuest (pieces inboundCut none text)) := by
  rw [PathVirtualization.rewriteTextInbound]
  split
  · exact scanText_eq (finds_inboundRule v text)
  · next hslash =>
    rw [render_of_no_cut]
    intro prev rest hrest
    cases rest with
    | nil => rfl
    | cons c s =>
      refine (runCut_cons_eq_zero_iff (fun a ha => ?_)).2 fun hc => ?_
      · rw [beq_iff_eq.1 ha]
        rfl
      · exact absurd (beq_iff_eq.1 hc ▸ hrest.subset List.mem_cons_self) hslash

theorem realRoot_ne_empty (v : PathVirtualization) : v.realRoot ≠ [] := by
  rw [PathVirtualization.realRoot_eq_rootedText]
  exact List.cons_ne_nil _ _

theorem rewriteTextOutbound_eq (v : PathVirtualization) (text : Str) :
    v.rewriteTextOutbound text =
      some (render (fun _ => visibleRoot) (pieces (outboundCut v.realRoot) none text)) := by
  have hempty : v.realRoot.isEmpty = false := by simpa using realRoot_ne_empty v
  rw [PathVirtualization.rewriteTextOutbound, replacePathPrefixInText, hempty, Bool.false_or]
  split
  · next hnot =>
    rw [render_of_no_cut]
    intro prev rest hrest
    refine if_neg fun hboth => ?_
    simp only [Bool.and_eq_true] at hboth
    have hstarts := List.isPrefixOf_iff_prefix.1 hboth.1.1
    exact (of_decide_eq_true hnot) (hstarts.isInfix.trans hrest.isInfix)
  · exact scanText_eq (finds_outboundRule (realRoot_ne_empty v) visibleRoot text)

end Tokens

end GrokBuild.Workspace
