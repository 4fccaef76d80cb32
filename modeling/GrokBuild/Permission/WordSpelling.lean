import GrokBuild.Permission.CommandWords
import GrokBuild.Text.Lines

/-!
# How a literal word is spelled

A word of a script is spelled with backslash escapes and with single- and double-quoted parts, and
the shell removes the quoting. Three decoders do the same on the source text, each on one kind of
node, except that a word that looks like a Windows path keeps its backslashes.
-/

namespace GrokBuild.Permission
open Text

inductive ArgText
  | literal (text : Str)
  | ambiguous
deriving DecidableEq

inductive NodeKind
  | variableAssignment
  | word
  | number
  | rawString
  | string
  | concatenation
  | other
deriving DecidableEq

/-- What `shell_node_arg` reads of a syntax node. -/
structure WordNode where
  kind : NodeKind
  text : Str
  hasExpansion : Bool

def isWindowsPathLike (raw : Str) : Bool :=
  startsWith raw "\\\\".toList || (raw.head?.any Char.isAlpha && raw[1]? == some ':')

def decodeUnquotedChars : Str → Option Str
  | [] => some []
  | c :: rest =>
    if c = '\\' then
      match rest with
      | [] => none
      | n :: rest => (decodeUnquotedChars rest).map (n :: ·)
    else (decodeUnquotedChars rest).map (c :: ·)

def decodeUnquotedWord (raw : Str) : Option Str :=
  if !raw.contains '\\' then some raw
  else if isWindowsPathLike raw then some raw
  else decodeUnquotedChars raw

def foldsInDoubleQuotes (c : Char) : Bool := "$`\"\\\n".toList.contains c

def decodeDoubleQuotedChars : Str → Option Str
  | [] => some []
  | c :: rest =>
    if c = '\\' then
      match rest with
      | [] => none
      | n :: rest =>
        (decodeDoubleQuotedChars rest).map fun out =>
          if foldsInDoubleQuotes n then n :: out else '\\' :: n :: out
    else (decodeDoubleQuotedChars rest).map (c :: ·)

def decodeDoubleQuotedContent (content : Str) : Option Str :=
  if !content.contains '\\' then some content else decodeDoubleQuotedChars content

/-- The text between two quotes, or the whole text when they are not there. -/
def stripQuotes (quote : Char) (raw : Str) : Str :=
  ((stripPrefix raw [quote]).bind fun s => stripSuffix s [quote]).getD raw

def literalOrAmbiguous (text : Option Str) : ArgText :=
  match text with
  | some literal => .literal literal
  | none => .ambiguous

def shellNodeArg (node : WordNode) : Option ArgText :=
  match node.kind with
  | .variableAssignment => none
  | .word | .number => some (literalOrAmbiguous (decodeUnquotedWord node.text))
  | .rawString => some (.literal (stripQuotes '\'' node.text))
  | .string =>
    if node.hasExpansion then some .ambiguous
    else some (literalOrAmbiguous (decodeDoubleQuotedContent (stripQuotes '"' node.text)))
  | .concatenation =>
    if node.hasExpansion then some .ambiguous
    else some (literalOrAmbiguous (decodeShellLiteralSpelling node.text))
  | .other => some .ambiguous

/-! ## Spellings -/

/-- A character between double quotes. -/
inductive QuotedChar
  | plain (c : Char)
  | escaped (c : Char)
deriving DecidableEq

inductive SpellingPart
  | plain (c : Char)
  | escaped (c : Char)
  | single (content : Str)
  | double (content : List QuotedChar)
deriving DecidableEq

abbrev Spelling := List SpellingPart

namespace QuotedChar

def render : QuotedChar → Str
  | plain c => [c]
  | escaped c => ['\\', c]

/-- What the shell makes of it: a backslash goes only in front of the characters it escapes, and with
a newline both go. -/
def value : QuotedChar → Str
  | plain c => [c]
  | escaped c =>
    if c = '\n' then [] else if "$`\"\\".toList.contains c then [c] else ['\\', c]

def Valid : QuotedChar → Prop
  | plain c => c ∉ "\\\"$`".toList
  | escaped _ => True

def continuesLine : QuotedChar → Bool
  | plain _ => false
  | escaped c => c == '\n'

end QuotedChar

namespace SpellingPart

def render : SpellingPart → Str
  | plain c => [c]
  | escaped c => ['\\', c]
  | single content => '\'' :: content ++ ['\'']
  | double content => '"' :: content.flatMap QuotedChar.render ++ ['"']

def value : SpellingPart → Str
  | plain c => [c]
  | escaped c => if c = '\n' then [] else [c]
  | single content => content
  | double content => content.flatMap QuotedChar.value

/-- No part of the text is quoting by accident or expands. -/
def Valid : SpellingPart → Prop
  | plain c => c ∉ "\\'\"$`".toList
  | escaped _ => True
  | single content => '\'' ∉ content
  | double content => ∀ c ∈ content, c.Valid

def continuesLine : SpellingPart → Bool
  | plain _ | single _ => false
  | escaped c => c == '\n'
  | double content => content.any QuotedChar.continuesLine

def isUnquoted : SpellingPart → Bool
  | plain _ | escaped _ => true
  | single _ | double _ => false

end SpellingPart

namespace Spelling

def render (s : Spelling) : Str := s.flatMap SpellingPart.render

/-- The word after quote removal. -/
def value (s : Spelling) : Str := s.flatMap SpellingPart.value

def Valid (s : Spelling) : Prop := ∀ part ∈ s, part.Valid

def continuesLine (s : Spelling) : Bool := s.any SpellingPart.continuesLine

def isUnquoted (s : Spelling) : Bool := s.all SpellingPart.isUnquoted

end Spelling

/-! ## The decoders -/

theorem decodeShellLoop_escape (n : Char) (out rest : Str) :
    decodeShellLoop (some '"') out ('\\' :: n :: rest) =
      decodeShellLoop (some '"') (if foldsInDoubleQuotes n then n :: out else n :: '\\' :: out) rest := by
  rw [decodeShellLoop.eq_def]
  unfold foldsInDoubleQuotes
  simp only [Char.reduceBEq, Bool.false_eq_true, if_false, beq_self_eq_true, Bool.and_self, if_true]
  split
  · rfl
  · rfl

theorem foldsInDoubleQuotes_of_ne {c : Char} (h : c ≠ '\n') :
    foldsInDoubleQuotes c = "$`\"\\".toList.contains c := by
  simp [foldsInDoubleQuotes, h]

theorem decodeShellLoop_double (content : List QuotedChar) (hvalid : ∀ c ∈ content, c.Valid)
    (hline : content.any QuotedChar.continuesLine = false) (out rest : Str) :
    decodeShellLoop (some '"') out (content.flatMap QuotedChar.render ++ rest) =
      decodeShellLoop (some '"') ((content.flatMap QuotedChar.value).reverse ++ out) rest := by
  induction content generalizing out with
  | nil => rfl
  | cons first content ih =>
    obtain ⟨hfirst, hcontent⟩ := List.forall_mem_cons.mp hvalid
    rw [List.any_cons, Bool.or_eq_false_iff] at hline
    obtain ⟨hnl, hline⟩ := hline
    rw [List.flatMap_cons, List.flatMap_cons, List.append_assoc, List.reverse_append, List.append_assoc,
      ← ih hcontent hline]
    cases first with
    | plain c =>
      have hc : c ≠ '\\' ∧ c ≠ '"' := by
        simp [QuotedChar.Valid] at hfirst
        exact ⟨hfirst.1, hfirst.2.1⟩
      exact decodeShellLoop_quoted hc.2 (fun _ => hc.1) out _
    | escaped c =>
      have hnl' : c ≠ '\n' := by simpa [QuotedChar.continuesLine] using hnl
      simp only [QuotedChar.render, QuotedChar.value, if_neg hnl', List.cons_append, List.nil_append]
      rw [decodeShellLoop_escape, foldsInDoubleQuotes_of_ne hnl']
      split
      · rfl
      · rfl

theorem decodeShellLoop_single (content : Str) (hvalid : '\'' ∉ content) (out rest : Str) :
    decodeShellLoop (some '\'') out (content ++ rest) =
      decodeShellLoop (some '\'') (content.reverse ++ out) rest := by
  induction content generalizing out with
  | nil => rfl
  | cons c content ih =>
    rw [List.mem_cons, not_or] at hvalid
    obtain ⟨hc, hcontent⟩ := hvalid
    rw [List.cons_append, decodeShellLoop_quoted (Ne.symm hc) (fun h => absurd h (by decide)), ih hcontent,
      List.reverse_cons, List.append_assoc]
    rfl

/-- The loop reads one part and appends its value. -/
theorem decodeShellLoop_part {part : SpellingPart} (hvalid : part.Valid)
    (hline : part.continuesLine = false) (out rest : Str) :
    decodeShellLoop none out (part.render ++ rest) =
      decodeShellLoop none (part.value.reverse ++ out) rest := by
  cases part with
  | plain c =>
    simp [SpellingPart.Valid] at hvalid
    exact decodeShellLoop_unquoted ⟨hvalid.2.1, hvalid.2.2.1, hvalid.1⟩ out rest
  | escaped c =>
    have hnl : c ≠ '\n' := by simpa [SpellingPart.continuesLine] using hline
    rw [SpellingPart.value, if_neg hnl]
    exact decodeShellLoop_backslash c out rest
  | single content =>
    simp only [SpellingPart.render, SpellingPart.value, List.cons_append, List.append_assoc,
      List.nil_append]
    rw [decodeShellLoop_open rfl, decodeShellLoop_single content hvalid, decodeShellLoop_close]
  | double content =>
    simp only [SpellingPart.render, SpellingPart.value, List.cons_append, List.append_assoc,
      List.nil_append]
    rw [decodeShellLoop_open rfl, decodeShellLoop_double content hvalid hline, decodeShellLoop_close]

theorem decodeShellLoop_render {s : Spelling} (hvalid : s.Valid) (hline : s.continuesLine = false)
    (out rest : Str) :
    decodeShellLoop none out (s.render ++ rest) = decodeShellLoop none (s.value.reverse ++ out) rest := by
  induction s generalizing out with
  | nil => rfl
  | cons part s ih =>
    obtain ⟨hpart, hvalid⟩ := List.forall_mem_cons.mp hvalid
    rw [Spelling.continuesLine, List.any_cons, Bool.or_eq_false_iff] at hline
    have hrender : Spelling.render (part :: s) = part.render ++ Spelling.render s := rfl
    have hvalue : Spelling.value (part :: s) = part.value ++ Spelling.value s := rfl
    rw [hrender, hvalue, List.append_assoc, decodeShellLoop_part hpart hline.1, ih hvalid hline.2,
      List.reverse_append, List.append_assoc]

theorem decodeShellLiteralSpelling_render {s : Spelling} (hvalid : s.Valid)
    (hline : s.continuesLine = false) : decodeShellLiteralSpelling s.render = some s.value := by
  have h := decodeShellLoop_render hvalid hline [] []
  rw [List.append_nil, List.append_nil] at h
  rw [decodeShellLiteralSpelling, h, decodeShellLoop, List.reverse_reverse]

theorem decodeUnquotedChars_part {part : SpellingPart} (hvalid : part.Valid)
    (hline : part.continuesLine = false) (hunquoted : part.isUnquoted = true) (rest : Str) :
    decodeUnquotedChars (part.render ++ rest) = (decodeUnquotedChars rest).map (part.value ++ ·) := by
  cases part with
  | plain c =>
    have hc : c ≠ '\\' := by
      simp [SpellingPart.Valid] at hvalid
      exact hvalid.1
    simp only [SpellingPart.render, SpellingPart.value, List.cons_append, List.nil_append,
      decodeUnquotedChars.eq_def (c :: rest), if_neg hc]
  | escaped c =>
    have hnl : c ≠ '\n' := by simpa [SpellingPart.continuesLine] using hline
    simp only [SpellingPart.render, SpellingPart.value, if_neg hnl, List.cons_append, List.nil_append,
      decodeUnquotedChars.eq_def ('\\' :: c :: rest), if_true]
  | single content => cases hunquoted
  | double content => cases hunquoted

theorem decodeUnquotedChars_render {s : Spelling} (hvalid : s.Valid) (hline : s.continuesLine = false)
    (hunquoted : s.isUnquoted = true) : decodeUnquotedChars s.render = some s.value := by
  induction s with
  | nil => rfl
  | cons part s ih =>
    obtain ⟨hpart, hvalid⟩ := List.forall_mem_cons.mp hvalid
    rw [Spelling.continuesLine, List.any_cons, Bool.or_eq_false_iff] at hline
    rw [Spelling.isUnquoted, List.all_cons, Bool.and_eq_true] at hunquoted
    have hrender : Spelling.render (part :: s) = part.render ++ Spelling.render s := rfl
    rw [hrender, decodeUnquotedChars_part hpart hline.1 hunquoted.1, ih hvalid hline.2 hunquoted.2]
    rfl

theorem decodeUnquotedChars_plain {raw : Str} (h : '\\' ∉ raw) : decodeUnquotedChars raw = some raw := by
  induction raw with
  | nil => rfl
  | cons c raw ih =>
    rw [List.mem_cons, not_or] at h
    rw [decodeUnquotedChars.eq_def]
    simp only [if_neg (Ne.symm h.1), ih h.2, Option.map_some]

/-- An unquoted word is decoded as the shell does, unless it looks like a Windows path. -/
theorem decodeUnquotedWord_render {s : Spelling} (hvalid : s.Valid) (hline : s.continuesLine = false)
    (hunquoted : s.isUnquoted = true) : decodeUnquotedWord s.render =
      some (if isWindowsPathLike s.render then s.render else s.value) := by
  have hchars := decodeUnquotedChars_render hvalid hline hunquoted
  unfold decodeUnquotedWord
  by_cases hslash : '\\' ∈ s.render
  · rw [if_neg (by simpa using hslash)]
    split
    · rfl
    · exact hchars
  · rw [decodeUnquotedChars_plain hslash, Option.some_inj] at hchars
    rw [if_pos (by simpa using hslash), ← hchars, ite_self]

theorem decodeDoubleQuotedChars_part {c : QuotedChar} (hvalid : c.Valid)
    (hline : c.continuesLine = false) (rest : Str) :
    decodeDoubleQuotedChars (c.render ++ rest) = (decodeDoubleQuotedChars rest).map (c.value ++ ·) := by
  cases c with
  | plain c =>
    have hc : c ≠ '\\' := by
      simp [QuotedChar.Valid] at hvalid
      exact hvalid.1
    simp only [QuotedChar.render, QuotedChar.value, List.cons_append, List.nil_append,
      decodeDoubleQuotedChars.eq_def (c :: rest), if_neg hc]
  | escaped c =>
    have hnl : c ≠ '\n' := by simpa [QuotedChar.continuesLine] using hline
    simp only [QuotedChar.render, QuotedChar.value, if_neg hnl, List.cons_append, List.nil_append,
      decodeDoubleQuotedChars.eq_def ('\\' :: c :: rest), if_true, foldsInDoubleQuotes_of_ne hnl]
    congr 1
    funext out
    split
    · rfl
    · rfl

theorem decodeDoubleQuotedChars_render {content : List QuotedChar} (hvalid : ∀ c ∈ content, c.Valid)
    (hline : content.any QuotedChar.continuesLine = false) :
    decodeDoubleQuotedChars (content.flatMap QuotedChar.render) =
      some (content.flatMap QuotedChar.value) := by
  induction content with
  | nil => rfl
  | cons c content ih =>
    obtain ⟨hc, hvalid⟩ := List.forall_mem_cons.mp hvalid
    rw [List.any_cons, Bool.or_eq_false_iff] at hline
    rw [List.flatMap_cons, decodeDoubleQuotedChars_part hc hline.1, ih hvalid hline.2]
    rfl

theorem decodeDoubleQuotedChars_plain {raw : Str} (h : '\\' ∉ raw) :
    decodeDoubleQuotedChars raw = some raw := by
  induction raw with
  | nil => rfl
  | cons c raw ih =>
    rw [List.mem_cons, not_or] at h
    rw [decodeDoubleQuotedChars.eq_def]
    simp only [if_neg (Ne.symm h.1), ih h.2, Option.map_some]

theorem decodeDoubleQuotedContent_render {content : List QuotedChar} (hvalid : ∀ c ∈ content, c.Valid)
    (hline : content.any QuotedChar.continuesLine = false) :
    decodeDoubleQuotedContent (content.flatMap QuotedChar.render) =
      some (content.flatMap QuotedChar.value) := by
  have hchars := decodeDoubleQuotedChars_render hvalid hline
  unfold decodeDoubleQuotedContent
  by_cases hslash : '\\' ∈ content.flatMap QuotedChar.render
  · rw [if_neg (by simpa using hslash)]
    exact hchars
  · rw [if_pos (by simpa using hslash), ← hchars, decodeDoubleQuotedChars_plain hslash]

/-! ## Nodes -/

/-- The node is one that a parser makes of the spelling. -/
def NodeOf (s : Spelling) (node : WordNode) : Prop :=
  node.text = s.render ∧
    match node.kind with
    | .word | .number => s.isUnquoted = true
    | .rawString => ∃ content, s = [.single content]
    | .string => ∃ content, s = [.double content]
    | .concatenation | .other => True
    | .variableAssignment => False

/-- An unquoted word that keeps its backslashes. -/
def KeepsBackslashes (s : Spelling) (node : WordNode) : Prop :=
  (node.kind = .word ∨ node.kind = .number) ∧ isWindowsPathLike s.render = true

theorem stripQuotes_quoted (quote : Char) (s : Str) : stripQuotes quote (quote :: s ++ [quote]) = s := by
  have hprefix : stripPrefix (quote :: s ++ [quote]) [quote] = some (s ++ [quote]) := by
    simp [stripPrefix, startsWith]
  rw [stripQuotes, hprefix, Option.bind_some, stripSuffix_append]
  rfl

theorem shellNodeArg_of_spelling {s : Spelling} (hvalid : s.Valid) (hline : s.continuesLine = false)
    {node : WordNode} (hnode : NodeOf s node) (hkeep : ¬ KeepsBackslashes s node) :
    shellNodeArg node = some (.literal s.value) ∨ shellNodeArg node = some .ambiguous := by
  obtain ⟨kind, text, hasExpansion⟩ := node
  obtain ⟨htext, hkind⟩ := hnode
  simp only at htext
  subst htext
  have hword (hunquoted : s.isUnquoted = true) (hlike : isWindowsPathLike s.render = false) :
      decodeUnquotedWord s.render = some s.value := by
    rw [decodeUnquotedWord_render hvalid hline hunquoted, hlike, if_neg Bool.false_ne_true]
  cases kind with
  | variableAssignment => cases hkind
  | word =>
    have hlike : isWindowsPathLike s.render = false :=
      Bool.eq_false_iff.mpr fun h => hkeep ⟨Or.inl rfl, h⟩
    left
    simp only [shellNodeArg, hword hkind hlike, literalOrAmbiguous]
  | number =>
    have hlike : isWindowsPathLike s.render = false :=
      Bool.eq_false_iff.mpr fun h => hkeep ⟨Or.inr rfl, h⟩
    left
    simp only [shellNodeArg, hword hkind hlike, literalOrAmbiguous]
  | rawString =>
    obtain ⟨content, rfl⟩ := hkind
    left
    have hrender : Spelling.render [.single content] = '\'' :: content ++ ['\''] := by
      simp [Spelling.render, SpellingPart.render]
    have hvalue : Spelling.value [.single content] = content := by
      simp [Spelling.value, SpellingPart.value]
    rw [hrender, hvalue]
    simp only [shellNodeArg, stripQuotes_quoted]
  | string =>
    obtain ⟨content, rfl⟩ := hkind
    have hcontent : ∀ c ∈ content, c.Valid := hvalid _ List.mem_cons_self
    have hany : content.any QuotedChar.continuesLine = false := by
      simpa [Spelling.continuesLine, SpellingPart.continuesLine] using hline
    cases hasExpansion with
    | true => exact Or.inr rfl
    | false =>
      left
      have hrender : Spelling.render [.double content] =
          '"' :: content.flatMap QuotedChar.render ++ ['"'] := by
        simp [Spelling.render, SpellingPart.render]
      have hvalue : Spelling.value [.double content] = content.flatMap QuotedChar.value := by
        simp [Spelling.value, SpellingPart.value]
      rw [hrender, hvalue]
      simp only [shellNodeArg, stripQuotes_quoted, decodeDoubleQuotedContent_render hcontent hany]
      rfl
  | concatenation =>
    cases hasExpansion with
    | true => exact Or.inr rfl
    | false =>
      left
      simp only [shellNodeArg, decodeShellLiteralSpelling_render hvalid hline]
      rfl
  | other => exact Or.inr rfl

/-- The decoders agree with quote removal, and so with one another, on every spelling without a line
continuation, but for unquoted words that look like Windows paths; and two such spellings of one
word give the rules the same literal. -/
theorem decoders_eq_quoteRemoval (s : Spelling) (hvalid : s.Valid) (hline : s.continuesLine = false) :
    decodeShellLiteralSpelling s.render = some s.value ∧
      (s.isUnquoted = true → decodeUnquotedWord s.render =
        some (if isWindowsPathLike s.render then s.render else s.value)) ∧
      (∀ content, s = [.double content] →
        decodeDoubleQuotedContent (content.flatMap QuotedChar.render) = some s.value) ∧
      ∀ node, NodeOf s node → ¬ KeepsBackslashes s node →
        ∀ t : Spelling, t.Valid → t.continuesLine = false → t.value = s.value →
          ∀ node', NodeOf t node' → ¬ KeepsBackslashes t node' →
            ∀ text text', shellNodeArg node = some (.literal text) →
              shellNodeArg node' = some (.literal text') → text = text' := by
  refine ⟨decodeShellLiteralSpelling_render hvalid hline, decodeUnquotedWord_render hvalid hline, ?_, ?_⟩
  · rintro content rfl
    have hcontent : ∀ c ∈ content, c.Valid := hvalid _ List.mem_cons_self
    have hany : content.any QuotedChar.continuesLine = false := by
      simpa [Spelling.continuesLine, SpellingPart.continuesLine] using hline
    rw [decodeDoubleQuotedContent_render hcontent hany]
    simp [Spelling.value, SpellingPart.value]
  · intro node hnode hkeep t htvalid htline hvalue node' hnode' hkeep' text text' htext htext'
    have hvalueOf {s : Spelling} (hvalid : s.Valid) (hline : s.continuesLine = false) {node : WordNode}
        (hnode : NodeOf s node) (hkeep : ¬ KeepsBackslashes s node) {text : Str}
        (htext : shellNodeArg node = some (.literal text)) : text = s.value := by
      obtain h | h := shellNodeArg_of_spelling hvalid hline hnode hkeep
      · rw [htext] at h
        exact ArgText.literal.inj (Option.some_inj.mp h)
      · rw [htext] at h
        cases h
    rw [hvalueOf hvalid hline hnode hkeep htext, hvalueOf htvalid htline hnode' hkeep' htext', hvalue]

/-- `a\b"c\d"'e'`: an escape outside quotes goes, one between double quotes stays. -/
theorem decoders_on_mixed_quotes :
    decodeShellLiteralSpelling "a\\b\"c\\d\"'e'".toList = some "abc\\de".toList :=
  (decoders_eq_quoteRemoval
    [.plain 'a', .escaped 'b', .double [.plain 'c', .escaped 'd'], .single ['e']]
    (by simp [Spelling.Valid, SpellingPart.Valid, QuotedChar.Valid]) (by decide)).1

/-- The word `C:\x` names `C:x` to the shell, and the decoder keeps it as it is. -/
theorem drive_letter_keeps_backslash :
    ¬ ∀ s : Spelling, s.Valid → s.isUnquoted = true →
      decodeUnquotedWord s.render = some s.value ∨ decodeUnquotedWord s.render = none := by
  intro h
  have hvalid : Spelling.Valid [.plain 'C', .plain ':', .escaped 'x'] := by
    simp [Spelling.Valid, SpellingPart.Valid]
  obtain h | h := h [.plain 'C', .plain ':', .escaped 'x'] hvalid rfl
  · revert h
    decide
  · revert h
    decide

end GrokBuild.Permission
