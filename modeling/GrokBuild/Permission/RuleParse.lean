import Mathlib
import GrokBuild.Permission.Types
import GrokBuild.Text.Slices

/-!
# Parsing a permission rule

A rule is a tool name with its content in parentheses, where a backslash escapes a parenthesis or a
backslash. The content is unescaped by three replacements of the whole text, which together are one
pass from left to right.
-/

namespace GrokBuild.Permission
open Text

/-! ## Unescaping -/

/-- `s.replace("ab", "c")` for single characters. -/
@[grind] def replacePair (a b c : Char) : Str → Str
  | x :: y :: rest =>
    if x = a ∧ y = b then c :: replacePair a b c rest else x :: replacePair a b c (y :: rest)
  | rest => rest

def unescapeRuleContent (s : Str) : Str :=
  if !s.contains '\\' then s
  else replacePair '\\' '\\' '\\' (replacePair '\\' ')' ')' (replacePair '\\' '(' '(' s))

@[grind] def isEscapable (c : Char) : Bool := c == '\\' || c == '(' || c == ')'

/-- One pass from the left: a backslash goes in front of what can be escaped. -/
@[grind] def unescape : Str → Str
  | x :: y :: rest =>
    if x = '\\' ∧ isEscapable y = true then y :: unescape rest else x :: unescape (y :: rest)
  | rest => rest

def escapeChar (c : Char) : Str := if isEscapable c then ['\\', c] else [c]

def escape (s : Str) : Str := s.flatMap escapeChar

/-! ## The parser -/

inductive RuleParseError
  | unsupportedToolPrefix (head : Str)
  | unknownToolPrefix (head : Str)
  | malformedRule (detail : Str)
deriving DecidableEq

/-- The character at `pos` is not preceded by an odd number of backslashes. -/
@[grind] def isUnescaped (s : Str) (pos : ℕ) : Bool :=
  ((s.take pos).reverse.takeWhile (· == '\\')).length % 2 == 0

def isUnescapedAt (s : Str) (target : Char) (i : ℕ) : Bool :=
  s[i]? == some target && isUnescaped s i

def findFirstUnescaped (s : Str) (target : Char) : Option ℕ :=
  (List.range s.length).find? (isUnescapedAt s target)

def findLastUnescaped (s : Str) (target : Char) : Option ℕ :=
  (List.range s.length).reverse.find? (isUnescapedAt s target)

def toolNames : List (Str × ToolFilter) :=
  [("Bash".toList, .bash), ("Read".toList, .read), ("Edit".toList, .edit), ("Write".toList, .edit),
    ("MCPTool".toList, .mcp), ("Grep".toList, .grep), ("Glob".toList, .grep),
    ("WebFetch".toList, .webFetch), ("WebSearch".toList, .webSearch),
    ("AgentMessage".toList, .agentMessage), ("SendSubagentMessage".toList, .agentMessage),
    ("SendAgentMessage".toList, .agentMessage)]

def toolNameToFilter (name : Str) : Option ToolFilter := toolNames.lookup name

def unsupportedTools : List Str :=
  ["EnterWorktree".toList, "NotebookEdit".toList, "NotebookRead".toList]

/-- A pattern without its `domain:` and the mode that goes with it. -/
def stripDomainPrefix (pattern : Str) : Str × PatternMode :=
  match stripPrefix pattern "domain:".toList with
  | some domain => (domain, .domain)
  | none => (pattern, .glob)

def stripBashColonWildcard (pattern : Str) : Str :=
  (stripSuffix pattern ":*".toList).getD pattern

def nonEmptyPattern (pattern : Str) : Option Str :=
  if pattern.isEmpty then none else some pattern

/-- A rule whose content stands between parentheses. -/
def parseContentRule (head contentAndClose : Str) (action : RuleAction) :
    Except RuleParseError PermissionRule :=
  match findLastUnescaped contentAndClose ')' with
  | none => .error (.malformedRule "missing closing parenthesis".toList)
  | some closeParen =>
    let rawContent := trim (contentAndClose.take closeParen)
    let pattern :=
      if rawContent.isEmpty || rawContent == "*".toList then [] else unescapeRuleContent rawContent
    let name := trim head
    match toolNameToFilter name with
    | none =>
      if name ∈ unsupportedTools then .error (.unsupportedToolPrefix name)
      else .error (.unknownToolPrefix name)
    | some tool =>
      let pattern := if tool = .bash then stripBashColonWildcard pattern else pattern
      let (pattern, patternMode) := stripDomainPrefix pattern
      .ok ⟨action, tool, nonEmptyPattern pattern, patternMode⟩

/-- The pattern of a rule `mcp__<server>[__<tool>]`, from what follows `mcp__`. -/
def mcpPattern (rest : Str) : Option Str :=
  if rest = "*".toList then none
  else if (splitOnce "__".toList rest).isSome then some rest
  else some (rest ++ "__*".toList)

/-- A rule without parentheses. -/
def parseNameRule (rule : Str) (action : RuleAction) : Except RuleParseError PermissionRule :=
  if rule ∈ unsupportedTools then .error (.unsupportedToolPrefix rule)
  else
    match toolNameToFilter rule with
    | some tool => .ok ⟨action, tool, none, .glob⟩
    | none =>
      match (stripPrefix rule "mcp__".toList).filter fun rest => !rest.isEmpty with
      | some rest => .ok ⟨action, .mcp, mcpPattern rest, .glob⟩
      | none => .ok ⟨action, .any, nonEmptyPattern rule, .glob⟩

def parsePermissionRule (rule : Str) (action : RuleAction) : Except RuleParseError PermissionRule :=
  let rule := trim rule
  match findFirstUnescaped rule '(' with
  | some openParen => parseContentRule (rule.take openParen) (rule.drop (openParen + 1)) action
  | none => parseNameRule rule action

/-! ## Runs of backslashes -/

section Backslashes

variable {c : Char} {s t : Str}

@[grind] def backslashes (n : ℕ) : Str := List.replicate n '\\'

@[simp] theorem backslashes_zero : backslashes 0 = [] := rfl

@[simp] theorem backslashes_succ (n : ℕ) : backslashes (n + 1) = '\\' :: backslashes n := rfl

/-- A text is a run of backslashes, or such a run before another character and a text. -/
theorem backslash_induction {P : Str → Prop} (last : ∀ n, P (backslashes n))
    (run : ∀ n c t, c ≠ '\\' → P t → P (backslashes n ++ c :: t)) (s : Str) : P s := by
  -- carry the run already read
  have key : ∀ (s : Str) (n : ℕ), P (backslashes n ++ s) := by
    intro s
    induction s with
    | nil =>
      intro n
      rw [List.append_nil]
      exact last n
    | cons c s ih =>
      intro n
      by_cases hc : c = '\\'
      · have hshift : backslashes n ++ c :: s = backslashes (n + 1) ++ s := by
          rw [hc, backslashes, backslashes, List.replicate_succ', List.append_assoc,
            List.singleton_append]
        rw [hshift]
        exact ih (n + 1)
      · exact run n c s hc (ih 0)
  exact key s 0

/-- The replacement for a parenthesis takes one backslash from the run in front of it. -/
theorem replacePair_last {b : Char} (hb : b ≠ '\\') (n : ℕ) :
    replacePair '\\' b b (backslashes n) = backslashes n := by
  induction n with
  | zero => rfl
  | succ n ih =>
    cases n with
    | zero => rfl
    | succ n =>
      have hne : ¬('\\' = '\\' ∧ '\\' = b) := fun h => hb h.2.symm
      rw [backslashes_succ, backslashes_succ, replacePair, if_neg hne, ← backslashes_succ, ih]

theorem replacePair_cons {a b d : Char} (hc : c ≠ a) (t : Str) :
    replacePair a b d (c :: t) = c :: replacePair a b d t := by
  cases t with
  | nil => rfl
  | cons y t => rw [replacePair, if_neg fun h => hc h.1]

theorem replacePair_run {b : Char} (hb : b ≠ '\\') (hc : c ≠ '\\') (n : ℕ) (t : Str) :
    replacePair '\\' b b (backslashes n ++ c :: t) =
      backslashes (if c = b then n - 1 else n) ++ c :: replacePair '\\' b b t := by
  induction n with
  | zero =>
    rw [Nat.zero_sub, ite_self]
    exact replacePair_cons hc t
  | succ n ih =>
    cases n with
    | zero =>
      by_cases hcb : c = b
      · rw [if_pos hcb, backslashes_succ, backslashes_zero, List.cons_append, List.nil_append,
          replacePair, if_pos ⟨rfl, hcb⟩, hcb]
        rfl
      · rw [if_neg hcb, backslashes_succ, backslashes_zero, List.cons_append, List.nil_append,
          replacePair, if_neg fun h => hcb h.2, replacePair_cons hc]
        rfl
    | succ n =>
      have hne : ¬('\\' = '\\' ∧ '\\' = b) := fun h => hb h.2.symm
      rw [backslashes_succ, backslashes_succ, List.cons_append, List.cons_append, replacePair,
        if_neg hne, ← List.cons_append, ← backslashes_succ, ih]
      split
      · rfl
      · rfl

/-- The last replacement halves every run. -/
theorem halve_last (n : ℕ) :
    replacePair '\\' '\\' '\\' (backslashes n) = backslashes ((n + 1) / 2) := by
  induction n using Nat.twoStepInduction with
  | zero => rfl
  | one => rfl
  | more n ih _ =>
    have hhalf : (n + 2 + 1) / 2 = (n + 1) / 2 + 1 := by omega
    rw [backslashes_succ, backslashes_succ, replacePair, if_pos ⟨rfl, rfl⟩, ih, hhalf,
      backslashes_succ]

theorem halve_run (hc : c ≠ '\\') (n : ℕ) (t : Str) :
    replacePair '\\' '\\' '\\' (backslashes n ++ c :: t) =
      backslashes ((n + 1) / 2) ++ c :: replacePair '\\' '\\' '\\' t := by
  induction n using Nat.twoStepInduction with
  | zero => exact replacePair_cons hc t
  | one =>
    have hne : ¬('\\' = '\\' ∧ c = '\\') := fun h => hc h.2
    rw [backslashes_succ, backslashes_zero, List.cons_append, List.nil_append, replacePair,
      if_neg hne, replacePair_cons hc]
    rfl
  | more n ih _ =>
    have hhalf : (n + 2 + 1) / 2 = (n + 1) / 2 + 1 := by omega
    rw [backslashes_succ, backslashes_succ, List.cons_append, List.cons_append, replacePair,
      if_pos ⟨rfl, rfl⟩, ih, hhalf, backslashes_succ, List.cons_append]

theorem unescape_cons (hc : c ≠ '\\') (t : Str) : unescape (c :: t) = c :: unescape t := by
  cases t with
  | nil => rfl
  | cons y t => rw [unescape, if_neg fun h => hc h.1]

theorem unescape_escaped (hc : isEscapable c = true) (t : Str) :
    unescape ('\\' :: c :: t) = c :: unescape t := by
  rw [unescape, if_pos ⟨rfl, hc⟩]

theorem unescape_last (n : ℕ) : unescape (backslashes n) = backslashes ((n + 1) / 2) := by
  induction n using Nat.twoStepInduction with
  | zero => rfl
  | one => rfl
  | more n ih _ =>
    have hhalf : (n + 2 + 1) / 2 = (n + 1) / 2 + 1 := by omega
    rw [backslashes_succ, backslashes_succ, unescape_escaped (by decide), ih, hhalf,
      backslashes_succ]

theorem unescape_run (hc : c ≠ '\\') (n : ℕ) (t : Str) :
    unescape (backslashes n ++ c :: t) =
      backslashes (if isEscapable c then n / 2 else (n + 1) / 2) ++ c :: unescape t := by
  induction n using Nat.twoStepInduction with
  | zero =>
    rw [ite_self]
    exact unescape_cons hc t
  | one =>
    rw [backslashes_succ, backslashes_zero, List.cons_append, List.nil_append]
    by_cases hesc : isEscapable c = true
    · rw [if_pos hesc, unescape_escaped hesc]
      rfl
    · rw [if_neg hesc, unescape, if_neg fun h => hesc h.2, unescape_cons hc]
      rfl
  | more n ih _ =>
    have hhalf : (n + 2 + 1) / 2 = (n + 1) / 2 + 1 := by omega
    have hhalf' : (n + 2) / 2 = n / 2 + 1 := by omega
    rw [backslashes_succ, backslashes_succ, List.cons_append, List.cons_append,
      unescape_escaped (by decide), ih, hhalf, hhalf']
    split
    · rfl
    · rfl

/-- The three replacements are one pass from the left. -/
theorem replacements_eq_unescape (s : Str) :
    replacePair '\\' '\\' '\\' (replacePair '\\' ')' ')' (replacePair '\\' '(' '(' s)) =
      unescape s := by
  have hopen : '(' ≠ '\\' := by decide
  have hclose : ')' ≠ '\\' := by decide
  induction s using backslash_induction with
  | last n => rw [replacePair_last hopen, replacePair_last hclose, halve_last, unescape_last]
  | run n c t hc ih =>
    rw [replacePair_run hopen hc, replacePair_run hclose hc, halve_run hc, ih, unescape_run hc]
    congr 2
    by_cases hl : c = '('
    · subst hl
      simp only [if_true, show ('(' = ')') = False by decide, if_false,
        show isEscapable '(' = true from rfl]
      omega
    · by_cases hr : c = ')'
      · subst hr
        simp only [if_true, show (')' = '(') = False by decide, if_false,
          show isEscapable ')' = true from rfl]
        omega
      · have hesc : isEscapable c = false := by simp [isEscapable, hc, hl, hr]
        rw [if_neg hl, if_neg hr, hesc, if_neg Bool.false_ne_true]

theorem unescape_eq_self (h : '\\' ∉ s) : unescape s = s := by
  induction s with
  | nil => rfl
  | cons c s ih =>
    rw [List.mem_cons, not_or] at h
    rw [unescape_cons (Ne.symm h.1), ih h.2]

theorem unescapeRuleContent_eq_unescape (s : Str) : unescapeRuleContent s = unescape s := by
  unfold unescapeRuleContent
  cases hmem : s.contains '\\' with
  | true => exact replacements_eq_unescape s
  | false =>
    rw [Bool.not_false, if_pos rfl, unescape_eq_self]
    intro h
    rw [List.contains_iff_mem.mpr h] at hmem
    cases hmem

theorem unescape_escape (s : Str) : unescape (escape s) = s := by
  induction s with
  | nil => rfl
  | cons c s ih =>
    rw [escape, List.flatMap_cons, ← escape, escapeChar]
    by_cases hc : isEscapable c = true
    · rw [if_pos hc, List.cons_append, List.singleton_append, unescape_escaped hc, ih]
    · have hne : c ≠ '\\' := by
        rintro rfl
        exact hc rfl
      rw [if_neg hc, List.singleton_append, unescape_cons hne, ih]

end Backslashes

/-! ## Escaped content between its parentheses -/

section Escaped

variable {name s : Str} {tool : ToolFilter}

/-- An escaped text ends in an even number of backslashes. -/
theorem isUnescaped_escape (s rest : Str) :
    isUnescaped (escape s ++ rest) (escape s).length = true := by
  have heven : ((escape s).reverse.takeWhile (· == '\\')).length % 2 = 0 := by
    induction s using List.reverseRecOn with
    | nil => rfl
    | append_singleton s c ih =>
      rw [escape, List.flatMap_append, ← escape, List.flatMap_singleton, escapeChar]
      by_cases hc : isEscapable c = true
      · rw [if_pos hc]
        by_cases hb : c = '\\'
        · subst hb
          rw [List.reverse_append]
          show (List.takeWhile (· == '\\') (escape s).reverse).length.succ.succ % 2 = 0
          omega
        · have hne : (c == '\\') = false := beq_eq_false_iff_ne.mpr hb
          rw [List.reverse_append]
          simp [hne]
      · have hne : (c == '\\') = false := by
          rw [beq_eq_false_iff_ne]
          rintro rfl
          exact hc rfl
        rw [if_neg hc, List.reverse_append]
        simp [hne]
  rw [isUnescaped, List.take_left, heven]
  rfl

theorem findLastUnescaped_escape (s : Str) :
    findLastUnescaped (escape s ++ [')']) ')' = some (escape s).length := by
  have hat : isUnescapedAt (escape s ++ [')']) ')' (escape s).length = true := by
    rw [isUnescapedAt, isUnescaped_escape, List.getElem?_concat_length]
    rfl
  rw [findLastUnescaped, List.length_append, List.length_singleton, List.range_succ,
    List.reverse_append, List.reverse_singleton, List.singleton_append, List.find?_cons_of_pos hat]

theorem findFirstUnescaped_name (hparen : '(' ∉ name) (hback : '\\' ∉ name) (rest : Str) :
    findFirstUnescaped (name ++ '(' :: rest) '(' = some name.length := by
  have hrun : name.reverse.takeWhile (· == '\\') = [] := by
    rw [List.takeWhile_eq_nil_iff]
    intro hlen hhead
    apply hback
    rw [← List.mem_reverse, ← beq_iff_eq.mp hhead]
    exact List.getElem_mem _
  rw [findFirstUnescaped, List.find?_range_eq_some]
  refine ⟨?_, ?_, ?_⟩
  · rw [isUnescapedAt, isUnescaped, List.take_left, hrun, List.getElem?_append_right (Nat.le_refl _),
      Nat.sub_self]
    rfl
  · rw [List.mem_range, List.length_append, List.length_cons]
    omega
  · intro j hj
    have hne : (name ++ '(' :: rest)[j]? ≠ some '(' := by
      rw [List.getElem?_append_left hj]
      intro hget
      exact hparen (List.mem_of_getElem? hget)
    rw [isUnescapedAt, beq_eq_false_iff_ne.mpr hne]
    rfl

theorem toolNames_plain : ∀ entry ∈ toolNames,
    entry.1 ≠ [] ∧ trim entry.1 = entry.1 ∧ '(' ∉ entry.1 ∧ '\\' ∉ entry.1 := by
  decide

theorem mem_toolNames (h : toolNameToFilter name = some tool) : (name, tool) ∈ toolNames :=
  List.lookup_eq_some_iff.mp h |>.elim fun before ⟨after, hsplit, _⟩ => by
    rw [hsplit]
    exact List.mem_append_right _ (List.mem_cons_self ..)

theorem trim_escape (h : trim s = s) : trim (escape s) = escape s := by
  apply trim_eq_self
  · intro c hc
    cases s with
    | nil => cases hc
    | cons d t =>
      rw [escape, List.flatMap_cons, escapeChar] at hc
      split at hc
      · cases hc
        rfl
      · cases hc
        exact head_of_trim_eq_self h _ rfl
  · intro c hc
    obtain rfl | ⟨t, d, rfl⟩ := List.eq_nil_or_concat s
    · cases hc
    · rw [List.concat_eq_append] at h hc
      have hd := last_of_trim_eq_self h d List.getLast?_concat
      rw [escape, List.flatMap_append, List.flatMap_singleton, escapeChar] at hc
      split at hc
      · rw [List.getLast?_append_cons] at hc
        cases hc
        exact hd
      · rw [List.getLast?_concat] at hc
        cases hc
        exact hd

/-- A text that a rule of the tool can have as its pattern. -/
structure PatternText (tool : ToolFilter) (s : Str) : Prop where
  nonempty : s ≠ []
  trimmed : trim s = s
  notWildcard : s ≠ "*".toList
  noDomain : startsWith s "domain:".toList = false
  noColonWildcard : tool = .bash → endsWith s ":*".toList = false

/-- Unescaping is one pass from the left and undoes escaping, and an escaped pattern in the
parentheses of any known tool is parsed back. -/
theorem parsePermissionRule_escape (s : Str) (action : RuleAction) :
    unescapeRuleContent s = unescape s ∧ unescapeRuleContent (escape s) = s ∧
      ∀ name tool, toolNameToFilter name = some tool → PatternText tool s →
        parsePermissionRule (name ++ '(' :: (escape s ++ [')'])) action =
          .ok ⟨action, tool, some s, .glob⟩ := by
  have hundo : unescapeRuleContent (escape s) = s := by
    rw [unescapeRuleContent_eq_unescape, unescape_escape]
  refine ⟨unescapeRuleContent_eq_unescape s, hundo, ?_⟩
  intro name tool hname htext
  obtain ⟨hne, hname', hparen, hback⟩ := toolNames_plain _ (mem_toolNames hname)
  have htrim : trim (name ++ '(' :: (escape s ++ [')'])) = name ++ '(' :: (escape s ++ [')']) := by
    apply trim_eq_self
    · intro c hc
      rw [List.head?_append_of_ne_nil _ hne] at hc
      exact head_of_trim_eq_self hname' c hc
    · intro c hc
      rw [← List.cons_append, ← List.append_assoc, List.getLast?_concat] at hc
      cases hc
      rfl
  have hcontent : (trim (escape s)).isEmpty = false ∧ (trim (escape s) == "*".toList) = false := by
    rw [trim_escape htext.trimmed, List.isEmpty_eq_false_iff, beq_eq_false_iff_ne]
    refine ⟨fun hnil => htext.nonempty ?_, fun hstar => htext.notWildcard ?_⟩
    · rw [← unescape_escape s, hnil]
      rfl
    · rw [← unescape_escape s, hstar]
      rfl
  have hbash : (if tool = .bash then stripBashColonWildcard s else s) = s := by
    split
    · rename_i htool
      rw [stripBashColonWildcard, stripSuffix, htext.noColonWildcard htool]
      rfl
    · rfl
  have hdomain : stripDomainPrefix s = (s, .glob) := by
    rw [stripDomainPrefix, stripPrefix, htext.noDomain]
    rfl
  have hpattern : nonEmptyPattern s = some s := by
    rw [nonEmptyPattern, List.isEmpty_eq_false_iff.mpr htext.nonempty]
    rfl
  have hdrop : (name ++ '(' :: (escape s ++ [')'])).drop (name.length + 1) = escape s ++ [')'] := by
    rw [← List.drop_drop, List.drop_left]
    rfl
  rw [parsePermissionRule, htrim, findFirstUnescaped_name hparen hback]
  dsimp only
  rw [List.take_left, hdrop, parseContentRule, findLastUnescaped_escape]
  dsimp only
  rw [List.take_left, hname', hname, hcontent.1, hcontent.2, trim_escape htext.trimmed, hundo]
  simp only [Bool.or_self, Bool.false_eq_true, if_false]
  rw [hbash, hdomain, hpattern]

/-- `Bash(echo \(a\))` is the rule on the command `echo (a)`. -/
theorem parse_echo_rule :
    parsePermissionRule "Bash(echo \\(a\\))".toList .deny =
      .ok ⟨.deny, .bash, some "echo (a)".toList, .glob⟩ :=
  (parsePermissionRule_escape "echo (a)".toList .deny).2.2 "Bash".toList .bash rfl
    ⟨by decide, by decide, by decide, by decide, by decide⟩

end Escaped

end GrokBuild.Permission
