import GrokBuild.Lib.NestedReach
import GrokBuild.Permission.RuleMatch

/-!
# The Bash command gate is exact

The gate recurses through the scripts nested in a command. Its verdict is stated here over the
argvs reachable from the script, without the recursion and its budget.
-/

namespace GrokBuild.Permission
open Text NestedReach

section Reach

variable (env : PolicyEnv)

/-- `words` is one of the commands that `script` decomposes into. -/
def IsSegment (script : Str) (words : List Str) : Prop :=
  ∃ segments, env.allCommandsFromScript script = some segments ∧ words ∈ segments

def Decomposes (script : Str) : Prop := (env.allCommandsFromScript script).isSome

end Reach

/-- The inline shape of a normalized argv. -/
def inlineShape (words : List Str) : InlineShellScript :=
  shellDashCScript ((normalizeCommandWords words).words.map .literal)

/-- `script` is the literal `-c` script of the normalized argv. -/
def IsDashCScript (words : List Str) (script : Str) : Prop :=
  ∃ index, inlineShape words = .literal index ∧
    (normalizeCommandWords words).words[index]? = some script

/-- `script` is carried by the argv, as a `-c` script or as a packed `env -S` string. -/
def IsInnerScript (words : List Str) (script : Str) : Prop :=
  IsDashCScript words script ∨
    envSplitStringScript (normalizeCommandWords words).words = some script

/-- `words` is reachable from `script` through `depth` inner scripts. -/
def ReachableArgv (env : PolicyEnv) (script : Str) (depth : ℕ) (words : List Str) : Prop :=
  ReachAt (IsSegment env) IsInnerScript script depth words

def ReachableScript (env : PolicyEnv) (script : Str) (depth : ℕ) (inner : Str) : Prop :=
  ScriptAt (IsSegment env) IsInnerScript script depth inner

/-- A Bash or Any rule of this action matches the command text. -/
def BashRuleMatches (env : PolicyEnv) (rules : List PermissionRule) (action : RuleAction)
    (segment : Str) : Prop :=
  ∃ rule ∈ rules, rule.action = action ∧ (rule.tool = .bash ∨ rule.tool = .any) ∧
    patternMatches (.bash segment) (⟨rule, compileMatcher env rule⟩ : CompiledRule env) none

/-- A rule of this action matches the raw or the normalized word-join of the argv. -/
def ArgvMatches (env : PolicyEnv) (rules : List PermissionRule) (action : RuleAction)
    (words : List Str) : Prop :=
  BashRuleMatches env rules action (joinWords words) ∨
    BashRuleMatches env rules action (joinWords (normalizeCommandWords words).words)

variable {env : PolicyEnv}

theorem coversBash_iff (tool : ToolFilter) :
    tool.coversBash = true ↔ tool = .bash ∨ tool = .any := by
  cases tool <;> simp [ToolFilter.coversBash]

theorem bashRuleMatches_iff {rules : List PermissionRule} {action : RuleAction} {segment : Str} :
    BashRuleMatches env rules action segment ↔
      ∃ rule ∈ rules, rule.action = action ∧ ruleApplies env (.bash segment) none rule := by
  simp only [BashRuleMatches, ruleApplies, toolFilterMatches_bash, Bool.and_eq_true,
    coversBash_iff]

theorem inlineShape_literal {words : List Str} {index : ℕ}
    (h : inlineShape words = .literal index) :
    (normalizeCommandWords words).words[index]? =
      some ((normalizeCommandWords words).words.getD index []) := by
  obtain ⟨word, hword⟩ := shellDashCScript_literal h
  rw [List.getElem?_map] at hword
  cases hget : (normalizeCommandWords words).words[index]? with
  | none => simp [hget] at hword
  | some script => simp [List.getD, hget]

/-- A `-c` script is the word at the index of the shape. -/
theorem isDashCScript_iff {words : List Str} {script : Str} :
    IsDashCScript words script ↔
      ∃ index, inlineShape words = .literal index ∧
        script = (normalizeCommandWords words).words.getD index [] := by
  constructor
  · rintro ⟨index, hshape, hscript⟩
    rw [inlineShape_literal hshape] at hscript
    exact ⟨index, hshape, (Option.some.inj hscript).symm⟩
  · rintro ⟨index, hshape, rfl⟩
    exact ⟨index, hshape, inlineShape_literal hshape⟩

namespace CompiledPolicy

theorem three_le_gateRank_escalate {rules : List PermissionRule} {segment : Str} :
    3 ≤ gateRank ((new env rules).escalate segment) ↔ BashRuleMatches env rules .deny segment := by
  rw [bashRuleMatches_iff, ← firstDeny_isSome_iff, escalate_new]
  cases firstDeny env rules (.bash segment) none with
  | some rule => simp
  | none =>
    dsimp only
    split_ifs <;> simp

theorem askMatches_iff {rules : List PermissionRule} {segment : Str} :
    askMatches env rules (.bash segment) none = true ↔ BashRuleMatches env rules .ask segment := by
  simp [askMatches, bashRuleMatches_iff]

theorem one_le_gateRank_escalate {rules : List PermissionRule} {segment : Str} :
    1 ≤ gateRank ((new env rules).escalate segment) ↔
      BashRuleMatches env rules .deny segment ∨ BashRuleMatches env rules .ask segment := by
  rw [bashRuleMatches_iff, ← firstDeny_isSome_iff, ← askMatches_iff, escalate_new]
  cases firstDeny env rules (.bash segment) none with
  | some rule => simp
  | none =>
    cases askMatches env rules (.bash segment) none <;> simp

theorem le_gateRank_failClosedIf {k : ℕ} (hk : 0 < k) (b : Bool) :
    k ≤ gateRank (failClosedIf b) ↔ k ≤ 1 ∧ b = true := by
  cases b
  · simp [failClosedIf]
    omega
  · simp [failClosedIf]

/-- What the inline `-c` shape of an argv contributes to its verdict. -/
def dashCFinding (recurse : Option (Str → Option GateDecision)) (words : List Str) :
    Option GateDecision :=
  match inlineShape words, recurse with
  | .literal index, some recurse => recurse ((normalizeCommandWords words).words.getD index [])
  | .notInline, _ => none
  | _, _ => some .askFailClosed

/-- What a packed `env -S` string contributes. -/
def splitStringFinding (recurse : Option (Str → Option GateDecision)) (words : List Str) :
    Option GateDecision :=
  match envSplitStringScript (normalizeCommandWords words).words, recurse with
  | some script, some recurse => recurse script
  | some _, none => some .askFailClosed
  | none, _ => none

theorem gateRank_forms (p : CompiledPolicy env) (words : List Str) (acc : Option GateDecision) :
    gateRank ((words :: if (normalizeCommandWords words).words.length ≠ words.length then
        [(normalizeCommandWords words).words] else []).foldl
          (fun decision form => combineGateDecisions decision (p.escalate (joinWords form))) acc) =
      max (gateRank acc) (max (gateRank (p.escalate (joinWords words)))
        (gateRank (p.escalate (joinWords (normalizeCommandWords words).words)))) := by
  split_ifs with h
  · simp only [List.foldl_cons, List.foldl_nil, gateRank_combine, max_assoc]
  · rw [normalizeCommandWords_eq_of_length (not_not.mp h)]
    simp only [List.foldl_cons, List.foldl_nil, gateRank_combine, max_self]

theorem gateRank_flags (norm : NormalizedCommandPeel) :
    gateRank (combineGateDecisions
        (failClosedIf (norm.exhausted || norm.ambiguous || norm.envOptionsUncertain))
        (failClosedIf norm.hasSplitString)) =
      gateRank (failClosedIf norm.failsClosed) := by
  rw [NormalizedCommandPeel.failsClosed]
  cases norm.hasSplitString <;>
    cases norm.exhausted || norm.ambiguous || norm.envOptionsUncertain <;> simp [failClosedIf]

theorem gateRank_evaluateCommandWords (p : CompiledPolicy env)
    (recurse : Option (Str → Option GateDecision)) (words : List Str) :
    gateRank (p.evaluateCommandWords recurse words) =
      max (max (gateRank (failClosedIf (normalizeCommandWords words).failsClosed))
        (max (gateRank (p.escalate (joinWords words)))
          (gateRank (p.escalate (joinWords (normalizeCommandWords words).words)))))
        (max (gateRank (dashCFinding recurse words))
          (gateRank (splitStringFinding recurse words))) := by
  rw [← gateRank_flags, ← gateRank_forms]
  unfold evaluateCommandWords dashCFinding splitStringFinding inlineShape
  generalize normalizeCommandWords words = norm
  dsimp only
  generalize List.foldl _ _ _ = acc
  cases shellDashCScript (norm.words.map .literal) <;>
    cases envSplitStringScript norm.words <;> cases recurse <;> simp [max_assoc]

/-- The rank that an inner script contributes at a given remaining budget. -/
def innerRank (recurse : Option (Str → Option GateDecision)) (script : Str) : ℕ :=
  match recurse with
  | some recurse => gateRank (recurse script)
  | none => 1

theorem le_gateRank_dashCFinding (recurse : Option (Str → Option GateDecision))
    (words : List Str) {k : ℕ} (hk : 0 < k) :
    k ≤ gateRank (dashCFinding recurse words) ↔
      (k ≤ 1 ∧ (inlineShape words = .untrusted ∨ inlineShape words = .unrecognized)) ∨
      ∃ script, IsDashCScript words script ∧ k ≤ innerRank recurse script := by
  unfold dashCFinding
  simp only [isDashCScript_iff]
  cases inlineShape words <;> cases recurse <;> simp [innerRank] <;> omega

theorem le_gateRank_splitStringFinding (recurse : Option (Str → Option GateDecision))
    (words : List Str) {k : ℕ} (hk : 0 < k) :
    k ≤ gateRank (splitStringFinding recurse words) ↔
      ∃ script, envSplitStringScript (normalizeCommandWords words).words = some script ∧
        k ≤ innerRank recurse script := by
  unfold splitStringFinding
  cases envSplitStringScript (normalizeCommandWords words).words <;> cases recurse <;>
    simp [innerRank] <;> omega

/-- What `evaluate_command_words` combines for one argv, source by source. -/
theorem le_gateRank_evaluateCommandWords (p : CompiledPolicy env)
    (recurse : Option (Str → Option GateDecision)) (words : List Str) {k : ℕ} (hk : 0 < k) :
    k ≤ gateRank (p.evaluateCommandWords recurse words) ↔
      ((k ≤ 1 ∧ (normalizeCommandWords words).failsClosed = true) ∨
      (k ≤ 1 ∧ (inlineShape words = .untrusted ∨ inlineShape words = .unrecognized)) ∨
      k ≤ gateRank (p.escalate (joinWords words)) ∨
      k ≤ gateRank (p.escalate (joinWords (normalizeCommandWords words).words))) ∨
      ∃ script, IsInnerScript words script ∧ k ≤ innerRank recurse script := by
  rw [gateRank_evaluateCommandWords]
  simp only [le_max_iff, le_gateRank_failClosedIf hk, le_gateRank_dashCFinding recurse words hk,
    le_gateRank_splitStringFinding recurse words hk, IsInnerScript, or_and_right, exists_or]
  apply iff_of_eq
  ac_rfl

theorem le_gateRank_evaluateSegments (p : CompiledPolicy env)
    (recurse : Option (Str → Option GateDecision)) (cmd : Str) {k : ℕ} (hk : 0 < k) :
    k ≤ gateRank (p.evaluateSegments recurse cmd) ↔
      (k ≤ 1 ∧ ¬ Decomposes env cmd) ∨
      ∃ words, IsSegment env cmd words ∧ k ≤ gateRank (p.evaluateCommandWords recurse words) := by
  unfold evaluateSegments Decomposes IsSegment
  cases env.allCommandsFromScript cmd with
  | none => simp
  | some segments =>
    dsimp only
    rw [le_gateRank_foldl]
    simp
    omega

/-- An argv that makes the gate ask or reject by itself, whatever it carries inside. -/
def Escalates (env : PolicyEnv) (rules : List PermissionRule) (words : List Str) : Prop :=
  (normalizeCommandWords words).failsClosed = true ∨
    inlineShape words = .untrusted ∨ inlineShape words = .unrecognized ∨
    ArgvMatches env rules .deny words ∨ ArgvMatches env rules .ask words

theorem escalatesAt_deny_iff (rules : List PermissionRule) (words : List Str) :
    (3 ≤ gateRank ((new env rules).escalate (joinWords words)) ∨
      3 ≤ gateRank ((new env rules).escalate (joinWords (normalizeCommandWords words).words))) ↔
      ArgvMatches env rules .deny words := by
  rw [three_le_gateRank_escalate, three_le_gateRank_escalate, ArgvMatches]

theorem escalatesAt_iff (rules : List PermissionRule) (words : List Str) :
    ((normalizeCommandWords words).failsClosed = true ∨
      (inlineShape words = .untrusted ∨ inlineShape words = .unrecognized) ∨
      1 ≤ gateRank ((new env rules).escalate (joinWords words)) ∨
      1 ≤ gateRank ((new env rules).escalate (joinWords (normalizeCommandWords words).words))) ↔
      Escalates env rules words := by
  rw [one_le_gateRank_escalate, one_le_gateRank_escalate, Escalates, ArgvMatches, ArgvMatches]
  apply iff_of_eq
  ac_rfl

theorem reject_evaluateSegments_iff (rules : List PermissionRule)
    (recurse : Option (Str → Option GateDecision)) (cmd : Str) :
    3 ≤ gateRank ((new env rules).evaluateSegments recurse cmd) ↔
      ∃ words, IsSegment env cmd words ∧ (ArgvMatches env rules .deny words ∨
        ∃ script, IsInnerScript words script ∧ 3 ≤ innerRank recurse script) := by
  rw [le_gateRank_evaluateSegments _ _ _ (by omega)]
  have h31 : ¬ (3 ≤ 1) := by omega
  simp only [h31, false_and, false_or, le_gateRank_evaluateCommandWords _ _ _ (show 0 < 3 by omega),
    escalatesAt_deny_iff]

theorem reject_iff_reachable (rules : List PermissionRule) (depth : ℕ) (cmd : Str) :
    3 ≤ gateRank ((new env rules).evaluateBashCommandSegments depth cmd) ↔
      ∃ n ≤ depth, ∃ words, ReachableArgv env cmd n words ∧
        ArgvMatches env rules .deny words := by
  refine exists_reachAt_iff
    (E := fun d s => 3 ≤ gateRank ((new env rules).evaluateBashCommandSegments d s))
    (P := ArgvMatches env rules .deny) (fun s => ?_) (fun d s => ?_) depth cmd
  · rw [evaluateBashCommandSegments, reject_evaluateSegments_iff]
    simp [innerRank]
  · rw [evaluateBashCommandSegments, reject_evaluateSegments_iff]
    rfl

theorem none_evaluateSegments_iff (rules : List PermissionRule)
    (recurse : Option (Str → Option GateDecision)) (cmd : Str) :
    (new env rules).evaluateSegments recurse cmd = none ↔
      Decomposes env cmd ∧ ∀ words, IsSegment env cmd words → ¬ Escalates env rules words ∧
        ∀ script, IsInnerScript words script → innerRank recurse script = 0 := by
  have hpos : ¬ (1 ≤ gateRank ((new env rules).evaluateSegments recurse cmd)) ↔
      (new env rules).evaluateSegments recurse cmd = none := by
    rw [← gateRank_eq_zero_iff]
    omega
  rw [← hpos, le_gateRank_evaluateSegments _ _ _ (by omega)]
  simp only [le_refl, true_and, le_gateRank_evaluateCommandWords _ _ _ (show 0 < 1 by omega),
    escalatesAt_iff, not_or, not_exists, not_and, not_not]
  have hzero (n : ℕ) : ¬ 1 ≤ n ↔ n = 0 := by omega
  simp only [hzero]

theorem none_iff_reachable (rules : List PermissionRule) (depth : ℕ) (cmd : Str) :
    (new env rules).evaluateBashCommandSegments depth cmd = none ↔
      (∀ n script, ReachableScript env cmd n script → n ≤ depth ∧ Decomposes env script) ∧
        ∀ n words, ReachableArgv env cmd n words → n ≤ depth ∧ ¬ Escalates env rules words := by
  refine forall_reachAt_iff
    (E := fun d s => (new env rules).evaluateBashCommandSegments d s = none)
    (P := fun words => ¬ Escalates env rules words) (fun s => ?_) (fun d s => ?_) depth cmd
  · rw [evaluateBashCommandSegments, none_evaluateSegments_iff]
    simp [innerRank]
  · rw [evaluateBashCommandSegments, none_evaluateSegments_iff]
    simp only [innerRank, gateRank_eq_zero_iff]

theorem hasBashCommandRestrictions_iff (rules : List PermissionRule) :
    (new env rules).hasBashCommandRestrictions = true ↔
      ∃ rule ∈ rules, (rule.action = .deny ∨ rule.action = .ask) ∧
        (rule.tool = .bash ∨ rule.tool = .any) := by
  simp [new, RuleAction.restricts, coversBash_iff]

/-- The gate rejects exactly when a deny rule matches an argv within the inline budget, and lets
a script pass exactly when everything below it decomposes, nothing lies below the budget, and
no argv escalates by itself. -/
theorem evaluateBashCommandGate_exact (env : PolicyEnv) (rules : List PermissionRule)
    (hrules : ∃ rule ∈ rules, (rule.action = .deny ∨ rule.action = .ask) ∧
      (rule.tool = .bash ∨ rule.tool = .any)) (cmd : Str) :
    ((∃ reason, (new env rules).evaluateBashCommandGate cmd = some (.reject reason)) ↔
      ∃ n ≤ maxInlineShellDepth, ∃ words, ReachableArgv env cmd n words ∧
        ArgvMatches env rules .deny words) ∧
    ((new env rules).evaluateBashCommandGate cmd = none ↔
      (∀ n script, ReachableScript env cmd n script →
        n ≤ maxInlineShellDepth ∧ Decomposes env script) ∧
      ∀ n words, ReachableArgv env cmd n words →
        n ≤ maxInlineShellDepth ∧ ¬ Escalates env rules words) := by
  have hgate : (new env rules).evaluateBashCommandGate cmd =
      (new env rules).evaluateBashCommandSegments maxInlineShellDepth cmd := by
    rw [evaluateBashCommandGate, (hasBashCommandRestrictions_iff rules).mpr hrules]
    rfl
  rw [hgate]
  refine ⟨?_, none_iff_reachable rules _ cmd⟩
  rw [← reject_iff_reachable, ← gateRank_eq_three_iff]
  have hle := gateRank_le_three
    ((new env rules).evaluateBashCommandSegments maxInlineShellDepth cmd)
  omega

end CompiledPolicy

/-- An environment whose scripts are listed in a table, with literal patterns and no symlinks. -/
def tableEnv (table : List (Str × List (List Str))) : PolicyEnv where
  Pattern := Str
  globNew := some
  matchesWith pattern _ text := pattern == text
  urlHost _ := none
  toLowercase := toAsciiLowercase
  allCommandsFromScript script := table.lookup script
  resolveSymlinkTarget path := some path
  pathHasSymlink _ := false

/-- `nice bash -c 'rm x'`, which carries the script `rm x`. -/
def nestedEnv : PolicyEnv :=
  tableEnv [("nice bash -c 'rm x'".toList, [["nice", "bash", "-c", "rm x"].map String.toList]),
    ("rm x".toList, [["rm", "x"].map String.toList])]

def denyRm : PermissionRule := ⟨.deny, .bash, some "rm".toList, .glob⟩

theorem nested_rm_rejected :
    ∃ reason, (CompiledPolicy.new nestedEnv [denyRm]).evaluateBashCommandGate
      "nice bash -c 'rm x'".toList = some (.reject reason) := by
  have houter : IsSegment nestedEnv "nice bash -c 'rm x'".toList
      (["nice", "bash", "-c", "rm x"].map String.toList) := ⟨_, rfl, by simp⟩
  have hinner : IsSegment nestedEnv "rm x".toList (["rm", "x"].map String.toList) :=
    ⟨_, rfl, by simp⟩
  have hscript : IsInnerScript (["nice", "bash", "-c", "rm x"].map String.toList) "rm x".toList :=
    .inl ⟨2, by decide, by decide⟩
  have hdeny : ArgvMatches nestedEnv [denyRm] .deny (["rm", "x"].map String.toList) :=
    .inl ⟨denyRm, by simp, rfl, .inl rfl, by decide⟩
  exact (CompiledPolicy.evaluateBashCommandGate_exact nestedEnv [denyRm]
    ⟨denyRm, by simp, .inl rfl, .inl rfl⟩ _).1.mpr
      ⟨1, by decide, _, .nest (.here houter) hscript hinner, hdeny⟩

end GrokBuild.Permission
