import Mathlib
import GrokBuild.Permission.Policy

/-!
# One access against the rules

The rule loop of `evaluate_lexical_with_cwd` in closed form: the first applicable deny rule
wins, then any applicable ask rule, then the allow rules.
-/

namespace GrokBuild.Permission
open Text

section Rules

variable (env : PolicyEnv)

/-- The rule is about this kind of access and its compiled pattern matches. -/
def ruleApplies (access : AccessKind) (cwd : Option Str) (rule : PermissionRule) : Bool :=
  toolFilterMatches access rule.tool &&
    patternMatches access (⟨rule, compileMatcher env rule⟩ : CompiledRule env) cwd

def firstDeny (rules : List PermissionRule) (access : AccessKind) (cwd : Option Str) :
    Option PermissionRule :=
  rules.find? fun rule => rule.action == .deny && ruleApplies env access cwd rule

def askMatches (rules : List PermissionRule) (access : AccessKind) (cwd : Option Str) : Bool :=
  rules.any fun rule => rule.action == .ask && ruleApplies env access cwd rule

def allowMatches (rules : List PermissionRule) (access : AccessKind) (cwd : Option Str) : Bool :=
  rules.any fun rule => rule.action == .allow && ruleApplies env access cwd rule

/-- An allow rule for Bash commands whose pattern matches, within the scope. -/
def allowRuleMatches (scope : AllowRuleScope) (cmd : Str) (rule : PermissionRule) : Bool :=
  !(scope == .narrowOnly && ruleIsCatchall env rule) && rule.action == .allow &&
    rule.tool.coversBash &&
    bashAllowPatternMatches cmd (⟨rule, compileMatcher env rule⟩ : CompiledRule env)

end Rules

variable {env : PolicyEnv}

theorem toolFilterMatches_bash (cmd : Str) (tool : ToolFilter) :
    toolFilterMatches (.bash cmd) tool = tool.coversBash := by
  cases tool <;> rfl

namespace CompiledPolicy

theorem matchRules_eq (env : PolicyEnv) (access : AccessKind) (cwd : Option Str) (rules : List PermissionRule)
    (matchedAsk matchedAllow : Bool) :
    matchRules access cwd (rules.zip (rules.map (compileMatcher env))) matchedAsk matchedAllow =
      match firstDeny env rules access cwd with
      | some rule => .error (.reject (denyReason rule))
      | none => .ok (matchedAsk || askMatches env rules access cwd,
          matchedAllow || allowMatches env rules access cwd) := by
  induction rules generalizing matchedAsk matchedAllow with
  | nil => simp [matchRules, firstDeny, askMatches, allowMatches]
  | cons rule rules ih =>
    simp only [List.map_cons, List.zip_cons_cons, matchRules, ih]
    by_cases happ : ruleApplies env access cwd rule = true
    · have h := happ
      simp only [ruleApplies, Bool.and_eq_true] at h
      cases hact : rule.action <;>
        simp [h.1, h.2, hact, happ, firstDeny, askMatches, allowMatches, beq_eq_decide]
    · have h := happ
      simp only [ruleApplies, Bool.and_eq_true, not_and, Bool.not_eq_true] at h
      have hskip : firstDeny env (rule :: rules) access cwd = firstDeny env rules access cwd := by
        simp [firstDeny, happ]
      have hask : askMatches env (rule :: rules) access cwd = askMatches env rules access cwd := by
        simp [askMatches, happ]
      have hallow : allowMatches env (rule :: rules) access cwd =
          allowMatches env rules access cwd := by
        simp [allowMatches, happ]
      rw [hskip, hask, hallow]
      by_cases htool : toolFilterMatches access rule.tool = true
      · simp [htool, h htool]
      · simp [htool]

/-- The verdict on one access, with the loop over the rules solved. -/
theorem evaluateLexicalWithCwd_new (rules : List PermissionRule) (access : AccessKind)
    (cwd : Option Str) :
    (new env rules).evaluateLexicalWithCwd access cwd =
      match firstDeny env rules access cwd with
      | some rule => some (.reject (denyReason rule))
      | none =>
        if askMatches env rules access cwd then some .ask
        else
          match access with
          | .bash cmd =>
            if (new env rules).hasBashAllowRules &&
                (new env rules).bashChainFullyAllowed .any maxInlineShellDepth cmd then
              some .allow
            else none
          | _ => if allowMatches env rules access cwd then some .allow else none := by
  unfold evaluateLexicalWithCwd
  have h := matchRules_eq env access cwd rules false false
  change matchRules access cwd ((new env rules).rules.zip (new env rules).matchers) false false = _
    at h
  rw [h]
  cases firstDeny env rules access cwd with
  | some rule => rfl
  | none => cases access <;> simp

theorem evaluateLexicalWithCwd_of_deny {rules : List PermissionRule} {access : AccessKind}
    {cwd : Option Str} {rule : PermissionRule}
    (h : firstDeny env rules access cwd = some rule) :
    (new env rules).evaluateLexicalWithCwd access cwd = some (.reject (denyReason rule)) := by
  rw [evaluateLexicalWithCwd_new, h]

theorem evaluateLexicalWithCwd_of_ask {rules : List PermissionRule} {access : AccessKind}
    {cwd : Option Str} (hdeny : firstDeny env rules access cwd = none)
    (hask : askMatches env rules access cwd = true) :
    (new env rules).evaluateLexicalWithCwd access cwd = some .ask := by
  rw [evaluateLexicalWithCwd_new, hdeny, hask]
  rfl

theorem firstDeny_isSome_iff {rules : List PermissionRule} {access : AccessKind}
    {cwd : Option Str} :
    (firstDeny env rules access cwd).isSome ↔
      ∃ rule ∈ rules, rule.action = .deny ∧ ruleApplies env access cwd rule := by
  simp [firstDeny, List.find?_isSome]

theorem evaluate_bash (p : CompiledPolicy env) (cmd : Str) :
    p.evaluate (.bash cmd) = p.evaluateLexicalWithCwd (.bash cmd) none := rfl

/-- `escalate` keeps the deny and the ask half of a verdict. -/
theorem escalate_new (rules : List PermissionRule) (segment : Str) :
    (new env rules).escalate segment =
      match firstDeny env rules (.bash segment) none with
      | some rule => some (.reject (denyReason rule))
      | none => if askMatches env rules (.bash segment) none then some .askRuleMatch else none := by
  rw [escalate, evaluate_bash, evaluateLexicalWithCwd_new]
  cases firstDeny env rules (.bash segment) none with
  | some rule => rfl
  | none =>
    dsimp only
    split_ifs <;> rfl

theorem zip_zip_map_any {α β γ : Type*} (f : α → β) (g : α → γ) (q : (α × β) × γ → Bool)
    (xs : List α) :
    ((xs.zip (xs.map f)).zip (xs.map g)).any q = xs.any fun x => q ((x, f x), g x) := by
  induction xs with
  | nil => rfl
  | cons x xs ih => simp [ih]

theorem bashWordsAllowed_new (rules : List PermissionRule) (words : List Str)
    (scope : AllowRuleScope) :
    (new env rules).bashWordsAllowed words scope =
      (!words.isEmpty && !(scope == .narrowOnly && headIsExecVehicle words) &&
        rules.any (allowRuleMatches env scope (joinWords words))) := by
  have h : (((new env rules).rules.zip (new env rules).matchers).zip (new env rules).catchall).any
      (fun entry =>
        !((scope == .narrowOnly) && entry.2) && entry.1.1.action == .allow &&
          entry.1.1.tool.coversBash &&
          bashAllowPatternMatches (joinWords words)
            (⟨entry.1.1, entry.1.2⟩ : CompiledRule env)) =
      rules.any (allowRuleMatches env scope (joinWords words)) :=
    zip_zip_map_any _ _ _ rules
  unfold bashWordsAllowed
  dsimp only
  erw [h]
  cases words with
  | nil => rfl
  | cons w ws =>
    cases hexec : scope == .narrowOnly && headIsExecVehicle (w :: ws) with
    | true => rfl
    | false => rfl

end CompiledPolicy

end GrokBuild.Permission
