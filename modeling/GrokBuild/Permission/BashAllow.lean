import GrokBuild.Permission.RuleSet

/-!
# Bash allow is conjunctive

A command is allowed only when every argv below it is, through all literal `-c` scripts.
-/

namespace GrokBuild.Permission
open Text NestedReach

/-- The script decomposes, into at least one command. -/
def HasSegments (env : PolicyEnv) (script : Str) : Prop :=
  ∃ segments, env.allCommandsFromScript script = some segments ∧ segments ≠ []

/-- `words` is reachable from `script` through `depth` literal `-c` scripts. -/
def DashCReachable (env : PolicyEnv) (script : Str) (depth : ℕ) (words : List Str) : Prop :=
  ReachAt (IsSegment env) IsDashCScript script depth words

def DashCReachableScript (env : PolicyEnv) (script : Str) (depth : ℕ) (inner : Str) : Prop :=
  ScriptAt (IsSegment env) IsDashCScript script depth inner

/-- An allow rule for Bash or Any whose pattern matches the command text. -/
def AllowRuleMatchesText (env : PolicyEnv) (rules : List PermissionRule) (cmd : Str) : Prop :=
  ∃ rule ∈ rules, rule.action = .allow ∧ (rule.tool = .bash ∨ rule.tool = .any) ∧
    bashAllowPatternMatches cmd (⟨rule, compileMatcher env rule⟩ : CompiledRule env)

variable {env : PolicyEnv}

theorem allowRuleMatchesText_of_scope {rules : List PermissionRule} {scope : AllowRuleScope}
    {cmd : Str} (h : rules.any (allowRuleMatches env scope cmd) = true) :
    AllowRuleMatchesText env rules cmd := by
  obtain ⟨rule, hrule, hm⟩ := List.any_eq_true.mp h
  simp only [allowRuleMatches, Bool.and_eq_true, beq_iff_eq, coversBash_iff] at hm
  exact ⟨rule, hrule, hm.1.1.2, hm.1.2, hm.2⟩

namespace CompiledPolicy

/-- What the allow check asks of one argv, apart from the script it may carry. -/
def SegmentFine (p : CompiledPolicy env) (scope : AllowRuleScope) (words : List Str) : Prop :=
  (normalizeCommandWords words).failsClosed = false ∧
    p.bashWordsAllowed (normalizeCommandWords words).words scope = true ∧
    inlineShape words ≠ .untrusted ∧ inlineShape words ≠ .unrecognized

/-- The check of one argv, with the script it carries passed to `recurse`. -/
theorem bashSegmentAllowed_iff (p : CompiledPolicy env) (scope : AllowRuleScope)
    (recurse : Option (Str → Bool)) (words : List Str) :
    p.bashSegmentAllowed scope recurse words = true ↔
      SegmentFine p scope words ∧
        ∀ script, IsDashCScript words script → recurse.any (· script) = true := by
  simp only [isDashCScript_iff]
  unfold bashSegmentAllowed SegmentFine inlineShape
  generalize normalizeCommandWords words = norm
  dsimp only
  cases norm.failsClosed with
  | true => simp
  | false =>
    cases p.bashWordsAllowed norm.words scope with
    | false => simp
    | true => cases shellDashCScript (norm.words.map .literal) <;> cases recurse <;> simp

theorem bashSegmentsAllowed_iff (p : CompiledPolicy env) (scope : AllowRuleScope)
    (recurse : Option (Str → Bool)) (cmd : Str) :
    p.bashSegmentsAllowed scope recurse cmd = true ↔
      HasSegments env cmd ∧ ∀ words, IsSegment env cmd words → SegmentFine p scope words ∧
        ∀ script, IsDashCScript words script → recurse.any (· script) = true := by
  unfold bashSegmentsAllowed HasSegments IsSegment
  cases env.allCommandsFromScript cmd with
  | none => simp
  | some segments =>
    cases segments with
    | nil => simp
    | cons w ws => simp [bashSegmentAllowed_iff]

/-- The allow check over everything below the script, without the recursion. -/
theorem bashChainFullyAllowed_iff (p : CompiledPolicy env) (scope : AllowRuleScope) (depth : ℕ)
    (cmd : Str) :
    p.bashChainFullyAllowed scope depth cmd = true ↔
      (∀ n script, DashCReachableScript env cmd n script → n ≤ depth ∧ HasSegments env script) ∧
        ∀ n words, DashCReachable env cmd n words → n ≤ depth ∧ SegmentFine p scope words := by
  refine forall_reachAt_iff (E := fun d s => p.bashChainFullyAllowed scope d s = true)
    (P := SegmentFine p scope) (fun s => ?_) (fun d s => ?_) depth cmd
  · rw [bashChainFullyAllowed, bashSegmentsAllowed_iff]
    simp
  · rw [bashChainFullyAllowed, bashSegmentsAllowed_iff]
    simp

theorem bashWordsAllowed_narrow {rules : List PermissionRule} {words : List Str}
    (h : (new env rules).bashWordsAllowed words .narrowOnly = true) :
    (new env rules).bashWordsAllowed words .any = true ∧ headIsExecVehicle words = false := by
  rw [bashWordsAllowed_new] at h ⊢
  simp only [beq_self_eq_true, Bool.true_and, Bool.and_eq_true, Bool.not_eq_eq_eq_not, Bool.not_true]
    at h
  refine ⟨?_, h.1.2⟩
  obtain ⟨rule, hrule, hm⟩ := List.any_eq_true.mp h.2
  have hany : rules.any (allowRuleMatches env .any (joinWords words)) = true := by
    refine List.any_eq_true.mpr ⟨rule, hrule, ?_⟩
    simp only [allowRuleMatches, Bool.and_eq_true] at hm ⊢
    exact ⟨⟨⟨rfl, hm.1.1.2⟩, hm.1.2⟩, hm.2⟩
  rw [hany, h.1.1]
  rfl

theorem segmentFine_narrow {rules : List PermissionRule} {words : List Str}
    (h : SegmentFine (new env rules) .narrowOnly words) :
    SegmentFine (new env rules) .any words ∧
      headIsExecVehicle (normalizeCommandWords words).words = false := by
  obtain ⟨hflags, hwords, hshape⟩ := h
  obtain ⟨hany, hexec⟩ := bashWordsAllowed_narrow hwords
  exact ⟨⟨hflags, hany, hshape⟩, hexec⟩

theorem bashChainFullyAllowed_of_allow {rules : List PermissionRule} {cmd : Str}
    (h : (new env rules).evaluate (.bash cmd) = some .allow) :
    (new env rules).bashChainFullyAllowed .any maxInlineShellDepth cmd = true := by
  rw [evaluate_bash, evaluateLexicalWithCwd_new] at h
  cases hd : firstDeny env rules (.bash cmd) none with
  | some rule => simp [hd] at h
  | none =>
    cases ha : askMatches env rules (.bash cmd) none with
    | true => simp [hd, ha] at h
    | false =>
      simp only [hd, ha, Bool.false_eq_true, if_false] at h
      split_ifs at h with hc
      exact (Bool.and_eq_true_iff.mp hc).2

theorem segmentFine_allowed {rules : List PermissionRule} {scope : AllowRuleScope}
    {words : List Str} (h : SegmentFine (new env rules) scope words) :
    (normalizeCommandWords words).words ≠ [] ∧
      AllowRuleMatchesText env rules (joinWords (normalizeCommandWords words).words) := by
  have hw := h.2.1
  rw [bashWordsAllowed_new] at hw
  simp only [Bool.and_eq_true, Bool.not_eq_eq_eq_not, Bool.not_true] at hw
  exact ⟨by simpa using hw.1.1, allowRuleMatchesText_of_scope hw.2⟩

/-- An allowed Bash command is allowed argv by argv: every argv below it is unflagged, has words,
is matched by an allow rule, and carries at most a literal script that decomposes; and a
command that narrow rules authorize passes the check with all rules and runs no exec vehicle. -/
theorem bash_allow_conjunctive (env : PolicyEnv) (rules : List PermissionRule) (cmd : Str) :
    ((new env rules).evaluate (.bash cmd) = some .allow →
      HasSegments env cmd ∧
      (∀ n script, DashCReachableScript env cmd n script → n ≤ maxInlineShellDepth) ∧
      ∀ n words, DashCReachable env cmd n words →
        n ≤ maxInlineShellDepth ∧
        ((normalizeCommandWords words).exhausted = false ∧
          (normalizeCommandWords words).ambiguous = false ∧
          (normalizeCommandWords words).envOptionsUncertain = false ∧
          (normalizeCommandWords words).hasSplitString = false) ∧
        ((normalizeCommandWords words).words ≠ [] ∧
          AllowRuleMatchesText env rules (joinWords (normalizeCommandWords words).words)) ∧
        (inlineShape words = .notInline ∨
          ∃ script, IsDashCScript words script ∧ HasSegments env script)) ∧
    ((new env rules).narrowAllowAuthorizes (.bash cmd) = true →
      (new env rules).bashChainFullyAllowed .any maxInlineShellDepth cmd = true ∧
      ∀ n words, DashCReachable env cmd n words →
        headIsExecVehicle (normalizeCommandWords words).words = false) := by
  constructor
  · intro h
    obtain ⟨hscripts, hwords⟩ :=
      (bashChainFullyAllowed_iff _ _ _ _).mp (bashChainFullyAllowed_of_allow h)
    refine ⟨(hscripts 0 cmd .root).2, fun n s hs => (hscripts n s hs).1, fun n words hr => ?_⟩
    obtain ⟨hn, hfine⟩ := hwords n words hr
    have hflags := hfine.1
    simp only [NormalizedCommandPeel.failsClosed, Bool.or_eq_false_iff] at hflags
    obtain ⟨⟨⟨hexh, hamb⟩, hunc⟩, hsplit⟩ := hflags
    refine ⟨hn, ⟨hexh, hamb, hunc, hsplit⟩, segmentFine_allowed hfine, ?_⟩
    cases hshape : inlineShape words with
    | notInline => exact .inl rfl
    | literal index =>
      have hscript : IsDashCScript words ((normalizeCommandWords words).words.getD index []) :=
        ⟨index, hshape, inlineShape_literal hshape⟩
      exact .inr ⟨_, hscript, (hscripts (n + 1) _ (.nest hr hscript)).2⟩
    | untrusted => exact absurd hshape hfine.2.2.1
    | unrecognized => exact absurd hshape hfine.2.2.2
  · intro h
    have hchain : (new env rules).bashChainFullyAllowed .narrowOnly maxInlineShellDepth cmd = true :=
      (Bool.and_eq_true_iff.mp h).2
    obtain ⟨hscripts, hwords⟩ := (bashChainFullyAllowed_iff _ _ _ _).mp hchain
    refine ⟨(bashChainFullyAllowed_iff _ _ _ _).mpr ⟨hscripts, fun n words hr => ?_⟩, ?_⟩
    · obtain ⟨hn, hfine⟩ := hwords n words hr
      exact ⟨hn, (segmentFine_narrow hfine).1⟩
    · intro n words hr
      exact (segmentFine_narrow (hwords n words hr).2).2

end CompiledPolicy

/-- `timeout 5 ''` runs the empty command word. -/
def emptyWordEnv : PolicyEnv :=
  tableEnv [("timeout 5 ''".toList, [["timeout", "5", ""].map String.toList])]

def allowBash : PermissionRule := ⟨.allow, .bash, some "*".toList, .glob⟩

/-- An allowed argv whose normalized words join to the empty text. -/
theorem empty_join_allowed :
    (CompiledPolicy.new emptyWordEnv [allowBash]).evaluate (.bash "timeout 5 ''".toList) =
      some .allow ∧
    DashCReachable emptyWordEnv "timeout 5 ''".toList 0 (["timeout", "5", ""].map String.toList) ∧
    ¬ (joinWords (normalizeCommandWords (["timeout", "5", ""].map String.toList)).words ≠ [] ∧
      AllowRuleMatchesText emptyWordEnv [allowBash]
        (joinWords (normalizeCommandWords (["timeout", "5", ""].map String.toList)).words)) := by
  refine ⟨by decide, .here ⟨_, rfl, by simp⟩, ?_⟩
  rintro ⟨hne, -⟩
  exact hne (by decide)

/-- The narrow rule `rm` allows and authorizes `rm x`. -/
theorem allowRm_conjunctive :
    HasSegments nestedEnv "rm x".toList ∧
      headIsExecVehicle (normalizeCommandWords (["rm", "x"].map String.toList)).words = false := by
  have h := CompiledPolicy.bash_allow_conjunctive nestedEnv
    [⟨.allow, .bash, some "rm".toList, .glob⟩] "rm x".toList
  exact ⟨(h.1 (by decide)).1, (h.2 (by decide)).2 0 _ (.here ⟨_, rfl, by simp⟩)⟩

end GrokBuild.Permission
