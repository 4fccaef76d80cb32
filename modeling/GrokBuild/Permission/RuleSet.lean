import GrokBuild.Permission.BashGate

/-!
# Verdicts as functions of the rule set

Neither the order of the rules nor an added allow rule changes what is rejected or asked, and
added deny and ask rules only strengthen a verdict.
-/

namespace GrokBuild.Permission
open Text

/-- The order Reject > Ask > (Allow or nothing). -/
def strength : Option Decision → ℕ
  | some (.reject _) | some (.policyDeny _) => 2
  | some .ask => 1
  | _ => 0

def gateStrength (verdict : Option GateDecision) : ℕ :=
  strength (verdict.map GateDecision.intoDecision)

/-- Equal, or both rejections. -/
def SameDecision (a b : Option Decision) : Prop :=
  a = b ∨ ∃ r r', a = some (.reject r) ∧ b = some (.reject r')

def SameGateDecision (a b : Option GateDecision) : Prop :=
  a = b ∨ ∃ r r', a = some (.reject r) ∧ b = some (.reject r')

theorem sameGateDecision_of_gateRank_eq {a b : Option GateDecision} (h : gateRank a = gateRank b) :
    SameGateDecision a b := by
  cases a with
  | none => exact .inl (gateRank_eq_zero_iff.mp h.symm).symm
  | some x =>
    cases b with
    | none => simpa using gateRank_eq_zero_iff.mp h
    | some y => cases x <;> cases y <;> simp_all [SameGateDecision]

theorem gateStrength_mono {a b : Option GateDecision} (h : gateRank a ≤ gateRank b) :
    gateStrength a ≤ gateStrength b := by
  cases a with
  | none => simp [gateStrength, strength]
  | some x =>
    cases b with
    | none => cases x <;> simp at h
    | some y =>
      cases x <;> cases y <;> simp_all [gateStrength, strength, GateDecision.intoDecision]

variable {env : PolicyEnv}

theorem any_eq_of_perm {α : Type*} {xs ys : List α} (h : xs.Perm ys) (q : α → Bool) :
    xs.any q = ys.any q := by
  rw [Bool.eq_iff_iff, List.any_eq_true, List.any_eq_true]
  exact exists_congr fun x => and_congr_left fun _ => h.mem_iff

theorem any_insert {α : Type*} (q : α → Bool) (pre post : List α) (x : α) :
    (pre ++ x :: post).any q = (q x || (pre ++ post).any q) := by
  rw [any_eq_of_perm List.perm_middle, List.any_cons]

namespace CompiledPolicy

theorem firstDeny_isSome_perm (env : PolicyEnv) {rules rules' : List PermissionRule} (h : rules.Perm rules')
    (access : AccessKind) (cwd : Option Str) :
    (firstDeny env rules access cwd).isSome = (firstDeny env rules' access cwd).isSome := by
  rw [Bool.eq_iff_iff, firstDeny_isSome_iff, firstDeny_isSome_iff]
  exact exists_congr fun rule => and_congr_left fun _ => h.mem_iff

theorem firstDeny_insert (env : PolicyEnv) {rule : PermissionRule} (h : rule.action ≠ .deny)
    (pre post : List PermissionRule) (access : AccessKind) (cwd : Option Str) :
    firstDeny env (pre ++ rule :: post) access cwd = firstDeny env (pre ++ post) access cwd := by
  simp [firstDeny, List.find?_append, h]

theorem askMatches_insert (env : PolicyEnv) {rule : PermissionRule} (h : rule.action ≠ .ask)
    (pre post : List PermissionRule) (access : AccessKind) (cwd : Option Str) :
    askMatches env (pre ++ rule :: post) access cwd = askMatches env (pre ++ post) access cwd := by
  rw [askMatches, any_insert, beq_false_of_ne h]
  rfl

theorem firstDeny_isSome_insert (env : PolicyEnv) (pre post : List PermissionRule) (rule : PermissionRule)
    (access : AccessKind) (cwd : Option Str)
    (h : (firstDeny env (pre ++ post) access cwd).isSome) :
    (firstDeny env (pre ++ rule :: post) access cwd).isSome := by
  obtain ⟨r, hr, hd⟩ := firstDeny_isSome_iff.mp h
  refine firstDeny_isSome_iff.mpr ⟨r, ?_, hd⟩
  exact List.perm_middle.symm.subset (List.mem_cons_of_mem rule hr)

theorem askMatches_of_insert (env : PolicyEnv) (pre post : List PermissionRule) (rule : PermissionRule)
    (access : AccessKind) (cwd : Option Str)
    (h : askMatches env (pre ++ post) access cwd = true) :
    askMatches env (pre ++ rule :: post) access cwd = true := by
  rw [askMatches, any_insert, Bool.or_eq_true]
  exact .inr h

theorem strength_evaluateLexicalWithCwd (rules : List PermissionRule) (access : AccessKind)
    (cwd : Option Str) :
    strength ((new env rules).evaluateLexicalWithCwd access cwd) =
      if (firstDeny env rules access cwd).isSome then 2
      else if askMatches env rules access cwd then 1 else 0 := by
  rw [evaluateLexicalWithCwd_new]
  cases firstDeny env rules access cwd with
  | some rule => rfl
  | none =>
    cases askMatches env rules access cwd with
    | true => rfl
    | false => cases access <;> simp <;> split_ifs <;> rfl

/-! The allow check depends on the rules through `bashWordsAllowed` only. -/

theorem bashChainFullyAllowed_congr {p q : CompiledPolicy env} {scope : AllowRuleScope}
    (h : ∀ words, p.bashWordsAllowed words scope = q.bashWordsAllowed words scope)
    (depth : ℕ) (cmd : Str) :
    p.bashChainFullyAllowed scope depth cmd = q.bashChainFullyAllowed scope depth cmd := by
  have hseg (recurse : Option (Str → Bool)) (cmd : Str) :
      p.bashSegmentsAllowed scope recurse cmd = q.bashSegmentsAllowed scope recurse cmd := by
    unfold bashSegmentsAllowed bashSegmentAllowed
    simp only [h]
  induction depth generalizing cmd with
  | zero => exact hseg none cmd
  | succ depth ih =>
    unfold bashChainFullyAllowed
    rw [hseg, funext ih]

theorem bashWordsAllowed_perm (env : PolicyEnv) {rules rules' : List PermissionRule} (h : rules.Perm rules')
    (words : List Str) (scope : AllowRuleScope) :
    (new env rules).bashWordsAllowed words scope = (new env rules').bashWordsAllowed words scope := by
  rw [bashWordsAllowed_new, bashWordsAllowed_new, any_eq_of_perm h]

theorem evaluateLexicalWithCwd_perm {rules rules' : List PermissionRule} (h : rules.Perm rules')
    (access : AccessKind) (cwd : Option Str) :
    SameDecision ((new env rules).evaluateLexicalWithCwd access cwd)
      ((new env rules').evaluateLexicalWithCwd access cwd) := by
  have hdeny := firstDeny_isSome_perm env h access cwd
  rw [evaluateLexicalWithCwd_new, evaluateLexicalWithCwd_new]
  cases hd : firstDeny env rules access cwd with
  | some rule =>
    rw [hd, Option.isSome_some, eq_comm, Option.isSome_iff_exists] at hdeny
    obtain ⟨rule', hd'⟩ := hdeny
    exact .inr ⟨_, _, rfl, by rw [hd']⟩
  | none =>
    rw [hd, Option.isSome_none, eq_comm, Option.isSome_eq_false_iff, Option.isNone_iff_eq_none]
      at hdeny
    have hask : askMatches env rules access cwd = askMatches env rules' access cwd :=
      any_eq_of_perm h _
    have hallow : allowMatches env rules access cwd = allowMatches env rules' access cwd :=
      any_eq_of_perm h _
    have hflag : (new env rules).hasBashAllowRules = (new env rules').hasBashAllowRules :=
      any_eq_of_perm h _
    have hchain := bashChainFullyAllowed_congr fun words => bashWordsAllowed_perm env h words .any
    refine .inl ?_
    rw [hdeny, hask, hallow, hflag]
    cases access <;> simp only [hchain]

/-! The gate depends on the rules through `escalate` only. -/

theorem evaluateCommandWords_mono {p q : CompiledPolicy env}
    (h : ∀ segment, gateRank (p.escalate segment) ≤ gateRank (q.escalate segment))
    {f g : Option (Str → Option GateDecision)} (hfg : ∀ script, innerRank f script ≤ innerRank g script)
    (words : List Str) :
    gateRank (p.evaluateCommandWords f words) ≤ gateRank (q.evaluateCommandWords g words) := by
  rcases Nat.eq_zero_or_pos (gateRank (p.evaluateCommandWords f words)) with h0 | hk
  · omega
  · have hp := (le_gateRank_evaluateCommandWords p f words hk).mp le_rfl
    refine (le_gateRank_evaluateCommandWords q g words hk).mpr ?_
    rcases hp with (hp | hp | hp | hp) | ⟨script, hs, hp⟩
    · exact .inl (.inl hp)
    · exact .inl (.inr (.inl hp))
    · exact .inl (.inr (.inr (.inl (hp.trans (h _)))))
    · exact .inl (.inr (.inr (.inr (hp.trans (h _)))))
    · exact .inr ⟨script, hs, hp.trans (hfg script)⟩

theorem evaluateSegments_mono {p q : CompiledPolicy env}
    (h : ∀ segment, gateRank (p.escalate segment) ≤ gateRank (q.escalate segment))
    {f g : Option (Str → Option GateDecision)} (hfg : ∀ script, innerRank f script ≤ innerRank g script)
    (cmd : Str) :
    gateRank (p.evaluateSegments f cmd) ≤ gateRank (q.evaluateSegments g cmd) := by
  rcases Nat.eq_zero_or_pos (gateRank (p.evaluateSegments f cmd)) with h0 | hk
  · omega
  · refine (le_gateRank_evaluateSegments q g cmd hk).mpr ?_
    rcases (le_gateRank_evaluateSegments p f cmd hk).mp le_rfl with hp | ⟨words, hw, hp⟩
    · exact .inl hp
    · exact .inr ⟨words, hw, hp.trans (evaluateCommandWords_mono h hfg words)⟩

theorem evaluateBashCommandSegments_mono {p q : CompiledPolicy env}
    (h : ∀ segment, gateRank (p.escalate segment) ≤ gateRank (q.escalate segment))
    (depth : ℕ) (cmd : Str) :
    gateRank (p.evaluateBashCommandSegments depth cmd) ≤
      gateRank (q.evaluateBashCommandSegments depth cmd) := by
  induction depth generalizing cmd with
  | zero => exact evaluateSegments_mono h (fun _ => le_rfl) cmd
  | succ depth ih => exact evaluateSegments_mono h (f := some _) (g := some _) ih cmd

theorem evaluateBashCommandGate_mono {rules rules' : List PermissionRule}
    (hflag : (new env rules).hasBashCommandRestrictions = true →
      (new env rules').hasBashCommandRestrictions = true)
    (h : ∀ segment, gateRank ((new env rules).escalate segment) ≤
      gateRank ((new env rules').escalate segment)) (cmd : Str) :
    gateRank ((new env rules).evaluateBashCommandGate cmd) ≤
      gateRank ((new env rules').evaluateBashCommandGate cmd) := by
  unfold evaluateBashCommandGate
  cases hr : (new env rules).hasBashCommandRestrictions with
  | false => simp
  | true =>
    rw [hflag hr]
    exact evaluateBashCommandSegments_mono h _ cmd

theorem evaluateBashCommandSegments_congr {p q : CompiledPolicy env}
    (h : ∀ segment, p.escalate segment = q.escalate segment) (depth : ℕ) (cmd : Str) :
    p.evaluateBashCommandSegments depth cmd = q.evaluateBashCommandSegments depth cmd := by
  have hseg (recurse : Option (Str → Option GateDecision)) (cmd : Str) :
      p.evaluateSegments recurse cmd = q.evaluateSegments recurse cmd := by
    unfold evaluateSegments evaluateCommandWords
    simp only [h]
  induction depth generalizing cmd with
  | zero => exact hseg none cmd
  | succ depth ih =>
    unfold evaluateBashCommandSegments
    rw [hseg, funext ih]

theorem gateRank_escalate (rules : List PermissionRule) (segment : Str) :
    gateRank ((new env rules).escalate segment) =
      if (firstDeny env rules (.bash segment) none).isSome then 3
      else if askMatches env rules (.bash segment) none then 2 else 0 := by
  rw [escalate_new]
  cases firstDeny env rules (.bash segment) none with
  | some rule => rfl
  | none => cases askMatches env rules (.bash segment) none <;> rfl

theorem gateRank_escalate_insert (pre post : List PermissionRule) (rule : PermissionRule)
    (segment : Str) :
    gateRank ((new env (pre ++ post)).escalate segment) ≤
      gateRank ((new env (pre ++ rule :: post)).escalate segment) := by
  have hdeny := firstDeny_isSome_insert env pre post rule (.bash segment) none
  have hask := askMatches_of_insert env pre post rule (.bash segment) none
  rw [gateRank_escalate, gateRank_escalate]
  split_ifs <;> simp_all

theorem hasBashCommandRestrictions_insert (pre post : List PermissionRule) (rule : PermissionRule)
    (h : (new env (pre ++ post)).hasBashCommandRestrictions = true) :
    (new env (pre ++ rule :: post)).hasBashCommandRestrictions = true := by
  change (pre ++ rule :: post).any _ = true
  rw [any_insert, Bool.or_eq_true]
  exact .inr h

/-- No inserted rule weakens the gate. -/
theorem evaluateBashCommandGate_insert (env : PolicyEnv) (pre post : List PermissionRule) (rule : PermissionRule)
    (cmd : Str) :
    gateRank ((new env (pre ++ post)).evaluateBashCommandGate cmd) ≤
      gateRank ((new env (pre ++ rule :: post)).evaluateBashCommandGate cmd) :=
  evaluateBashCommandGate_mono (hasBashCommandRestrictions_insert pre post rule)
    (gateRank_escalate_insert pre post rule) cmd

theorem evaluateBashCommandGate_insert_allow (pre post : List PermissionRule)
    {rule : PermissionRule} (h : rule.action = .allow) (cmd : Str) :
    (new env (pre ++ rule :: post)).evaluateBashCommandGate cmd =
      (new env (pre ++ post)).evaluateBashCommandGate cmd := by
  have hflag : (new env (pre ++ rule :: post)).hasBashCommandRestrictions =
      (new env (pre ++ post)).hasBashCommandRestrictions := by
    change (pre ++ rule :: post).any _ = (pre ++ post).any _
    rw [any_insert, h]
    rfl
  have hesc (segment : Str) : (new env (pre ++ rule :: post)).escalate segment =
      (new env (pre ++ post)).escalate segment := by
    rw [escalate_new, escalate_new, firstDeny_insert env (by simp [h]), askMatches_insert env (by simp [h])]
  rw [evaluateBashCommandGate, evaluateBashCommandGate, hflag,
    evaluateBashCommandSegments_congr hesc]

theorem evaluateBashCommandGate_perm {rules rules' : List PermissionRule} (h : rules.Perm rules')
    (cmd : Str) :
    SameGateDecision ((new env rules).evaluateBashCommandGate cmd)
      ((new env rules').evaluateBashCommandGate cmd) := by
  have hflag : (new env rules).hasBashCommandRestrictions =
      (new env rules').hasBashCommandRestrictions := any_eq_of_perm h _
  have hesc (segment : Str) : gateRank ((new env rules).escalate segment) =
      gateRank ((new env rules').escalate segment) := by
    have hask : askMatches env rules (.bash segment) none =
        askMatches env rules' (.bash segment) none := any_eq_of_perm h _
    rw [gateRank_escalate, gateRank_escalate, firstDeny_isSome_perm env h, hask]
  apply sameGateDecision_of_gateRank_eq
  apply le_antisymm
  · exact evaluateBashCommandGate_mono (fun hr => hflag ▸ hr) (fun s => (hesc s).le) cmd
  · exact evaluateBashCommandGate_mono (fun hr => hflag ▸ hr) (fun s => (hesc s).ge) cmd

theorem strength_insert (env : PolicyEnv) (pre post : List PermissionRule) (rule : PermissionRule)
    (access : AccessKind) (cwd : Option Str) :
    strength ((new env (pre ++ post)).evaluateLexicalWithCwd access cwd) ≤
      strength ((new env (pre ++ rule :: post)).evaluateLexicalWithCwd access cwd) := by
  have hdeny := firstDeny_isSome_insert env pre post rule access cwd
  have hask := askMatches_of_insert env pre post rule access cwd
  rw [strength_evaluateLexicalWithCwd, strength_evaluateLexicalWithCwd]
  split_ifs <;> simp_all

theorem evaluateLexicalWithCwd_insert_allow (pre post : List PermissionRule)
    {rule : PermissionRule} (h : rule.action = .allow) (access : AccessKind) (cwd : Option Str)
    (hs : 0 < strength ((new env (pre ++ post)).evaluateLexicalWithCwd access cwd)) :
    (new env (pre ++ rule :: post)).evaluateLexicalWithCwd access cwd =
      (new env (pre ++ post)).evaluateLexicalWithCwd access cwd := by
  have hnotDeny : rule.action ≠ .deny := by simp [h]
  have hnotAsk : rule.action ≠ .ask := by simp [h]
  have hdeny' := firstDeny_insert env hnotDeny pre post access cwd
  have hask' := askMatches_insert env hnotAsk pre post access cwd
  rw [strength_evaluateLexicalWithCwd] at hs
  cases hd : firstDeny env (pre ++ post) access cwd with
  | some r =>
    rw [evaluateLexicalWithCwd_of_deny hd, evaluateLexicalWithCwd_of_deny (hdeny'.trans hd)]
  | none =>
    have ha : askMatches env (pre ++ post) access cwd = true := by
      by_contra ha
      simp [hd, ha] at hs
    rw [evaluateLexicalWithCwd_of_ask hd ha,
      evaluateLexicalWithCwd_of_ask (hdeny'.trans hd) (hask'.trans ha)]

/-- Both verdicts depend on the rules as a set, up to the text of a rejection, and move only
towards Reject when deny or ask rules are added; an allow rule changes no Reject and no Ask. -/
theorem verdicts_depend_on_rule_set (env : PolicyEnv) (access : AccessKind) (cwd : Option Str)
    (cmd : Str) (pre post : List PermissionRule) (rule : PermissionRule) :
    (∀ rules', (pre ++ post).Perm rules' →
      SameDecision ((new env (pre ++ post)).evaluateLexicalWithCwd access cwd)
        ((new env rules').evaluateLexicalWithCwd access cwd) ∧
      SameGateDecision ((new env (pre ++ post)).evaluateBashCommandGate cmd)
        ((new env rules').evaluateBashCommandGate cmd)) ∧
    (rule.action = .deny →
      strength ((new env (pre ++ post)).evaluateLexicalWithCwd access cwd) ≤
        strength ((new env (pre ++ rule :: post)).evaluateLexicalWithCwd access cwd) ∧
      gateStrength ((new env (pre ++ post)).evaluateBashCommandGate cmd) ≤
        gateStrength ((new env (pre ++ rule :: post)).evaluateBashCommandGate cmd)) ∧
    (rule.action = .ask →
      (0 < strength ((new env (pre ++ post)).evaluateLexicalWithCwd access cwd) →
        0 < strength ((new env (pre ++ rule :: post)).evaluateLexicalWithCwd access cwd)) ∧
      (0 < gateStrength ((new env (pre ++ post)).evaluateBashCommandGate cmd) →
        0 < gateStrength ((new env (pre ++ rule :: post)).evaluateBashCommandGate cmd))) ∧
    (rule.action = .allow →
      (0 < strength ((new env (pre ++ post)).evaluateLexicalWithCwd access cwd) →
        (new env (pre ++ rule :: post)).evaluateLexicalWithCwd access cwd =
          (new env (pre ++ post)).evaluateLexicalWithCwd access cwd) ∧
      (0 < gateStrength ((new env (pre ++ post)).evaluateBashCommandGate cmd) →
        (new env (pre ++ rule :: post)).evaluateBashCommandGate cmd =
          (new env (pre ++ post)).evaluateBashCommandGate cmd)) := by
  have hlex := strength_insert env pre post rule access cwd
  have hgate := gateStrength_mono (evaluateBashCommandGate_insert env pre post rule cmd)
  refine ⟨fun rules' hperm => ?_, fun _ => ⟨hlex, hgate⟩, fun _ => ?_, fun hallow => ?_⟩
  · exact ⟨evaluateLexicalWithCwd_perm hperm access cwd, evaluateBashCommandGate_perm hperm cmd⟩
  · exact ⟨fun h => h.trans_le hlex, fun h => h.trans_le hgate⟩
  · exact ⟨evaluateLexicalWithCwd_insert_allow pre post hallow access cwd,
      fun _ => evaluateBashCommandGate_insert_allow pre post hallow cmd⟩

end CompiledPolicy

def allowAll : PermissionRule := ⟨.allow, .any, none, .glob⟩

/-- A blanket allow rule before the deny rule leaves the rejection of `rm x` in place. -/
theorem allowAll_keeps_denyRm :
    (CompiledPolicy.new nestedEnv [allowAll, denyRm]).evaluateBashCommandGate "rm x".toList =
      (CompiledPolicy.new nestedEnv [denyRm]).evaluateBashCommandGate "rm x".toList := by
  refine ((CompiledPolicy.verdicts_depend_on_rule_set nestedEnv (.bash "rm x".toList) none
    "rm x".toList [] [denyRm] allowAll).2.2.2 rfl).2 ?_
  decide

end GrokBuild.Permission
