import GrokBuild.Permission.BashGate
import GrokBuild.Permission.ShellAccess

/-!
# The shell file gate loses no denied file

The verdict of a script is the strongest of what its redirects and invocations contribute.
-/

namespace GrokBuild.Permission
open Text NestedReach

def GateAcc.rank (acc : GateAcc) : ℕ :=
  gateRank (combineGateDecisions acc.decision (CompiledPolicy.failClosedIf acc.forcedAsk))

/-- The rank that a fail-closed ask adds. -/
def askRank (b : Bool) : ℕ := gateRank (CompiledPolicy.failClosedIf b)

theorem GateAcc.rank_combine (acc : GateAcc) (d : Option GateDecision) :
    (acc.combine d).rank = max acc.rank (gateRank d) := by
  simp only [GateAcc.rank, GateAcc.combine, gateRank_combine]
  omega

theorem GateAcc.rank_force (acc : GateAcc) (b : Bool) :
    (acc.force b).rank = max acc.rank (askRank b) := by
  cases b <;> cases h : acc.forcedAsk <;>
    simp [GateAcc.rank, GateAcc.force, askRank, CompiledPolicy.failClosedIf, h]

/-- The strongest contribution of a list of findings. -/
def supRank {α : Type*} (g : α → ℕ) (xs : List α) : ℕ := (xs.map g).foldr max 0

theorem supRank_cons {α : Type*} (g : α → ℕ) (x : α) (xs : List α) :
    supRank g (x :: xs) = max (g x) (supRank g xs) := rfl

theorem le_supRank {α : Type*} (g : α → ℕ) {x : α} {xs : List α} (h : x ∈ xs) :
    g x ≤ supRank g xs := by
  induction xs with
  | nil => cases h
  | cons y ys ih =>
    rw [supRank_cons]
    rcases List.mem_cons.mp h with rfl | h
    · exact le_max_left _ _
    · exact (ih h).trans (le_max_right _ _)

theorem supRank_le {α : Type*} (g : α → ℕ) {k : ℕ} {xs : List α} (h : ∀ x ∈ xs, g x ≤ k) :
    supRank g xs ≤ k := by
  induction xs with
  | nil => exact Nat.zero_le k
  | cons y ys ih =>
    rw [supRank_cons]
    exact max_le (h y (by simp)) (ih fun x hx => h x (by simp [hx]))

theorem GateAcc.rank_foldl {α : Type*} {f : GateAcc → α → GateAcc} {g : α → ℕ}
    (hf : ∀ acc x, (f acc x).rank = max acc.rank (g x)) (xs : List α) (acc : GateAcc) :
    (xs.foldl f acc).rank = max acc.rank (supRank g xs) := by
  induction xs generalizing acc with
  | nil => simp [supRank]
  | cons x xs ih => rw [List.foldl_cons, ih, hf, supRank_cons, max_assoc]

namespace CompiledPolicy

variable {env : PolicyEnv}

section Ranks

variable (p : CompiledPolicy env) (cwd : Str)

def pathRank (cwdUnpinned : Bool) (operand : FileOperand) : ℕ :=
  gateRank (p.evaluateShellPath operand.1 cwd operand.2 cwdUnpinned)

def operandRank (cwdUnpinned : Bool) (operand : FileOperand) : ℕ :=
  max (askRank (shellArgIsAmbiguous operand.1)) (p.pathRank cwd cwdUnpinned operand)

def redirectRank (cwdUnpinned : Bool) (cwdChanges : List CwdPoison)
    (redirect : ShellRedirectTarget) : ℕ :=
  (p.evaluateRedirect cwd cwdUnpinned cwdChanges {} redirect).rank

def operandsRank (cwdUnpinned : Bool) (program : Str) (literals : List Str) : ℕ :=
  (p.evaluateOperands cwd cwdUnpinned program literals {}).rank

def programRank (cwdUnpinned parseFailed : Bool) (program : Str) (words : List ShellWord) : ℕ :=
  (p.evaluateProgram cwd cwdUnpinned parseFailed program words {}).rank

end Ranks

@[simp] theorem rank_empty : (({} : GateAcc)).rank = 0 := rfl

theorem rank_evaluateOperand (p : CompiledPolicy env) (cwd : Str) (cwdUnpinned : Bool)
    (acc : GateAcc) (operand : FileOperand) :
    (p.evaluateOperand cwd cwdUnpinned acc operand).rank =
      max acc.rank (p.operandRank cwd cwdUnpinned operand) := by
  rw [evaluateOperand, GateAcc.rank_combine, GateAcc.rank_force, max_assoc]
  rfl

theorem rank_evaluateRedirect (p : CompiledPolicy env) (cwd : Str) (cwdUnpinned : Bool)
    (cwdChanges : List CwdPoison) (acc : GateAcc) (redirect : ShellRedirectTarget) :
    (p.evaluateRedirect cwd cwdUnpinned cwdChanges acc redirect).rank =
      max acc.rank (p.redirectRank cwd cwdUnpinned cwdChanges redirect) := by
  unfold redirectRank evaluateRedirect
  cases redirect.path <;> simp [GateAcc.rank_combine, GateAcc.rank_force, max_assoc]

theorem rank_evaluateCandidate (p : CompiledPolicy env) (cwd : Str) (cwdUnpinned : Bool)
    (modes : List ShellFileMode) (acc : GateAcc) (token : Str) :
    (modes.foldl (fun acc mode => acc.combine (p.evaluateShellPath token cwd mode cwdUnpinned))
      (acc.force (shellArgIsAmbiguous token))).rank =
      max acc.rank (max (askRank (shellArgIsAmbiguous token))
        (supRank (fun mode => p.pathRank cwd cwdUnpinned (token, mode)) modes)) := by
  have h (acc : GateAcc) (mode : ShellFileMode) :
      (acc.combine (p.evaluateShellPath token cwd mode cwdUnpinned)).rank =
        max acc.rank (p.pathRank cwd cwdUnpinned (token, mode)) := GateAcc.rank_combine acc _
  rw [GateAcc.rank_foldl h, GateAcc.rank_force, max_assoc]

theorem rank_evaluateCandidates (p : CompiledPolicy env) (cwd : Str) (cwdUnpinned : Bool)
    (program : Str) (literals : List Str) (acc : GateAcc) :
    (p.evaluateCandidates cwd cwdUnpinned program literals acc).rank =
      max acc.rank (p.evaluateCandidates cwd cwdUnpinned program literals {}).rank := by
  unfold evaluateCandidates
  dsimp only
  split_ifs
  · simp
  · simp only [GateAcc.rank_force, GateAcc.rank_foldl (rank_evaluateCandidate p cwd cwdUnpinned _),
      rank_empty, Nat.zero_max, max_assoc]

theorem rank_evaluateOperands (p : CompiledPolicy env) (cwd : Str) (cwdUnpinned : Bool)
    (program : Str) (literals : List Str) (acc : GateAcc) :
    (p.evaluateOperands cwd cwdUnpinned program literals acc).rank =
      max acc.rank (p.operandsRank cwd cwdUnpinned program literals) := by
  have hfold := GateAcc.rank_foldl (rank_evaluateOperand p cwd cwdUnpinned)
  unfold operandsRank evaluateOperands
  dsimp only
  split_ifs
  · simp only [hfold, rank_empty, Nat.zero_max]
  · split
    · simp only [hfold, rank_empty, Nat.zero_max, max_assoc]
    · rw [rank_evaluateCandidates, hfold, rank_evaluateCandidates _ _ _ _ _
        ((specialFileOperands program literals).foldl (p.evaluateOperand cwd cwdUnpinned) {}), hfold]
      simp only [rank_empty, Nat.zero_max, max_assoc]

theorem rank_evaluateProgram (p : CompiledPolicy env) (cwd : Str) (cwdUnpinned parseFailed : Bool)
    (program : Str) (words : List ShellWord) (acc : GateAcc) :
    (p.evaluateProgram cwd cwdUnpinned parseFailed program words acc).rank =
      max acc.rank (p.programRank cwd cwdUnpinned parseFailed program words) := by
  unfold programRank evaluateProgram
  dsimp only
  split_ifs
  · simp
  · simp only [rank_evaluateOperands, GateAcc.rank_force, rank_empty, Nat.zero_max, max_assoc]

theorem rank_noteFlags (parseFailed : Bool) (peeled : CheckedInvocationPeel) (acc : GateAcc) :
    (noteFlags parseFailed peeled acc).rank =
      max acc.rank (noteFlags parseFailed peeled {}).rank := by
  simp only [noteFlags, GateAcc.rank_force, rank_empty, Nat.zero_max, max_assoc]

theorem rank_evaluateInline (recurse : Option (Str → Bool → Option GateDecision)) (unpinned : Bool)
    (words : List ShellWord) (acc : GateAcc) :
    (evaluateInline recurse unpinned words acc).rank =
      max acc.rank (evaluateInline recurse unpinned words {}).rank := by
  unfold evaluateInline
  cases shellDashCScript words with
  | literal index =>
    cases recurse with
    | none => simp [GateAcc.rank_force]
    | some recurse =>
      dsimp only
      split <;> simp [GateAcc.rank_combine]
  | notInline => simp
  | untrusted => simp [GateAcc.rank_force]
  | unrecognized => simp [GateAcc.rank_force]

theorem rank_evaluateHead (p : CompiledPolicy env) (cwd : Str) (unpinned parseFailed : Bool)
    (words : List ShellWord) (acc : GateAcc) :
    (p.evaluateHead cwd unpinned parseFailed words acc).rank =
      max acc.rank (p.evaluateHead cwd unpinned parseFailed words {}).rank := by
  unfold evaluateHead
  split
  · rw [rank_evaluateProgram]
    rfl
  · simp

/-- What an invocation contributes, once peeled, at its own cwd pinning. -/
def peeledRank (p : CompiledPolicy env) (cwd : Str) (unpinned parseFailed : Bool)
    (recurse : Option (Str → Bool → Option GateDecision)) (peeled : CheckedInvocationPeel) : ℕ :=
  max (noteFlags parseFailed peeled {}).rank
    (max (evaluateInline recurse unpinned peeled.words {}).rank
      (p.evaluateHead cwd unpinned parseFailed peeled.words {}).rank)

theorem rank_evaluateInvocation (p : CompiledPolicy env) (cwd : Str)
    (cwdUnpinned parseFailed : Bool) (cwdChanges : List CwdPoison)
    (recurse : Option (Str → Bool → Option GateDecision)) (acc : GateAcc) (inv : ShellInvocation) :
    (p.evaluateInvocation cwd cwdUnpinned parseFailed cwdChanges recurse acc inv).rank =
      max acc.rank (p.peeledRank cwd (invocationUnpinned cwdUnpinned cwdChanges inv) parseFailed
        recurse (unwrapInvocationChecked inv)) := by
  unfold evaluateInvocation peeledRank
  dsimp only
  rw [rank_evaluateHead, rank_evaluateInline, rank_noteFlags, max_assoc, max_assoc]

/-- The verdict on a script, as the strongest finding in it. -/
theorem gateRank_evaluateScript (p : CompiledPolicy env) {parse : Str → Option ParsedShell}
    {cmd : Str} {script : ParsedShell} (h : parse cmd = some script) (cwd : Str)
    (recurse : Option (Str → Bool → Option GateDecision)) (cwdUnpinned enteredInline : Bool) :
    gateRank (p.evaluateScript parse cwd recurse cmd cwdUnpinned enteredInline) =
      max (askRank (enteredInline && script.parseFailed))
        (max (supRank (p.redirectRank cwd cwdUnpinned script.cwdChanges) script.redirects)
          (supRank (fun inv => p.peeledRank cwd
            (invocationUnpinned cwdUnpinned script.cwdChanges inv) script.parseFailed recurse
            (unwrapInvocationChecked inv)) script.invocations)) := by
  unfold evaluateScript
  rw [h]
  dsimp only
  change GateAcc.rank _ = _
  rw [GateAcc.rank_foldl (rank_evaluateInvocation p cwd cwdUnpinned script.parseFailed
      script.cwdChanges recurse),
    GateAcc.rank_foldl (rank_evaluateRedirect p cwd cwdUnpinned script.cwdChanges), max_assoc]
  congr 1

end CompiledPolicy

section Denied

variable (env : PolicyEnv) (rules : List PermissionRule) (cwd : Str)

/-- A deny rule for this kind of access matches the text, as the policy matches paths under
`ruleCwd`. -/
def DeniesFile (ruleCwd : Option Str) (mode : ShellFileMode) (text : Str) : Prop :=
  ∃ rule ∈ rules, rule.action = .deny ∧ ruleApplies env (shellAccess mode text) ruleCwd rule

/-- A deny rule matches the normalized text of the operand or, when the cwd is pinned or the
operand absolute, its normalized absolute path. -/
def DeniedOperand (unpinned : Bool) (operand : FileOperand) : Prop :=
  let path := normalizeShellPath operand.1
  let ruleCwd := CompiledPolicy.shellRuleCwd path cwd unpinned
  DeniesFile env rules ruleCwd operand.2 path ∨
    ((unpinned = false ∨ isAbsoluteShellPath path = true) ∧
      DeniesFile env rules ruleCwd operand.2 (CompiledPolicy.anchoredPath path cwd))

/-- The file operands of a program, from the extractor that applies to it. -/
def fileOperands (program : Str) (literals : List Str) : List FileOperand :=
  specialFileOperands program literals ++
    if program = "dd".toList then []
    else
      match shellPathCommandOperands program literals with
      | some operands => operands
      | none =>
        (shellFileCandidates literals).flatMap fun token =>
          (CompiledPolicy.candidateModes program literals).map fun mode => (token, mode)

/-- What the gate meets in a script, with whether the cwd is unpinned there. -/
inductive ShellItem
  | redirect (target : ShellRedirectTarget) (unpinned : Bool)
  | invocation (inv : ShellInvocation) (unpinned : Bool)
  deriving DecidableEq

/-- The items of a script that starts with the cwd unpinned or not. -/
def IsShellItem (parse : Str → Option ParsedShell) (at_ : Str × Bool) (item : ShellItem) : Prop :=
  ∃ script, parse at_.1 = some script ∧
    ((∃ target ∈ script.redirects, item = .redirect target
      (at_.2 || cwdUnpinnedBefore script.cwdChanges target.startByte target.scope)) ∨
    ∃ inv ∈ script.invocations, item = .invocation inv
      (CompiledPolicy.invocationUnpinned at_.2 script.cwdChanges inv))

/-- The peeled words of the invocation are a shell with this literal `-c` script. -/
def HasInlineScript (inv : ShellInvocation) (inner : Str) : Prop :=
  ∃ index, shellDashCScript (unwrapInvocationChecked inv).words = .literal index ∧
    (unwrapInvocationChecked inv).words[index]? = some (.literal inner)

def IsInlineItem (item : ShellItem) (inner : Str × Bool) : Prop :=
  ∃ inv, item = .invocation inv inner.2 ∧ HasInlineScript inv inner.1

/-- The item names a denied file: a literal redirect target, or an operand of a known program. -/
def DeniedItem : ShellItem → Prop
  | .redirect target unpinned =>
    ∃ path, target.path = some path ∧ DeniedOperand env rules cwd unpinned (path, target.mode)
  | .invocation inv unpinned =>
    ∃ program rest, (unwrapInvocationChecked inv).words = .literal program :: rest ∧
      ∃ operand ∈ fileOperands (toAsciiLowercase (baseName program))
        (literalWords (unwrapInvocationChecked inv).words),
        DeniedOperand env rules cwd unpinned operand

end Denied

namespace CompiledPolicy

variable {env : PolicyEnv}

theorem three_le_escalateFile {rules : List PermissionRule} {ruleCwd : Option Str}
    {mode : ShellFileMode} {text : Str} (h : DeniesFile env rules ruleCwd mode text) :
    3 ≤ gateRank ((new env rules).escalateFile ruleCwd (shellAccess mode text)) := by
  obtain ⟨rule, hd⟩ := Option.isSome_iff_exists.mp (firstDeny_isSome_iff.mpr h)
  rw [escalateFile, evaluateLexicalWithCwd_of_deny hd]
  exact le_rfl

theorem three_le_evaluateShellPath {rules : List PermissionRule} {cwd : Str} {unpinned : Bool}
    {operand : FileOperand} (h : DeniedOperand env rules cwd unpinned operand) :
    3 ≤ (new env rules).pathRank cwd unpinned operand := by
  unfold pathRank evaluateShellPath
  dsimp only
  rw [gateRank_combine, gateRank_combine]
  refine le_max_of_le_left ?_
  rcases h with h | ⟨hpin, h⟩
  · exact le_max_of_le_left (three_le_escalateFile h)
  · refine le_max_of_le_right ?_
    have hcond : (unpinned && !isAbsoluteShellPath (normalizeShellPath operand.1)) = false := by
      rcases hpin with hpin | hpin <;> simp [hpin]
    rw [hcond, if_neg (by simp), gateRank_combine]
    exact le_max_of_le_left (three_le_escalateFile h)

theorem pathRank_le_operandRank (p : CompiledPolicy env) (cwd : Str) (unpinned : Bool)
    (operand : FileOperand) : p.pathRank cwd unpinned operand ≤ p.operandRank cwd unpinned operand :=
  le_max_right _ _

/-- No operand is skipped by the extractors' early exits. -/
theorem operandRank_le_operandsRank (p : CompiledPolicy env) (cwd : Str) (unpinned : Bool)
    {program : Str} {literals : List Str} {operand : FileOperand}
    (h : operand ∈ fileOperands program literals) :
    p.operandRank cwd unpinned operand ≤ p.operandsRank cwd unpinned program literals := by
  have hfold := GateAcc.rank_foldl (rank_evaluateOperand p cwd unpinned)
  unfold operandsRank evaluateOperands
  dsimp only
  rcases List.mem_append.mp h with h | h
  · -- a flag-named operand: everything after it only raises the rank
    have hspecial : p.operandRank cwd unpinned operand ≤
        ((specialFileOperands program literals).foldl (p.evaluateOperand cwd unpinned) {}).rank := by
      rw [hfold]
      exact le_max_of_le_right (le_supRank _ h)
    split_ifs
    · exact hspecial
    · split
      · rw [hfold]
        exact le_max_of_le_left hspecial
      · rw [rank_evaluateCandidates]
        exact le_max_of_le_left hspecial
  · by_cases hdd : program = "dd".toList
    · rw [if_pos hdd] at h
      cases h
    · rw [if_neg hdd] at h ⊢
      cases hops : shellPathCommandOperands program literals with
      | some operands =>
        rw [hops] at h
        rw [hfold]
        exact le_max_of_le_right (le_supRank _ h)
      | none =>
        rw [hops] at h
        obtain ⟨token, htoken, h⟩ := List.mem_flatMap.mp h
        obtain ⟨mode, hmode, rfl⟩ := List.mem_map.mp h
        have hmodes : (candidateModes program literals).isEmpty = false := by
          cases hm : candidateModes program literals with
          | nil => rw [hm] at hmode; cases hmode
          | cons m ms => rfl
        dsimp only
        rw [rank_evaluateCandidates]
        refine le_max_of_le_right ?_
        unfold evaluateCandidates
        dsimp only
        rw [hmodes, if_neg (by simp), GateAcc.rank_force,
          GateAcc.rank_foldl (rank_evaluateCandidate p cwd unpinned _)]
        refine le_max_of_le_left (le_max_of_le_right ?_)
        refine le_trans ?_ (le_supRank _ htoken)
        exact max_le_max le_rfl
          (le_supRank (fun mode => p.pathRank cwd unpinned (token, mode)) hmode)

theorem fileOperands_changeDirectory {program : Str} {literals : List Str}
    (h : ["cd", "pushd", "popd"].any (·.toList == program) = true) :
    fileOperands program literals = [] := by
  simp only [List.any_cons, List.any_nil, Bool.or_false, Bool.or_eq_true, beq_iff_eq] at h
  rcases h with rfl | rfl | rfl <;> simp [fileOperands, specialFileOperands,
    shellPathCommandOperands, isCreationProgram, candidateModes, shellFileMode]

theorem operandRank_le_programRank (p : CompiledPolicy env) (cwd : Str) (unpinned parseFailed : Bool)
    {program : Str} {words : List ShellWord} {operand : FileOperand}
    (h : operand ∈ fileOperands (toAsciiLowercase (baseName program)) (literalWords words)) :
    p.operandRank cwd unpinned operand ≤ p.programRank cwd unpinned parseFailed program words := by
  unfold programRank evaluateProgram
  dsimp only
  split_ifs with hcd
  · rw [fileOperands_changeDirectory hcd] at h
    cases h
  · rw [rank_evaluateOperands]
    exact le_max_of_le_right (p.operandRank_le_operandsRank cwd unpinned h)

/-- Wherever the item stands, it makes a script's verdict at least `k`. -/
def ItemWorth (p : CompiledPolicy env) (cwd : Str) (k : ℕ) : ShellItem → Prop
  | .redirect target unpinned => ∀ cwdUnpinned cwdChanges,
      (cwdUnpinned || cwdUnpinnedBefore cwdChanges target.startByte target.scope) = unpinned →
        k ≤ p.redirectRank cwd cwdUnpinned cwdChanges target
  | .invocation inv unpinned => ∀ parseFailed recurse,
      k ≤ p.peeledRank cwd unpinned parseFailed recurse (unwrapInvocationChecked inv)

theorem itemWorth_of_denied {rules : List PermissionRule} {cwd : Str} {item : ShellItem}
    (h : DeniedItem env rules cwd item) : (new env rules).ItemWorth cwd 3 item := by
  cases item with
  | redirect target unpinned =>
    intro cwdUnpinned cwdChanges hunpinned
    obtain ⟨path, hpath, hdenied⟩ := h
    have hrank := three_le_evaluateShellPath hdenied
    rw [← hunpinned] at hrank
    unfold pathRank at hrank
    unfold redirectRank evaluateRedirect
    simp only [hpath]
    rw [GateAcc.rank_combine]
    exact le_max_of_le_right hrank
  | invocation inv unpinned =>
    intro parseFailed recurse
    obtain ⟨program, rest, hwords, operand, hoperand, hdenied⟩ := h
    refine le_max_of_le_right (le_max_of_le_right ?_)
    unfold evaluateHead
    rw [hwords] at hoperand ⊢
    exact ((three_le_evaluateShellPath hdenied).trans (pathRank_le_operandRank _ _ _ _)).trans
      (operandRank_le_programRank _ _ _ _ hoperand)

/-- What an inline script is worth, an invocation that carries it is worth too. -/
theorem inline_le_peeledRank (p : CompiledPolicy env) (cwd : Str) (unpinned parseFailed : Bool)
    {inv : ShellInvocation} {inner : Str} (h : HasInlineScript inv inner)
    (recurse : Str → Bool → Option GateDecision) :
    gateRank (recurse inner unpinned) ≤ p.peeledRank cwd unpinned parseFailed (some recurse)
      (unwrapInvocationChecked inv) := by
  obtain ⟨index, hshape, hword⟩ := h
  refine le_max_of_le_right (le_max_of_le_left ?_)
  unfold evaluateInline
  simp only [hshape, hword, GateAcc.rank_combine]
  exact le_max_right _ _

theorem le_evaluateScript_of_item {p : CompiledPolicy env} {parse : Str → Option ParsedShell}
    {cwd : Str} {k : ℕ} {at_ : Str × Bool} {item : ShellItem} (hitem : IsShellItem parse at_ item)
    (hworth : p.ItemWorth cwd k item) (recurse : Option (Str → Bool → Option GateDecision))
    (enteredInline : Bool) :
    k ≤ gateRank (p.evaluateScript parse cwd recurse at_.1 at_.2 enteredInline) := by
  obtain ⟨script, hparse, ⟨target, ht, rfl⟩ | ⟨inv, hinv, rfl⟩⟩ := hitem
  · rw [gateRank_evaluateScript _ hparse]
    refine le_max_of_le_right (le_max_of_le_left ?_)
    exact (hworth at_.2 script.cwdChanges rfl).trans (le_supRank _ ht)
  · rw [gateRank_evaluateScript _ hparse]
    refine le_max_of_le_right (le_max_of_le_right ?_)
    exact (hworth script.parseFailed recurse).trans
      (le_supRank (fun inv => p.peeledRank cwd (invocationUnpinned at_.2 script.cwdChanges inv)
        script.parseFailed recurse (unwrapInvocationChecked inv)) hinv)

/-- What the gate finds in an inline script, it finds in the script around it. -/
theorem inline_le_evaluateScript (p : CompiledPolicy env) {parse : Str → Option ParsedShell}
    {cwd : Str} {at_ inner : Str × Bool} {item : ShellItem} (hitem : IsShellItem parse at_ item)
    (hinline : IsInlineItem item inner) (recurse : Str → Bool → Option GateDecision)
    (enteredInline : Bool) :
    gateRank (recurse inner.1 inner.2) ≤
      gateRank (p.evaluateScript parse cwd (some recurse) at_.1 at_.2 enteredInline) := by
  obtain ⟨inv, hinv, hscript⟩ := hinline
  obtain ⟨script, hparse, ⟨target, ht, rfl⟩ | ⟨inv', hinv', rfl⟩⟩ := hitem
  · cases hinv
  · obtain ⟨rfl, hunpinned⟩ := ShellItem.invocation.inj hinv
    rw [gateRank_evaluateScript _ hparse]
    refine le_max_of_le_right (le_max_of_le_right ?_)
    refine le_trans ?_ (le_supRank _ hinv')
    rw [hunpinned]
    exact inline_le_peeledRank p cwd inner.2 script.parseFailed hscript recurse

/-- What an item within the inline budget is worth, the verdict is worth. -/
theorem le_inner_of_reachable {p : CompiledPolicy env} {parse : Str → Option ParsedShell}
    {cwd : Str} {k : ℕ} {item : ShellItem} (hworth : p.ItemWorth cwd k item) {n depth : ℕ}
    (hn : n ≤ depth) {at_ : Str × Bool}
    (hreach : ReachAt (IsShellItem parse) IsInlineItem at_ n item) (enteredInline : Bool) :
    k ≤ gateRank (p.evaluateShellFileAccessInner parse cwd depth at_.1 at_.2 enteredInline) := by
  induction depth generalizing n at_ enteredInline with
  | zero =>
    obtain rfl : n = 0 := by omega
    exact le_evaluateScript_of_item (reachAt_zero_iff.mp hreach) hworth none enteredInline
  | succ depth ih =>
    cases n with
    | zero => exact le_evaluateScript_of_item (reachAt_zero_iff.mp hreach) hworth _ enteredInline
    | succ n =>
      obtain ⟨a, inner, ha, hinner, hreach⟩ := reachAt_succ_iff.mp hreach
      refine (ih (by omega) hreach true).trans ?_
      exact inline_le_evaluateScript _ ha hinner
        (fun inner unpinned => p.evaluateShellFileAccessInner parse cwd depth inner unpinned true)
        enteredInline

/-- A denied item within the inline budget makes the verdict a rejection. -/
theorem reject_of_reachable {rules : List PermissionRule} {parse : Str → Option ParsedShell}
    {cwd : Str} {item : ShellItem} (hdenied : DeniedItem env rules cwd item) {n depth : ℕ}
    (hn : n ≤ depth) {at_ : Str × Bool}
    (hreach : ReachAt (IsShellItem parse) IsInlineItem at_ n item) (enteredInline : Bool) :
    3 ≤ gateRank ((new env rules).evaluateShellFileAccessInner parse cwd depth at_.1 at_.2
      enteredInline) :=
  le_inner_of_reachable (itemWorth_of_denied hdenied) hn hreach enteredInline

end CompiledPolicy

end GrokBuild.Permission
