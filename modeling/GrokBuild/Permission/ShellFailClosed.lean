import GrokBuild.Permission.ShellPath
import GrokBuild.Permission.WritePaths

/-!
# What the file gate cannot pin

The fail-closed half of `evaluate_shell_file_access_inner`: a redirect or an operand whose file is
not known from the script's text must come back as an ask, whatever the rules are.
-/

namespace GrokBuild.Permission
open Text NestedReach

/-! ## Modelled and known programs -/

/-- One of `special_file_operands`, `shell_path_command_operands` and `shell_file_mode` has a case
for the program. -/
def isModelled (program : Str) : Bool :=
  ["dd", "sort", "go", "git", "rustc", "rustfmt"].any (·.toList == program) ||
    ["cp", "mv", "ln", "install", "rm", "rmdir", "mkdir", "touch", "uniq"].any
      (·.toList == program) ||
    (shellFileMode program).isSome

/-- `is_known` of the invocation loop. -/
def isKnown (program : Str) (literals : List Str) : Bool :=
  program == "dd".toList || (shellFileMode program).isSome ||
    (shellPathCommandOperands program literals).isSome

/-- The modelled programs that are not known: they are modelled by their flags only, or they need a
literal destination and have none. -/
def isOverlooked (program : Str) (literals : List Str) : Bool :=
  ["go", "git", "rustc", "rustfmt"].any (·.toList == program) ||
    (["cp", "mv", "ln", "install"].any (·.toList == program) &&
      (shellFileCandidates literals).isEmpty)

theorem isSome_getLast?_map {α β : Type*} (f : α → β) (xs : List α) :
    (xs.getLast?.map f).isSome = !xs.isEmpty := by
  cases xs with
  | nil => rfl
  | cons x xs => simp [List.getLast?_cons]

theorem isKnown_of_moves {program : Str}
    (h : ["cp", "mv", "ln", "install"].any (·.toList == program) = true) (literals : List Str) :
    isKnown program literals = !(shellFileCandidates literals).isEmpty := by
  have hops : shellPathCommandOperands program literals =
      (shellFileCandidates literals).getLast?.map fun dest =>
        (shellFileCandidates literals).dropLast.map (fun s => (s, .read)) ++ [(dest, .write)] := by
    rw [shellPathCommandOperands, if_pos h]
  have hrest : (program == "dd".toList || (shellFileMode program).isSome) = false := by
    simp only [List.any_cons, List.any_nil, Bool.or_false, Bool.or_eq_true, beq_iff_eq] at h
    rcases h with rfl | rfl | rfl | rfl <;> rfl
  rw [isKnown, hrest, hops, isSome_getLast?_map, Bool.false_or]

theorem isKnown_of_flags {program : Str}
    (h : ["go", "git", "rustc", "rustfmt"].any (·.toList == program) = true) (literals : List Str) :
    isKnown program literals = false := by
  simp only [List.any_cons, List.any_nil, Bool.or_false, Bool.or_eq_true, beq_iff_eq] at h
  rcases h with rfl | rfl | rfl | rfl <;> rfl

theorem isKnown_of_rest {program : Str} (h : isModelled program = true)
    (hmoves : ["cp", "mv", "ln", "install"].any (·.toList == program) = false)
    (hflags : ["go", "git", "rustc", "rustfmt"].any (·.toList == program) = false)
    (literals : List Str) : isKnown program literals = true := by
  unfold isModelled at h
  rw [Bool.or_eq_true, Bool.or_eq_true] at h
  obtain (hspecial | hpath) | hmode := h
  · simp only [List.any_cons, List.any_nil, Bool.or_false, Bool.or_eq_true, beq_iff_eq] at hspecial
    rcases hspecial with rfl | rfl | rfl | rfl | rfl | rfl
    · rfl
    · rfl
    · cases hflags
    · cases hflags
    · cases hflags
    · cases hflags
  · simp only [List.any_cons, List.any_nil, Bool.or_false, Bool.or_eq_true, beq_iff_eq] at hpath
    rcases hpath with rfl | rfl | rfl | rfl | rfl | rfl | rfl | rfl | rfl
    · cases hmoves
    · cases hmoves
    · cases hmoves
    · cases hmoves
    · rfl
    · rfl
    · rfl
    · rfl
    · rfl
  · rw [isKnown, hmode, Bool.or_true, Bool.true_or]

theorem isKnown_eq_not_isOverlooked {program : Str} (h : isModelled program = true)
    (literals : List Str) : isKnown program literals = !isOverlooked program literals := by
  unfold isOverlooked
  cases hflags : ["go", "git", "rustc", "rustfmt"].any (·.toList == program) with
  | true =>
    rw [isKnown_of_flags hflags]
    rfl
  | false =>
    cases hmoves : ["cp", "mv", "ln", "install"].any (·.toList == program) with
    | true =>
      rw [isKnown_of_moves hmoves]
      rfl
    | false =>
      rw [isKnown_of_rest h hmoves hflags]
      rfl

/-! ## What cannot be pinned -/

/-- The end of `shell_redirect_one`, on the destination word. -/
def shellRedirectOne (mode : ShellFileMode) (duplicatesFd : Bool) (startByte : ℕ)
    (scope : ExecutionScope) : ShellWord → Option ShellRedirectTarget
  | .literal s =>
    if s.isEmpty || startsWith s "&".toList ||
        (duplicatesFd && (s == "-".toList || s.all Char.isDigit)) then none
    else some ⟨some s, mode, shellArgIsAmbiguous s, startByte, scope⟩
  | .untrusted => some ⟨none, mode, true, startByte, scope⟩

/-- The target comes from a destination that is not literal. -/
def UntrustedTarget (target : ShellRedirectTarget) : Prop :=
  ∃ duplicatesFd, shellRedirectOne target.mode duplicatesFd target.startByte target.scope
    .untrusted = some target

/-- Relative to a Unix shell that has already unquoted the operand. -/
def isRelativeOperand (operand : Str) : Bool :=
  !isAbsolute operand && !startsWith operand "~/".toList

/-- The file operand does not name one file, or not one that is known without the cwd. -/
def OpenOperand (unpinned : Bool) (operand : FileOperand) : Prop :=
  shellArgIsAmbiguous operand.1 = true ∨ (unpinned = true ∧ isRelativeOperand operand.1 = true)

/-- An invocation whose files cannot be pinned: its peel is flagged, or a modelled program has a
dynamic word or an open operand. -/
def Unpinnable (inv : ShellInvocation) (unpinned : Bool) : Prop :=
  (normalizeCommandWords inv.wrapperWords).failsClosed = true ∨
    ∃ word rest, (unwrapInvocationChecked inv).words = .literal word :: rest ∧
      isModelled (programName word) = true ∧
        (.untrusted ∈ rest ∨ ∃ operand ∈ fileOperands (programName word)
          (literalWords (.literal word :: rest)), OpenOperand unpinned operand)

/-- The program is overlooked, and no operand of it is open to the gate, which takes some relative
texts for absolute ones. -/
def Escapes (inv : ShellInvocation) (unpinned : Bool) : Prop :=
  (normalizeCommandWords inv.wrapperWords).failsClosed = false ∧
    ∃ word rest, (unwrapInvocationChecked inv).words = .literal word :: rest ∧
      isOverlooked (programName word) (literalWords (.literal word :: rest)) = true ∧
        ∀ operand ∈ fileOperands (programName word) (literalWords (.literal word :: rest)),
          shellArgIsAmbiguous operand.1 = false ∧
            (unpinned = true → isAbsoluteShellPath (normalizeShellPath operand.1) = true)

namespace CompiledPolicy

variable {env : PolicyEnv}

theorem one_le_of_flags {inv : ShellInvocation}
    (h : (normalizeCommandWords inv.wrapperWords).failsClosed = true) (parseFailed : Bool) :
    1 ≤ (noteFlags parseFailed (unwrapInvocationChecked inv) {}).rank := by
  unfold noteFlags
  simp only [GateAcc.rank_force]
  unfold NormalizedCommandPeel.failsClosed at h
  unfold unwrapInvocationChecked
  simp only [Bool.or_eq_true] at h
  obtain ((h | h) | h) | h := h
  · simp [h, askRank, failClosedIf]
  · simp [h, askRank, failClosedIf]
  · simp [h, askRank, failClosedIf]
  · simp [h, askRank, failClosedIf]

theorem one_le_programRank_of_known (p : CompiledPolicy env) (cwd : Str)
    {unpinned : Bool} (parseFailed : Bool) {word : Str} {words : List ShellWord}
    (hknown : isKnown (programName word) (literalWords words) = true)
    (h : unpinned = true ∨ .untrusted ∈ words) :
    1 ≤ p.programRank cwd unpinned parseFailed word words := by
  unfold programRank evaluateProgram
  dsimp only
  split_ifs with hcd
  · -- the gate skips the commands that change the cwd, and knows none of them
    simp only [List.any_cons, List.any_nil, Bool.or_false, Bool.or_eq_true, beq_iff_eq] at hcd
    unfold programName at hknown
    rcases hcd with hcd | hcd | hcd
    · rw [← hcd] at hknown
      cases hknown
    · rw [← hcd] at hknown
      cases hknown
    · rw [← hcd] at hknown
      cases hknown
  · have hask : (unpinned || words.any (· == .untrusted) || parseFailed) = true := by
      obtain h | h := h
      · rw [h]
        rfl
      · have hany : words.any (· == .untrusted) = true :=
          List.any_eq_true.mpr ⟨_, h, beq_self_eq_true _⟩
        rw [hany]
        simp
    unfold isKnown programName at hknown
    rw [rank_evaluateOperands, GateAcc.rank_force, hknown, hask]
    exact le_max_of_le_left (le_max_right _ _)

theorem one_le_operandRank_of_ambiguous (p : CompiledPolicy env) (cwd : Str) (unpinned : Bool)
    {operand : FileOperand} (h : shellArgIsAmbiguous operand.1 = true) :
    1 ≤ p.operandRank cwd unpinned operand := by
  unfold operandRank
  rw [h]
  exact le_max_left _ _

theorem one_le_operandRank_of_relative (p : CompiledPolicy env) (cwd : Str) {operand : FileOperand}
    (h : isAbsoluteShellPath (normalizeShellPath operand.1) = false) :
    1 ≤ p.operandRank cwd true operand := by
  refine le_max_of_le_right ?_
  unfold pathRank evaluateShellPath
  dsimp only
  rw [gateRank_combine, h]
  exact le_max_right _ _

/-- An invocation that cannot be pinned and does not escape makes every verdict around it an ask. -/
theorem itemWorth_of_unpinnable (p : CompiledPolicy env) (cwd : Str) {inv : ShellInvocation}
    {unpinned : Bool} (h : Unpinnable inv unpinned) (hescapes : ¬ Escapes inv unpinned) :
    p.ItemWorth cwd 1 (.invocation inv unpinned) := by
  intro parseFailed recurse
  cases hflags : (normalizeCommandWords inv.wrapperWords).failsClosed with
  | true => exact le_max_of_le_left (one_le_of_flags hflags parseFailed)
  | false =>
    refine le_max_of_le_right (le_max_of_le_right ?_)
    obtain ⟨word, rest, hwords, hmodelled, hopen⟩ := h.resolve_left (by simp [hflags])
    rw [hwords]
    show 1 ≤ p.programRank cwd unpinned parseFailed word (.literal word :: rest)
    have hoperand {operand : FileOperand}
        (hmem : operand ∈ fileOperands (programName word) (literalWords (.literal word :: rest))) :
        p.operandRank cwd unpinned operand ≤
          p.programRank cwd unpinned parseFailed word (.literal word :: rest) :=
      p.operandRank_le_programRank cwd unpinned parseFailed hmem
    have hknown := isKnown_eq_not_isOverlooked hmodelled (literalWords (.literal word :: rest))
    cases hover : isOverlooked (programName word) (literalWords (.literal word :: rest)) with
    | false =>
      rw [hover] at hknown
      obtain hdynamic | ⟨operand, hmem, hamb | ⟨rfl, -⟩⟩ := hopen
      · exact p.one_le_programRank_of_known cwd parseFailed hknown
          (.inr (List.mem_cons_of_mem _ hdynamic))
      · exact (p.one_le_operandRank_of_ambiguous cwd unpinned hamb).trans (hoperand hmem)
      · exact p.one_le_programRank_of_known cwd parseFailed hknown (.inl rfl)
    | true =>
      -- only an open operand can stop it now
      by_contra hlow
      refine hescapes ⟨hflags, word, rest, hwords, hover, fun operand hmem => ⟨?_, ?_⟩⟩
      · by_contra hamb
        simp only [Bool.not_eq_false] at hamb
        exact hlow ((p.one_le_operandRank_of_ambiguous cwd unpinned hamb).trans (hoperand hmem))
      · rintro rfl
        by_contra hrel
        simp only [Bool.not_eq_true] at hrel
        exact hlow ((p.one_le_operandRank_of_relative cwd hrel).trans (hoperand hmem))

theorem itemWorth_of_untrustedTarget (p : CompiledPolicy env) (cwd : Str)
    {target : ShellRedirectTarget} (h : UntrustedTarget target) (unpinned : Bool) :
    p.ItemWorth cwd 1 (.redirect target unpinned) := by
  intro cwdUnpinned cwdChanges _
  obtain ⟨duplicatesFd, htarget⟩ := h
  rw [shellRedirectOne, Option.some.injEq] at htarget
  rw [← htarget]
  exact le_rfl

/-! ## Entered scripts -/

/-- A script that was entered and does not parse is worth an ask. -/
theorem one_le_of_parse_failed (p : CompiledPolicy env) {parse : Str → Option ParsedShell}
    (cwd : Str) {cmd : Str} (h : ∀ script, parse cmd = some script → script.parseFailed = true)
    (recurse : Option (Str → Bool → Option GateDecision)) (cwdUnpinned : Bool) :
    1 ≤ gateRank (p.evaluateScript parse cwd recurse cmd cwdUnpinned true) := by
  cases hparse : parse cmd with
  | none =>
    unfold evaluateScript
    rw [hparse]
    exact le_rfl
  | some script =>
    rw [gateRank_evaluateScript _ hparse, h script hparse]
    exact le_max_left _ _

/-- Without budget an inline script is worth an ask. -/
theorem one_le_of_spent_budget (p : CompiledPolicy env) {parse : Str → Option ParsedShell}
    (cwd : Str) {at_ inner : Str × Bool} {item : ShellItem} (hitem : IsShellItem parse at_ item)
    (hinline : IsInlineItem item inner) (enteredInline : Bool) :
    1 ≤ gateRank (p.evaluateScript parse cwd none at_.1 at_.2 enteredInline) := by
  obtain ⟨inv, rfl, index, hshape, hword⟩ := hinline
  obtain ⟨script, hparse, ⟨target, -, htarget⟩ | ⟨inv', hinv, heq⟩⟩ := hitem
  · cases htarget
  · obtain ⟨rfl, -⟩ := ShellItem.invocation.inj heq
    rw [gateRank_evaluateScript _ hparse]
    refine le_max_of_le_right (le_max_of_le_right ?_)
    refine le_trans ?_ (le_supRank _ hinv)
    refine le_max_of_le_right (le_max_of_le_left ?_)
    rw [rank_evaluateInline_literal none _ hshape hword]
    exact le_rfl

/-- What a nested script within the budget is worth, the verdict is worth. -/
theorem inner_le_of_scriptAt (p : CompiledPolicy env) {parse : Str → Option ParsedShell}
    (cwd : Str) {n depth : ℕ} {at_ inner : Str × Bool}
    (hscript : ScriptAt (IsShellItem parse) IsInlineItem at_ (n + 1) inner)
    (enteredInline : Bool) :
    gateRank (p.evaluateShellFileAccessInner parse cwd depth inner.1 inner.2 true) ≤
      gateRank (p.evaluateShellFileAccessInner parse cwd (depth + (n + 1)) at_.1 at_.2
        enteredInline) := by
  induction n generalizing at_ enteredInline with
  | zero =>
    obtain ⟨item, t, hitem, hinline, h⟩ := scriptAt_succ_iff.mp hscript
    cases h
    exact inline_le_evaluateScript p hitem hinline
      (fun inner unpinned => p.evaluateShellFileAccessInner parse cwd depth inner unpinned true)
      enteredInline
  | succ n ih =>
    obtain ⟨item, t, hitem, hinline, h⟩ := scriptAt_succ_iff.mp hscript
    refine (ih h true).trans ?_
    exact inline_le_evaluateScript p hitem hinline
      (fun inner unpinned => p.evaluateShellFileAccessInner parse cwd (depth + (n + 1)) inner
        unpinned true) enteredInline

/-- Scripts nested deeper than the budget are worth an ask. -/
theorem one_le_of_deep (p : CompiledPolicy env) {parse : Str → Option ParsedShell} (cwd : Str)
    {n depth : ℕ} (hdeep : depth < n) {at_ inner : Str × Bool}
    (hscript : ScriptAt (IsShellItem parse) IsInlineItem at_ n inner) (enteredInline : Bool) :
    1 ≤ gateRank (p.evaluateShellFileAccessInner parse cwd depth at_.1 at_.2 enteredInline) := by
  induction depth generalizing n at_ enteredInline with
  | zero =>
    obtain ⟨m, rfl⟩ : ∃ m, n = m + 1 := ⟨n - 1, by omega⟩
    obtain ⟨item, t, hitem, hinline, -⟩ := scriptAt_succ_iff.mp hscript
    exact p.one_le_of_spent_budget cwd hitem hinline enteredInline
  | succ depth ih =>
    obtain ⟨m, rfl⟩ : ∃ m, n = m + 1 := ⟨n - 1, by omega⟩
    obtain ⟨item, t, hitem, hinline, h⟩ := scriptAt_succ_iff.mp hscript
    refine (ih (by omega) h true).trans ?_
    exact inline_le_evaluateScript p hitem hinline
      (fun inner unpinned => p.evaluateShellFileAccessInner parse cwd depth inner unpinned true)
      enteredInline

theorem gate_ne_none_iff {p : CompiledPolicy env} {parse : Str → Option ParsedShell}
    {cmd cwd : Str} (h : p.hasFileRestrictions = true) :
    p.evaluateShellFileAccessGate parse cmd cwd ≠ none ↔
      1 ≤ gateRank (p.evaluateShellFileAccessInner parse cwd maxInlineShellDepth cmd false false) := by
  rw [evaluateShellFileAccessGate, h]
  simp only [Bool.not_true, Bool.false_eq_true, if_false]
  exact gateRank_pos_iff.symm

/-! ## A policy that matches nothing -/

/-- A `Read` restriction whose pattern matches no path. -/
def quietPolicy : CompiledPolicy (probeEnv (fun _ => false) fun _ => none) :=
  new (probeEnv (fun _ => false) fun _ => none) [probeRule]

theorem quiet_escalateFile (ruleCwd : Option Str) (mode : ShellFileMode) (text : Str) :
    quietPolicy.escalateFile ruleCwd (shellAccess mode text) = none := by
  have happ : ruleApplies (probeEnv (fun _ => false) fun _ => none) (shellAccess mode text) ruleCwd
      probeRule = false := by
    cases mode
    · simp [ruleApplies, shellAccess, probeRule, toolFilterMatches, patternMatches,
        pathContextMatches, globMatches, probeEnv]
    · rfl
    · rfl
  have hlexical : quietPolicy.evaluateLexicalWithCwd (shellAccess mode text) ruleCwd = none := by
    rw [quietPolicy, evaluateLexicalWithCwd_new]
    simp only [firstDeny, askMatches, allowMatches, List.find?_cons, List.find?_nil, List.any_cons,
      List.any_nil, happ, Bool.and_false, Bool.or_false, Bool.false_eq_true, if_false]
    cases mode <;> rfl
  rw [escalateFile, hlexical]

theorem quiet_evaluateShellPath {token cwd : Str} {mode : ShellFileMode} {unpinned : Bool}
    (h : unpinned = true → isAbsoluteShellPath (normalizeShellPath token) = true) :
    quietPolicy.evaluateShellPath token cwd mode unpinned = none := by
  have hpinned : (unpinned && !isAbsoluteShellPath (normalizeShellPath token)) = false := by
    cases unpinned with
    | false => rfl
    | true => rw [h rfl]; rfl
  have hfollow (raw lexical : Str) :
      followAbsoluteSymlink (probeEnv (fun _ => false) fun _ => none) raw lexical = .none := rfl
  unfold evaluateShellPath
  simp only [quiet_escalateFile, hfollow, hpinned, Bool.false_eq_true, if_false]
  split_ifs <;> rfl

theorem isModelled_of_isOverlooked {program : Str} {literals : List Str}
    (h : isOverlooked program literals = true) : isModelled program = true := by
  unfold isOverlooked at h
  rw [Bool.or_eq_true, Bool.and_eq_true] at h
  simp only [List.any_cons, List.any_nil, Bool.or_false, Bool.or_eq_true, beq_iff_eq] at h
  rcases h with (rfl | rfl | rfl | rfl) | ⟨rfl | rfl | rfl | rfl, -⟩ <;> rfl

/-- An overlooked program has no operands but its flag values. -/
theorem shellPathCommandOperands_of_isOverlooked {program : Str} {literals : List Str}
    (h : isOverlooked program literals = true) :
    shellPathCommandOperands program literals = none ∧ candidateModes program literals = [] ∧
      program ≠ "dd".toList ∧ ["cd", "pushd", "popd"].any (·.toList == program) = false := by
  have hknown := isKnown_eq_not_isOverlooked (isModelled_of_isOverlooked h) literals
  rw [h, isKnown, Bool.not_true, Bool.or_eq_false_iff, Bool.or_eq_false_iff] at hknown
  obtain ⟨⟨hdd, hmode⟩, hops⟩ := hknown
  refine ⟨by simpa using hops, ?_, by simpa using hdd, ?_⟩
  · rw [Option.isSome_eq_false_iff, Option.isNone_iff_eq_none] at hmode
    rw [candidateModes, hmode]
  · unfold isOverlooked at h
    rw [Bool.or_eq_true, Bool.and_eq_true] at h
    simp only [List.any_cons, List.any_nil, Bool.or_false, Bool.or_eq_true, beq_iff_eq] at h
    rcases h with (rfl | rfl | rfl | rfl) | ⟨rfl | rfl | rfl | rfl, -⟩ <;> rfl

theorem fileOperands_of_isOverlooked {program : Str} {literals : List Str}
    (h : isOverlooked program literals = true) :
    fileOperands program literals = specialFileOperands program literals := by
  obtain ⟨hops, hmodes, hdd, -⟩ := shellPathCommandOperands_of_isOverlooked h
  unfold fileOperands
  rw [if_neg hdd, hops, hmodes]
  simp

theorem quiet_programRank {cwd word : Str} {words : List ShellWord} {unpinned : Bool}
    (hover : isOverlooked (programName word) (literalWords words) = true)
    (hoperands : ∀ operand ∈ fileOperands (programName word) (literalWords words),
      shellArgIsAmbiguous operand.1 = false ∧
        (unpinned = true → isAbsoluteShellPath (normalizeShellPath operand.1) = true)) :
    quietPolicy.programRank cwd unpinned false word words = 0 := by
  obtain ⟨hops, hmodes, hdd, hcd⟩ := shellPathCommandOperands_of_isOverlooked hover
  have hknown := isKnown_eq_not_isOverlooked (isModelled_of_isOverlooked hover) (literalWords words)
  rw [hover, isKnown, Bool.not_true] at hknown
  rw [fileOperands_of_isOverlooked hover] at hoperands
  unfold programName at *
  have hspecial : supRank (quietPolicy.operandRank cwd unpinned)
      (specialFileOperands (toAsciiLowercase (baseName word)) (literalWords words)) ≤ 0 := by
    apply supRank_le
    intro operand hmem
    obtain ⟨hamb, hpinned⟩ := hoperands operand hmem
    unfold operandRank pathRank
    rw [hamb, quiet_evaluateShellPath hpinned]
    exact le_rfl
  unfold programRank evaluateProgram
  dsimp only
  rw [hcd, hknown, Bool.false_and]
  simp only [Bool.false_eq_true, if_false]
  unfold evaluateOperands evaluateCandidates
  rw [if_neg hdd, hops, hmodes]
  simp only [List.isEmpty_nil, if_true]
  rw [GateAcc.rank_foldl (rank_evaluateOperand quietPolicy cwd unpinned)]
  exact Nat.max_eq_zero_iff.mpr ⟨rfl, Nat.le_zero.mp hspecial⟩

theorem quiet_peeledRank {cwd : Str} {inv : ShellInvocation} {unpinned : Bool}
    (h : Escapes inv unpinned) (recurse : Option (Str → Bool → Option GateDecision)) :
    quietPolicy.peeledRank cwd unpinned false recurse (unwrapInvocationChecked inv) = 0 := by
  obtain ⟨hflags, word, rest, hwords, hover, hoperands⟩ := h
  have hnotes : (noteFlags false (unwrapInvocationChecked inv) {}).rank = 0 := by
    unfold NormalizedCommandPeel.failsClosed at hflags
    simp only [Bool.or_eq_false_iff] at hflags
    obtain ⟨⟨⟨hexhausted, hambiguous⟩, huncertain⟩, hsplit⟩ := hflags
    unfold noteFlags unwrapInvocationChecked
    simp only [hexhausted, hambiguous, huncertain, hsplit, Bool.false_and]
    rfl
  have hshell : isSupportedShell word = false := by
    by_contra hshell
    have hmodelled := isModelled_of_isOverlooked hover
    simp only [Bool.not_eq_false, isSupportedShell, List.any_cons, List.any_nil, Bool.or_false,
      Bool.or_eq_true, beq_iff_eq] at hshell
    unfold programName at hmodelled
    rcases hshell with hname | hname | hname | hname | hname <;> rw [← hname] at hmodelled <;>
      cases hmodelled
  have hinline : (evaluateInline recurse unpinned (unwrapInvocationChecked inv).words {}).rank = 0 := by
    rw [hwords]
    unfold evaluateInline
    rw [shellDashCScript_of_not_shell hshell]
    cases recurse <;> rfl
  have hhead : (quietPolicy.evaluateHead cwd unpinned false (unwrapInvocationChecked inv).words
      {}).rank = 0 := by
    rw [hwords]
    exact quiet_programRank hover hoperands
  rw [peeledRank, hnotes, hinline, hhead]
  rfl

end CompiledPolicy

/-! ## Which items are always caught -/

/-- Whatever the rules, the links and the script around it, an item within the inline budget makes
the gate speak. -/
def AlwaysCaught (item : ShellItem) : Prop :=
  ∀ (env : PolicyEnv) (rules : List PermissionRule) (parse : Str → Option ParsedShell)
    (cmd cwd : Str), (CompiledPolicy.new env rules).hasFileRestrictions = true →
      (∃ n ≤ maxInlineShellDepth, ReachAt (IsShellItem parse) IsInlineItem (cmd, false) n item) →
        (CompiledPolicy.new env rules).evaluateShellFileAccessGate parse cmd cwd ≠ none

theorem alwaysCaught_of_itemWorth {item : ShellItem}
    (h : ∀ (env : PolicyEnv) (p : CompiledPolicy env) (cwd : Str), p.ItemWorth cwd 1 item) :
    AlwaysCaught item := by
  intro env rules parse cmd cwd hrestricted hreach
  obtain ⟨n, hn, hreach⟩ := hreach
  rw [CompiledPolicy.gate_ne_none_iff hrestricted]
  exact CompiledPolicy.le_inner_of_reachable (h env _ cwd) hn hreach false

/-- The shell around the invocation, behind a `cd` when the cwd is to be unpinned. -/
def aroundInvocation : ShellInvocation :=
  ⟨1, ⟨0, 0⟩, [.literal "sh".toList, .literal "-c".toList, .literal "inner".toList]⟩

/-- A script whose only inline script holds the invocation and nothing else. -/
def aroundParse (inv : ShellInvocation) (cwdUnpinned : Bool) (cmd : Str) : Option ParsedShell :=
  if cmd = "inner".toList then some ⟨false, [], [inv], []⟩
  else some ⟨false, [], [aroundInvocation], if cwdUnpinned then [⟨0, ⟨0, 0⟩⟩] else []⟩

theorem aroundInvocation_peel :
    unwrapInvocationChecked aroundInvocation =
      ⟨aroundInvocation.words, false, false, false, false, false⟩ := by
  decide

theorem aroundInvocation_unpinned (cwdUnpinned : Bool) :
    CompiledPolicy.invocationUnpinned false (if cwdUnpinned then [⟨0, ⟨0, 0⟩⟩] else [])
      aroundInvocation = cwdUnpinned := by
  cases cwdUnpinned <;> decide

theorem around_script :
    shellDashCScript (unwrapInvocationChecked aroundInvocation).words = .literal 2 ∧
      (unwrapInvocationChecked aroundInvocation).words[2]? = some (.literal "inner".toList) := by
  decide

theorem around_inline (cwdUnpinned : Bool) :
    IsInlineItem (.invocation aroundInvocation cwdUnpinned) ("inner".toList, cwdUnpinned) :=
  ⟨aroundInvocation, rfl, 2, around_script.1, around_script.2⟩

theorem around_reach (inv : ShellInvocation) (cwdUnpinned : Bool) :
    ReachAt (IsShellItem (aroundParse inv cwdUnpinned)) IsInlineItem ([], false) 1
      (.invocation inv (cwdUnpinned || (unwrapInvocationChecked inv).hasChdir)) := by
  refine .nest (t := ("inner".toList, cwdUnpinned))
    (.here ⟨_, rfl, .inr ⟨aroundInvocation, List.mem_cons_self, rfl⟩⟩) ?_
    ⟨⟨false, [], [inv], []⟩, rfl, .inr ⟨inv, List.mem_cons_self, ?_⟩⟩
  · rw [aroundInvocation_unpinned]
    exact around_inline cwdUnpinned
  · rw [CompiledPolicy.invocationUnpinned]
    simp [cwdUnpinnedBefore]

theorem supRank_singleton {α : Type*} (g : α → ℕ) (x : α) : supRank g [x] = g x := Nat.max_zero _

theorem around_quiet {inv : ShellInvocation} {cwdUnpinned : Bool}
    (h : Escapes inv (cwdUnpinned || (unwrapInvocationChecked inv).hasChdir)) (cwd : Str) :
    CompiledPolicy.quietPolicy.evaluateShellFileAccessGate (aroundParse inv cwdUnpinned) [] cwd =
      none := by
  let p := CompiledPolicy.quietPolicy
  let parse := aroundParse inv cwdUnpinned
  have hunpinned : CompiledPolicy.invocationUnpinned cwdUnpinned [] inv =
      (cwdUnpinned || (unwrapInvocationChecked inv).hasChdir) := by
    simp [CompiledPolicy.invocationUnpinned, cwdUnpinnedBefore]
  -- the inline script holds nothing but the invocation
  have hinner : gateRank (p.evaluateShellFileAccessInner parse cwd 7 "inner".toList cwdUnpinned
      true) = 0 := by
    rw [CompiledPolicy.evaluateShellFileAccessInner_eq,
      CompiledPolicy.gateRank_evaluateScript p (rfl : parse "inner".toList = some _)]
    rw [supRank_singleton, hunpinned, CompiledPolicy.quiet_peeledRank h]
    rfl
  have hpeeled : p.peeledRank cwd cwdUnpinned false (p.depthRecurse parse cwd 8)
      (unwrapInvocationChecked aroundInvocation) = 0 := by
    rw [CompiledPolicy.peeledRank,
      CompiledPolicy.rank_evaluateInline_literal _ _ around_script.1 around_script.2,
      CompiledPolicy.rank_evaluateHead_of_literal p cwd cwdUnpinned false around_script.1,
      aroundInvocation_peel]
    exact Nat.max_eq_zero_iff.mpr ⟨rfl, Nat.max_eq_zero_iff.mpr ⟨hinner, rfl⟩⟩
  by_contra hne
  have hpos : 1 ≤ gateRank (p.evaluateShellFileAccessInner parse cwd 8 [] false false) :=
    (CompiledPolicy.gate_ne_none_iff rfl).mp hne
  rw [CompiledPolicy.evaluateShellFileAccessInner_eq,
    CompiledPolicy.gateRank_evaluateScript p (rfl : parse [] = some _), supRank_singleton,
    aroundInvocation_unpinned] at hpos
  have hzero : max (askRank (false && false)) (max (supRank (p.redirectRank cwd false
      (if cwdUnpinned then [⟨0, ⟨0, 0⟩⟩] else [])) []) (p.peeledRank cwd cwdUnpinned false
        (p.depthRecurse parse cwd 8) (unwrapInvocationChecked aroundInvocation))) = 0 := by
    rw [hpeeled]
    rfl
  exact Nat.not_succ_le_zero 0 (hpos.trans (le_of_eq hzero))

/-- A script that was entered and cannot be gone through: it does not parse, or it is nested deeper
than the budget. -/
def UnreadableScript (parse : Str → Option ParsedShell) (cmd : Str) : Prop :=
  ∃ n inner, ScriptAt (IsShellItem parse) IsInlineItem (cmd, false) n inner ∧
    (maxInlineShellDepth < n ∨
      0 < n ∧ ∀ script, parse inner.1 = some script → script.parseFailed = true)

theorem gate_ne_none_of_unreadable {env : PolicyEnv} {p : CompiledPolicy env}
    {parse : Str → Option ParsedShell} {cmd cwd : Str} (hrestricted : p.hasFileRestrictions = true)
    (h : UnreadableScript parse cmd) : p.evaluateShellFileAccessGate parse cmd cwd ≠ none := by
  obtain ⟨n, inner, hscript, hbad⟩ := h
  rw [CompiledPolicy.gate_ne_none_iff hrestricted]
  by_cases hdeep : maxInlineShellDepth < n
  · exact p.one_le_of_deep cwd hdeep hscript false
  · obtain ⟨hpos, hparse⟩ := hbad.resolve_left hdeep
    obtain ⟨m, rfl⟩ : ∃ m, n = m + 1 := ⟨n - 1, by omega⟩
    have hle : gateRank (p.evaluateShellFileAccessInner parse cwd (maxInlineShellDepth - (m + 1))
        inner.1 inner.2 true) ≤ gateRank (p.evaluateShellFileAccessInner parse cwd
          (maxInlineShellDepth - (m + 1) + (m + 1)) cmd false false) :=
      p.inner_le_of_scriptAt cwd hscript false
    rw [Nat.sub_add_cancel (by omega), CompiledPolicy.evaluateShellFileAccessInner_eq p parse cwd
      (maxInlineShellDepth - (m + 1))] at hle
    exact (p.one_le_of_parse_failed cwd hparse _ _).trans hle

/-- An invocation that cannot be pinned is always caught exactly when it does not escape; redirects
to dynamic targets and unreadable scripts always are. -/
theorem shellFileAccessGate_failsClosed_iff (inv : ShellInvocation) (cwdUnpinned : Bool)
    (h : Unpinnable inv (cwdUnpinned || (unwrapInvocationChecked inv).hasChdir)) :
    (AlwaysCaught (.invocation inv (cwdUnpinned || (unwrapInvocationChecked inv).hasChdir)) ↔
        ¬ Escapes inv (cwdUnpinned || (unwrapInvocationChecked inv).hasChdir)) ∧
      (∀ target unpinned, UntrustedTarget target → AlwaysCaught (.redirect target unpinned)) ∧
      ∀ (env : PolicyEnv) (rules : List PermissionRule) (parse : Str → Option ParsedShell)
        (cmd cwd : Str), (CompiledPolicy.new env rules).hasFileRestrictions = true →
          UnreadableScript parse cmd →
            (CompiledPolicy.new env rules).evaluateShellFileAccessGate parse cmd cwd ≠ none := by
  refine ⟨⟨fun hcaught hescapes => ?_, fun hescapes => ?_⟩, fun target unpinned htarget => ?_,
    fun env rules parse cmd cwd => gate_ne_none_of_unreadable⟩
  · exact hcaught _ _ (aroundParse inv cwdUnpinned) [] [] rfl
      ⟨1, by decide, around_reach inv cwdUnpinned⟩ (around_quiet hescapes [])
  · exact alwaysCaught_of_itemWorth fun env p cwd => p.itemWorth_of_unpinnable cwd h hescapes
  · exact alwaysCaught_of_itemWorth fun env p cwd =>
      p.itemWorth_of_untrustedTarget cwd htarget unpinned

/-- `cat $FILE`. -/
theorem cat_dynamic_caught :
    AlwaysCaught (.invocation ⟨0, ⟨0, 0⟩, [.literal "cat".toList, .untrusted]⟩ false) := by
  have hwords : (unwrapInvocationChecked ⟨0, ⟨0, 0⟩, [.literal "cat".toList, .untrusted]⟩).words =
      [.literal "cat".toList, .untrusted] := by
    decide
  refine (shellFileAccessGate_failsClosed_iff ⟨0, ⟨0, 0⟩, [.literal "cat".toList, .untrusted]⟩
    false (.inr ⟨_, _, hwords, by decide, .inl (by decide)⟩)).1.mpr ?_
  rintro ⟨-, word, rest, heq, hover, -⟩
  rw [hwords, List.cons.injEq, ShellWord.literal.injEq] at heq
  obtain ⟨rfl, rfl⟩ := heq
  revert hover
  decide

/-- `go build -o $OUT` passes a gate whose rules match nothing else. -/
theorem go_output_escapes :
    ¬ ∀ inv unpinned, Unpinnable inv (unpinned || (unwrapInvocationChecked inv).hasChdir) →
      AlwaysCaught (.invocation inv (unpinned || (unwrapInvocationChecked inv).hasChdir)) := by
  intro h
  let inv : ShellInvocation := ⟨0, ⟨0, 0⟩, [.literal "go".toList, .literal "build".toList,
    .literal "-o".toList, .untrusted]⟩
  have hwords : (unwrapInvocationChecked inv).words = inv.words := by decide
  have hcaught := h inv false (.inr ⟨_, _, hwords, by decide, .inl (by decide)⟩)
  refine hcaught _ [probeRule] (aroundParse inv false) [] [] rfl ⟨1, by decide, around_reach inv false⟩
    (around_quiet ⟨by decide, _, _, hwords, by decide, by decide⟩ [])

end GrokBuild.Permission
