import Mathlib
import GrokBuild.Permission.PeelChain
import GrokBuild.Permission.ShellGate

/-!
# Nothing put around a file access weakens the shell file gate

`Surrounds` generates the scripts around a script: more redirects and invocations, one more
literal `-c` level, one more wrapper, and all of these inside an inline script.
-/

namespace GrokBuild.Permission
open Text NestedReach

section Surround

variable (parse : Str → Option ParsedShell)

/-- `inner` is the literal `-c` script of some invocation of `cmd`. -/
def InlineText (cmd inner : Str) : Prop :=
  ∃ script, parse cmd = some script ∧ ∃ inv ∈ script.invocations, HasInlineScript inv inner

/-- The inline scripts of `cmd` nest at most this deep. -/
def NestsWithin : ℕ → Str → Prop
  | 0, cmd => ∀ inner, ¬ InlineText parse cmd inner
  | depth + 1, cmd => ∀ inner, InlineText parse cmd inner → NestsWithin depth inner

/-- `inv'` is `inv` behind one peelable wrapper or prefix that does not change the cwd. -/
def Wrapped (inv inv' : ShellInvocation) : Prop :=
  (∃ front, inv' = { inv with words := front ++ inv.words }) ∧
    PeelsOnce inv'.wrapperWords inv.wrapperWords ∧ WithinPeelBudgets inv'.wrapperWords

/-- `inv'` is `inv` with its literal `-c` script replaced. -/
def Rescripted (inv inv' : ShellInvocation) (inner inner' : Str) : Prop :=
  inv'.startByte = inv.startByte ∧ inv'.scope = inv.scope ∧
    ∃ index, shellDashCScript (unwrapInvocationChecked inv).words = .literal index ∧
      (unwrapInvocationChecked inv).words[index]? = some (.literal inner) ∧
      shellDashCScript (unwrapInvocationChecked inv').words = .literal index ∧
      unwrapInvocationChecked inv' = { unwrapInvocationChecked inv with
        words := (unwrapInvocationChecked inv).words.set index (.literal inner') }

/-- `cmd'` is `cmd` with something put around or beside it. -/
inductive Surrounds : Str → Str → Prop
  | refl (cmd : Str) : Surrounds cmd cmd
  | trans {cmd cmd' cmd'' : Str} : Surrounds cmd cmd' → Surrounds cmd' cmd'' → Surrounds cmd cmd''
  | add {cmd cmd' : Str} {script script' : ParsedShell} :
      parse cmd = some script → parse cmd' = some script' →
      script'.parseFailed = script.parseFailed → script'.cwdChanges = script.cwdChanges →
      script.redirects ⊆ script'.redirects → script.invocations ⊆ script'.invocations →
      Surrounds cmd cmd'
  | dashC {cmd cmd' : Str} {script' : ParsedShell} {inv : ShellInvocation} :
      parse cmd' = some script' → inv ∈ script'.invocations → HasInlineScript inv cmd →
      CompiledPolicy.invocationUnpinned false script'.cwdChanges inv = false → Surrounds cmd cmd'
  | wrap {cmd cmd' : Str} {script : ParsedShell} {inv inv' : ShellInvocation}
      {pre post : List ShellInvocation} :
      parse cmd = some script → script.invocations = pre ++ inv :: post →
      parse cmd' = some { script with invocations := pre ++ inv' :: post } → Wrapped inv inv' →
      Surrounds cmd cmd'
  | inside {cmd cmd' inner inner' : Str} {script : ParsedShell} {inv inv' : ShellInvocation}
      {pre post : List ShellInvocation} :
      parse cmd = some script → script.invocations = pre ++ inv :: post →
      parse cmd' = some { script with invocations := pre ++ inv' :: post } →
      Rescripted inv inv' inner inner' → Surrounds inner inner' → Surrounds cmd cmd'

end Surround

variable {parse : Str → Option ParsedShell}

theorem unwrapInvocation_wrapperWords (inv : ShellInvocation) :
    (unwrapInvocationChecked inv).words.map ShellWord.wrapperWord =
      (normalizeCommandWords inv.wrapperWords).words := by
  have h := List.suffix_iff_eq_drop.mp (normalizeCommandWords_suffix inv.wrapperWords)
  rw [h]
  unfold unwrapInvocationChecked
  simp only [ShellInvocation.wrapperWords, List.map_drop]

theorem dashCScan_dynamic_ne_literal {sawC unrecognized : Bool} {i k : ℕ} {words : List ShellWord} :
    dashCScan true i sawC unrecognized words ≠ .literal k := by
  fun_induction dashCScan true i sawC unrecognized words <;>
    grind [finishLiteral, ambiguousOption_ne_literal, withoutScript_ne_literal]

theorem supportedShell_of_literal {words : List ShellWord} {index : ℕ}
    (h : shellDashCScript words = .literal index) :
    ∃ program rest, words = .literal program :: rest ∧ isSupportedShell program = true ∧
      0 < index := by
  cases words with
  | nil => cases h
  | cons word rest =>
    cases word with
    | untrusted => exact absurd h dashCScan_dynamic_ne_literal
    | literal program =>
      simp only [shellDashCScript] at h
      split_ifs at h with hshell
      obtain ⟨j, word, rfl, -⟩ := dashCScan_literal h
      exact ⟨program, rest, rfl, hshell, by omega⟩

/-- The heads that the peels and the inline scan stop at; the gate models none of them. -/
def isUnmodelledHead (program : Str) : Bool :=
  ["bash", "sh", "dash", "zsh", "ksh", "exec", "command", "builtin"].any
    (·.toList == baseName program)

namespace CompiledPolicy

variable {env : PolicyEnv}

theorem unmodelled_operands {name : Str}
    (h : ["bash", "sh", "dash", "zsh", "ksh", "exec", "command", "builtin"].any (·.toList == name) =
      true) (literals : List Str) :
    specialFileOperands (toAsciiLowercase name) literals = [] ∧
      shellPathCommandOperands (toAsciiLowercase name) literals = none ∧
      shellFileMode (toAsciiLowercase name) = none ∧
      (toAsciiLowercase name == "dd".toList) = false := by
  simp only [List.any_cons, List.any_nil, Bool.or_false, Bool.or_eq_true, beq_iff_eq] at h
  rcases h with rfl | rfl | rfl | rfl | rfl | rfl | rfl | rfl <;> exact ⟨rfl, rfl, rfl, rfl⟩

theorem programRank_unmodelled (p : CompiledPolicy env) (cwd : Str) (unpinned parseFailed : Bool)
    {program : Str} (h : isUnmodelledHead program = true) (words : List ShellWord) :
    p.programRank cwd unpinned parseFailed program words = 0 := by
  obtain ⟨hspecial, hpath, hmode, hdd⟩ := unmodelled_operands h (literalWords words)
  have hmodes : candidateModes (toAsciiLowercase (baseName program)) (literalWords words) = [] := by
    rw [candidateModes, hmode]
  unfold programRank evaluateProgram
  dsimp only
  split_ifs
  · rfl
  · unfold evaluateOperands evaluateCandidates
    rw [hspecial, hpath, hmode, hdd, if_neg (by simpa using hdd), hmodes]
    rfl

theorem rank_evaluateHead_of_literal (p : CompiledPolicy env) (cwd : Str)
    (unpinned parseFailed : Bool) {words : List ShellWord} {index : ℕ}
    (h : shellDashCScript words = .literal index) :
    (p.evaluateHead cwd unpinned parseFailed words {}).rank = 0 := by
  obtain ⟨program, rest, rfl, hshell, -⟩ := supportedShell_of_literal h
  refine p.programRank_unmodelled cwd unpinned parseFailed ?_ _
  unfold isSupportedShell at hshell
  unfold isUnmodelledHead
  simp only [List.any_cons, List.any_nil, Bool.or_false, Bool.or_eq_true] at hshell ⊢
  tauto

/-- The evaluator that the inline scripts of a script see at this remaining budget. -/
def depthRecurse (p : CompiledPolicy env) (parse : Str → Option ParsedShell) (cwd : Str) :
    ℕ → Option (Str → Bool → Option GateDecision)
  | 0 => none
  | depth + 1 =>
    some fun inner unpinned => p.evaluateShellFileAccessInner parse cwd depth inner unpinned true

theorem evaluateShellFileAccessInner_eq (p : CompiledPolicy env) (parse : Str → Option ParsedShell)
    (cwd : Str) (depth : ℕ) :
    p.evaluateShellFileAccessInner parse cwd depth =
      p.evaluateScript parse cwd (p.depthRecurse parse cwd depth) := by
  cases depth <;> rfl

def recurseRank (recurse : Option (Str → Bool → Option GateDecision)) (inner : Str)
    (unpinned : Bool) : ℕ :=
  match recurse with
  | none => 1
  | some recurse => gateRank (recurse inner unpinned)

theorem rank_evaluateInline_literal (recurse : Option (Str → Bool → Option GateDecision))
    (unpinned : Bool) {words : List ShellWord} {index : ℕ} {inner : Str}
    (hshape : shellDashCScript words = .literal index)
    (hword : words[index]? = some (.literal inner)) :
    (evaluateInline recurse unpinned words {}).rank = recurseRank recurse inner unpinned := by
  unfold evaluateInline recurseRank
  cases recurse with
  | none => simp [hshape, GateAcc.rank_force, askRank, failClosedIf]
  | some recurse => simp [hshape, hword, GateAcc.rank_combine]

theorem rank_evaluateInline_le {f g : Option (Str → Bool → Option GateDecision)} {unpinned : Bool}
    {inv : ShellInvocation}
    (h : ∀ inner, HasInlineScript inv inner →
      recurseRank f inner unpinned ≤ recurseRank g inner unpinned) :
    (evaluateInline f unpinned (unwrapInvocationChecked inv).words {}).rank ≤
      (evaluateInline g unpinned (unwrapInvocationChecked inv).words {}).rank := by
  cases hshape : shellDashCScript (unwrapInvocationChecked inv).words with
  | literal index =>
    obtain ⟨inner, hword⟩ := shellDashCScript_literal hshape
    rw [rank_evaluateInline_literal f unpinned hshape hword,
      rank_evaluateInline_literal g unpinned hshape hword]
    exact h inner ⟨index, hshape, hword⟩
  | notInline => simp [evaluateInline, hshape]
  | untrusted => simp [evaluateInline, hshape]
  | unrecognized => simp [evaluateInline, hshape]

/-- A script whose findings are all dominated by another's is judged no harder. -/
theorem evaluateScript_le (p : CompiledPolicy env) {cwd cmd cmd' : Str}
    {script script' : ParsedShell} (h : parse cmd = some script) (h' : parse cmd' = some script')
    (hfailed : script'.parseFailed = script.parseFailed)
    (hcwd : script'.cwdChanges = script.cwdChanges)
    (hredirects : script.redirects ⊆ script'.redirects)
    {f g : Option (Str → Bool → Option GateDecision)} {u e e' : Bool} (he : e = true → e' = true)
    (hinv : ∀ inv ∈ script.invocations, ∃ inv' ∈ script'.invocations,
      p.peeledRank cwd (invocationUnpinned u script.cwdChanges inv) script.parseFailed f
          (unwrapInvocationChecked inv) ≤
        p.peeledRank cwd (invocationUnpinned u script.cwdChanges inv') script.parseFailed g
          (unwrapInvocationChecked inv')) :
    gateRank (p.evaluateScript parse cwd f cmd u e) ≤
      gateRank (p.evaluateScript parse cwd g cmd' u e') := by
  rw [gateRank_evaluateScript p h, gateRank_evaluateScript p h', hfailed, hcwd]
  refine max_le_max ?_ (max_le_max ?_ ?_)
  · cases e with
    | false => exact Nat.zero_le _
    | true => rw [he rfl]
  · exact supRank_le _ fun target ht => le_supRank _ (hredirects ht)
  · refine supRank_le _ fun inv hmem => ?_
    obtain ⟨inv', hmem', hle⟩ := hinv inv hmem
    exact hle.trans (le_supRank (fun inv' => p.peeledRank cwd
      (invocationUnpinned u script.cwdChanges inv') script.parseFailed g
      (unwrapInvocationChecked inv')) hmem')

theorem evaluateScript_none {cwd cmd : Str} (h : parse cmd = none) (p : CompiledPolicy env)
    (recurse : Option (Str → Bool → Option GateDecision)) (u e : Bool) :
    p.evaluateScript parse cwd recurse cmd u e = failClosedIf e := by
  rw [evaluateScript, h]

/-- A larger inline budget finds nothing more in a script that nests within the smaller one, and
an entered script is judged no less. -/
theorem gateRank_inner_stable (p : CompiledPolicy env) (cwd : Str) {depth : ℕ} {cmd : Str}
    (h : NestsWithin parse depth cmd) (u : Bool) {e e' : Bool} (he : e = true → e' = true) :
    gateRank (p.evaluateShellFileAccessInner parse cwd (depth + 1) cmd u e) ≤
      gateRank (p.evaluateShellFileAccessInner parse cwd depth cmd u e') := by
  induction depth generalizing cmd u e e' with
  | zero =>
    rw [evaluateShellFileAccessInner_eq, evaluateShellFileAccessInner_eq]
    cases hparse : parse cmd with
    | none =>
      rw [evaluateScript_none hparse, evaluateScript_none hparse]
      cases e <;> cases e' <;> simp_all [failClosedIf]
    | some script =>
      refine evaluateScript_le p hparse hparse rfl rfl (List.Subset.refl _) he fun inv hinv =>
        ⟨inv, hinv, max_le_max_left _ (max_le_max_right _ (rank_evaluateInline_le ?_))⟩
      intro inner hinner
      exact absurd ⟨script, hparse, inv, hinv, hinner⟩ (h inner)
  | succ depth ih =>
    rw [evaluateShellFileAccessInner_eq, evaluateShellFileAccessInner_eq]
    cases hparse : parse cmd with
    | none =>
      rw [evaluateScript_none hparse, evaluateScript_none hparse]
      cases e <;> cases e' <;> simp_all [failClosedIf]
    | some script =>
      refine evaluateScript_le p hparse hparse rfl rfl (List.Subset.refl _) he fun inv hinv =>
        ⟨inv, hinv, max_le_max_left _ (max_le_max_right _ (rank_evaluateInline_le ?_))⟩
      intro inner hinner
      exact ih (h inner ⟨script, hparse, inv, hinv, hinner⟩) _ fun _ => rfl

end CompiledPolicy

theorem nestsWithin_succ {depth : ℕ} {cmd : Str} (h : NestsWithin parse depth cmd) :
    NestsWithin parse (depth + 1) cmd := by
  induction depth generalizing cmd with
  | zero => exact fun inner hinner => absurd hinner (h inner)
  | succ depth ih => exact fun inner hinner => ih (h inner hinner)

theorem NestsWithin.mono {depth depth' : ℕ} {cmd : Str} (h : NestsWithin parse depth cmd)
    (hle : depth ≤ depth') : NestsWithin parse depth' cmd := by
  induction hle with
  | refl => exact h
  | step _ ih => exact nestsWithin_succ ih

/-- Every inline script of `cmd` nests no deeper than some inline script of `cmd'`. -/
theorem nestsWithin_of_inline {cmd cmd' : Str} {depth : ℕ}
    (h : ∀ inner, InlineText parse cmd inner → ∃ inner', InlineText parse cmd' inner' ∧
      ∀ d, NestsWithin parse d inner' → NestsWithin parse d inner)
    (hnest : NestsWithin parse depth cmd') : NestsWithin parse depth cmd := by
  cases depth with
  | zero =>
    intro inner hinner
    obtain ⟨inner', hinner', -⟩ := h inner hinner
    exact hnest inner' hinner'
  | succ depth =>
    intro inner hinner
    obtain ⟨inner', hinner', hd⟩ := h inner hinner
    exact hd depth (hnest inner' hinner')

/-- The peeled words stand at an `exec`, `command` or `builtin` that cannot be peeled. -/
theorem unwrap_ambiguous {inv : ShellInvocation}
    (h : stripTransparentPrefix (normalizeCommandWords inv.wrapperWords).words ≠ .notPrefix) :
    ∃ program rest, (unwrapInvocationChecked inv).words = .literal program :: rest ∧
      isUnmodelledHead program = true ∧ isSupportedShell program = false := by
  rw [← unwrapInvocation_wrapperWords] at h
  cases hwords : (unwrapInvocationChecked inv).words with
  | nil => simp [hwords, stripTransparentPrefix] at h
  | cons word rest =>
    rw [hwords] at h
    cases word with
    | untrusted => simp [stripTransparentPrefix, ShellWord.wrapperWord] at h
    | literal program =>
      refine ⟨program, rest, rfl, ?_⟩
      simp only [List.map_cons, ShellWord.wrapperWord, stripTransparentPrefix] at h
      split_ifs at h with h1 h2 h3 h4
      · simp at h
      · simp [isUnmodelledHead, isSupportedShell, h2]
      · simp [isUnmodelledHead, isSupportedShell, h3]
      · simp [isUnmodelledHead, isSupportedShell, h4]
      · simp at h

theorem shellDashCScript_of_not_shell {program : Str} {rest : List ShellWord}
    (h : isSupportedShell program = false) :
    shellDashCScript (.literal program :: rest) = .notInline := by
  simp [shellDashCScript, h]

/-- A wrapper within the budgets leaves the peeled invocation as it was, or both sides are
ambiguous. -/
theorem Wrapped.unwrap_eq {inv inv' : ShellInvocation} (h : Wrapped inv inv') :
    (unwrapInvocationChecked inv' = unwrapInvocationChecked inv ∧
      inv'.startByte = inv.startByte ∧ inv'.scope = inv.scope) ∨
    ((unwrapInvocationChecked inv').transparentAmbiguous = true ∧
      ∃ program rest, (unwrapInvocationChecked inv).words = .literal program :: rest ∧
        isUnmodelledHead program = true ∧ isSupportedShell program = false) := by
  obtain ⟨⟨front, rfl⟩, hpeels, hbudget⟩ := h
  rcases normalizeCommandWords_peelsOnce hpeels hbudget with heq | ⟨hamb, -, hstop⟩
  · refine .inl ⟨?_, rfl, rfl⟩
    have hle := (normalizeCommandWords_suffix inv.wrapperWords).length_le
    unfold unwrapInvocationChecked
    dsimp only
    rw [heq]
    have hcount : (ShellInvocation.wrapperWords { inv with words := front ++ inv.words }).length -
        (normalizeCommandWords inv.wrapperWords).words.length =
        front.length + (inv.wrapperWords.length -
          (normalizeCommandWords inv.wrapperWords).words.length) := by
      simp only [ShellInvocation.wrapperWords, List.length_map, List.length_append] at hle ⊢
      omega
    rw [hcount, List.drop_append, List.drop_eq_nil_of_le (by omega), Nat.add_sub_cancel_left,
      List.nil_append]
  · exact .inr ⟨hamb, unwrap_ambiguous hstop⟩

theorem HasInlineScript.wrapped {inv inv' : ShellInvocation} {inner : Str}
    (h : HasInlineScript inv inner) (hw : Wrapped inv inv') : HasInlineScript inv' inner := by
  obtain ⟨index, hshape, hword⟩ := h
  rcases hw.unwrap_eq with ⟨heq, -⟩ | ⟨-, program, rest, hwords, -, hshell⟩
  · exact ⟨index, by rwa [heq], by rwa [heq]⟩
  · rw [hwords, shellDashCScript_of_not_shell hshell] at hshape
    cases hshape

theorem Rescripted.inline {inv inv' : ShellInvocation} {inner inner' : Str}
    (h : Rescripted inv inv' inner inner') :
    HasInlineScript inv' inner' ∧ ∀ other, HasInlineScript inv other → other = inner := by
  obtain ⟨-, -, index, hshape, hword, hshape', hpeel⟩ := h
  have hlt : index < (unwrapInvocationChecked inv).words.length := by
    by_contra hge
    simp [List.getElem?_eq_none (Nat.not_lt.mp hge)] at hword
  refine ⟨⟨index, hshape', ?_⟩, ?_⟩
  · rw [hpeel]
    simp [hlt]
  · rintro other ⟨index', hi, hw⟩
    obtain rfl : index = index' := InlineShellScript.literal.inj (hshape.symm.trans hi)
    exact (ShellWord.literal.inj (Option.some.inj (hword.symm.trans hw))).symm

/-- What surrounds a script nests at least as deep. -/
theorem Surrounds.nestsWithin {cmd cmd' : Str} (h : Surrounds parse cmd cmd') :
    ∀ depth, NestsWithin parse depth cmd' → NestsWithin parse depth cmd := by
  induction h with
  | refl cmd => exact fun _ hd => hd
  | trans _ _ ih ih' => exact fun depth hd => ih depth (ih' depth hd)
  | add h h' _ _ _ hinv =>
    refine fun depth => nestsWithin_of_inline fun inner hinner => ⟨inner, ?_, fun _ hd => hd⟩
    obtain ⟨script, hparse, inv, hmem, hscript⟩ := hinner
    obtain rfl := Option.some.inj (hparse.symm.trans h)
    exact ⟨_, h', inv, hinv hmem, hscript⟩
  | @dashC cmd cmd' script' inv h' hmem hscript _ =>
    intro depth hd
    have hinner : InlineText parse cmd' cmd := ⟨script', h', inv, hmem, hscript⟩
    cases depth with
    | zero => exact absurd hinner (hd cmd)
    | succ depth => exact nestsWithin_succ (hd cmd hinner)
  | @wrap cmd cmd' script inv inv' pre post h hsplit h' hw =>
    refine fun depth => nestsWithin_of_inline fun inner hinner => ⟨inner, ?_, fun _ hd => hd⟩
    obtain ⟨script, hparse, inv₀, hmem, hscript⟩ := hinner
    obtain rfl := Option.some.inj (hparse.symm.trans h)
    rw [hsplit, List.mem_append, List.mem_cons] at hmem
    rcases hmem with hmem | rfl | hmem
    · exact ⟨_, h', inv₀, by simp [hmem], hscript⟩
    · exact ⟨_, h', inv', by simp, hscript.wrapped hw⟩
    · exact ⟨_, h', inv₀, by simp [hmem], hscript⟩
  | @inside cmd cmd' u u' script inv inv' pre post h hsplit h' hre _ ih =>
    refine fun depth => nestsWithin_of_inline fun inner hinner => ?_
    obtain ⟨script, hparse, inv₀, hmem, hscript⟩ := hinner
    obtain rfl := Option.some.inj (hparse.symm.trans h)
    rw [hsplit, List.mem_append, List.mem_cons] at hmem
    rcases hmem with hmem | rfl | hmem
    · exact ⟨inner, ⟨_, h', inv₀, by simp [hmem], hscript⟩, fun _ hd => hd⟩
    · obtain rfl := hre.inline.2 inner hscript
      exact ⟨u', ⟨_, h', inv', by simp, hre.inline.1⟩, ih⟩
    · exact ⟨inner, ⟨_, h', inv₀, by simp [hmem], hscript⟩, fun _ hd => hd⟩

namespace CompiledPolicy

variable {env : PolicyEnv}

/-- The wrapped invocation is judged no less than the plain one. -/
theorem peeledRank_wrapped (p : CompiledPolicy env) (cwd : Str) {inv inv' : ShellInvocation}
    (hw : Wrapped inv inv') (u parseFailed : Bool) (cwdChanges : List CwdPoison)
    (recurse : Option (Str → Bool → Option GateDecision)) :
    p.peeledRank cwd (invocationUnpinned u cwdChanges inv) parseFailed recurse
        (unwrapInvocationChecked inv) ≤
      p.peeledRank cwd (invocationUnpinned u cwdChanges inv') parseFailed recurse
        (unwrapInvocationChecked inv') := by
  rcases hw.unwrap_eq with ⟨heq, hstart, hscope⟩ | ⟨hamb, program, rest, hwords, hhead, hshell⟩
  · unfold invocationUnpinned
    rw [heq, hstart, hscope]
  · have hone : 1 ≤ p.peeledRank cwd (invocationUnpinned u cwdChanges inv') parseFailed recurse
        (unwrapInvocationChecked inv') := by
      refine le_max_of_le_left ?_
      simp only [noteFlags, GateAcc.rank_force, hamb]
      exact le_max_of_le_left (le_max_right _ _)
    refine le_trans (max_le ?_ (max_le ?_ ?_)) hone
    · simp only [noteFlags, GateAcc.rank_force, rank_empty, Nat.zero_max]
      have hask (b : Bool) : askRank b ≤ 1 := by cases b <;> decide
      exact max_le (max_le (max_le (max_le (hask _) (hask _)) (hask _)) (hask _)) (hask _)
    · unfold evaluateInline
      rw [hwords, shellDashCScript_of_not_shell hshell]
      exact Nat.zero_le 1
    · rw [hwords]
      exact (p.programRank_unmodelled cwd _ _ hhead _).trans_le (Nat.zero_le 1)

/-- A harder inline script makes the invocation that carries it harder. -/
theorem peeledRank_rescripted (p : CompiledPolicy env) (cwd : Str) {inv inv' : ShellInvocation}
    {inner inner' : Str} (hre : Rescripted inv inv' inner inner') (u parseFailed : Bool)
    (cwdChanges : List CwdPoison) {recurse : Option (Str → Bool → Option GateDecision)}
    (h : ∀ unpinned, recurseRank recurse inner unpinned ≤ recurseRank recurse inner' unpinned) :
    p.peeledRank cwd (invocationUnpinned u cwdChanges inv) parseFailed recurse
        (unwrapInvocationChecked inv) ≤
      p.peeledRank cwd (invocationUnpinned u cwdChanges inv') parseFailed recurse
        (unwrapInvocationChecked inv') := by
  obtain ⟨index', hshape'', hword'⟩ := hre.inline.1
  obtain ⟨hstart, hscope, index, hshape, hword, hshape', hpeel⟩ := hre
  have hunpinned : invocationUnpinned u cwdChanges inv' = invocationUnpinned u cwdChanges inv := by
    unfold invocationUnpinned
    rw [hstart, hscope, hpeel]
  rw [hunpinned]
  refine max_le_max ?_ (max_le_max ?_ ?_)
  · unfold noteFlags
    rw [hshape, hshape', hpeel]
  · rw [rank_evaluateInline_literal _ _ hshape hword, rank_evaluateInline_literal _ _ hshape'' hword']
    exact h _
  · rw [rank_evaluateHead_of_literal p cwd _ _ hshape]
    exact Nat.zero_le _

/-- Nothing that surrounds a script lowers its verdict, within the inline budget. -/
theorem gateRank_surrounds (p : CompiledPolicy env) (cwd : Str) {cmd cmd' : Str}
    (h : Surrounds parse cmd cmd') :
    ∀ {depth : ℕ} (u e : Bool), NestsWithin parse depth cmd' →
      gateRank (p.evaluateShellFileAccessInner parse cwd depth cmd u e) ≤
        gateRank (p.evaluateShellFileAccessInner parse cwd depth cmd' u e) := by
  induction h with
  | refl cmd => exact fun _ _ _ => le_rfl
  | trans _ h' ih ih' =>
    intro depth u e hd
    exact (ih u e (h'.nestsWithin depth hd)).trans (ih' u e hd)
  | add h h' hfailed hcwd hred hinv =>
    intro depth u e _
    rw [evaluateShellFileAccessInner_eq]
    exact evaluateScript_le p h h' hfailed hcwd hred id fun inv hmem => ⟨inv, hinv hmem, le_rfl⟩
  | @dashC cmd cmd' script' inv h' hmem hscript hpinned =>
    intro depth u e hd
    have hinner : InlineText parse cmd' cmd := ⟨script', h', inv, hmem, hscript⟩
    have hsame : invocationUnpinned u script'.cwdChanges inv = u := by
      unfold invocationUnpinned at hpinned ⊢
      rw [Bool.or_assoc, Bool.false_or] at hpinned
      rw [Bool.or_assoc, hpinned, Bool.or_false]
    cases depth with
    | zero => exact absurd hinner (hd cmd)
    | succ depth =>
      have hentered : e = true → true = true := fun _ => rfl
      have hitem : IsShellItem parse (cmd', u) (.invocation inv u) :=
        ⟨script', h', .inr ⟨inv, hmem, by rw [hsame]⟩⟩
      have hinline : IsInlineItem (.invocation inv u) (cmd, u) := ⟨inv, rfl, hscript⟩
      refine (gateRank_inner_stable p cwd (hd cmd hinner) u hentered).trans ?_
      rw [evaluateShellFileAccessInner_eq p parse cwd (depth + 1)]
      exact inline_le_evaluateScript p hitem hinline
        (fun inner unpinned => p.evaluateShellFileAccessInner parse cwd depth inner unpinned true) e
  | @wrap cmd cmd' script inv inv' pre post h hsplit h' hw =>
    intro depth u e _
    rw [evaluateShellFileAccessInner_eq]
    refine evaluateScript_le p h h' rfl rfl (List.Subset.refl _) id fun inv₀ hmem => ?_
    rw [hsplit, List.mem_append, List.mem_cons] at hmem
    rcases hmem with hmem | rfl | hmem
    · exact ⟨inv₀, by simp [hmem], le_rfl⟩
    · exact ⟨inv', by simp, peeledRank_wrapped p cwd hw u _ _ _⟩
    · exact ⟨inv₀, by simp [hmem], le_rfl⟩
  | @inside cmd cmd' inner inner' script inv inv' pre post h hsplit h' hre _ ih =>
    intro depth u e hd
    have hinner : InlineText parse cmd' inner' := ⟨_, h', inv', by simp, hre.inline.1⟩
    have hrecurse (unpinned : Bool) : recurseRank (p.depthRecurse parse cwd depth) inner unpinned ≤
        recurseRank (p.depthRecurse parse cwd depth) inner' unpinned := by
      cases depth with
      | zero => exact le_rfl
      | succ depth => exact ih unpinned true (hd inner' hinner)
    rw [evaluateShellFileAccessInner_eq]
    refine evaluateScript_le p h h' rfl rfl (List.Subset.refl _) id fun inv₀ hmem => ?_
    rw [hsplit, List.mem_append, List.mem_cons] at hmem
    rcases hmem with hmem | rfl | hmem
    · exact ⟨inv₀, by simp [hmem], le_rfl⟩
    · exact ⟨inv', by simp, peeledRank_rescripted p cwd hre u _ _ hrecurse⟩
    · exact ⟨inv₀, by simp [hmem], le_rfl⟩

theorem hasFileRestrictions_of_denied {rules : List PermissionRule} {cwd : Str} {item : ShellItem}
    (h : DeniedItem env rules cwd item) : (new env rules).hasFileRestrictions = true := by
  have hrule {ruleCwd : Option Str} {mode : ShellFileMode} {text : Str}
      (h : DeniesFile env rules ruleCwd mode text) : (new env rules).hasFileRestrictions = true := by
    obtain ⟨rule, hmem, haction, happlies⟩ := h
    refine List.any_eq_true.mpr ⟨rule, hmem, ?_⟩
    have htool := (Bool.and_eq_true_iff.mp happlies).1
    cases mode <;> cases ht : rule.tool <;>
      simp_all [shellAccess, toolFilterMatches, RuleAction.restricts]
  have hoperand {unpinned : Bool} {operand : FileOperand}
      (h : DeniedOperand env rules cwd unpinned operand) :
      (new env rules).hasFileRestrictions = true := by
    rcases h with h | ⟨-, h⟩
    · exact hrule h
    · exact hrule h
  cases item with
  | redirect target unpinned =>
    obtain ⟨path, -, h⟩ := h
    exact hoperand h
  | invocation inv unpinned =>
    obtain ⟨program, rest, -, operand, -, h⟩ := h
    exact hoperand h

/-- A denied file within the inline budget is rejected, wherever it stands, and nothing put
around a script lowers its verdict. -/
theorem evaluateShellFileAccessGate_loses_nothing (env : PolicyEnv) (rules : List PermissionRule)
    (parse : Str → Option ParsedShell) (cwd cmd : Str) :
    (∀ n item, n ≤ maxInlineShellDepth →
      ReachAt (IsShellItem parse) IsInlineItem (cmd, false) n item →
      DeniedItem env rules cwd item →
      ∃ reason, (new env rules).evaluateShellFileAccessGate parse cmd cwd =
        some (.reject reason)) ∧
    (∀ cmd', Surrounds parse cmd cmd' → NestsWithin parse maxInlineShellDepth cmd' →
      gateRank ((new env rules).evaluateShellFileAccessGate parse cmd cwd) ≤
        gateRank ((new env rules).evaluateShellFileAccessGate parse cmd' cwd)) := by
  constructor
  · intro n item hn hreach hdenied
    have hle := reject_of_reachable hdenied hn hreach false
    have hthree := gateRank_le_three
      ((new env rules).evaluateShellFileAccessInner parse cwd maxInlineShellDepth cmd false false)
    rw [evaluateShellFileAccessGate, hasFileRestrictions_of_denied hdenied]
    exact gateRank_eq_three_iff.mp (le_antisymm hthree hle)
  · intro cmd' hsurrounds hnest
    unfold evaluateShellFileAccessGate
    cases (new env rules).hasFileRestrictions with
    | false => exact le_rfl
    | true => exact gateRank_surrounds (new env rules) cwd hsurrounds false false hnest

end CompiledPolicy

/-- An invocation of plain words, at the start of the script. -/
def plainInvocation (words : List String) : ShellInvocation :=
  ⟨0, ⟨0, 2 ^ 64 - 1⟩, words.map fun w => .literal w.toList⟩

def plainScript (words : List String) : ParsedShell := ⟨false, [], [plainInvocation words], []⟩

/-- `cat secret`, plain, inside a shell, and behind `env -C`. -/
def catParse (cmd : Str) : Option ParsedShell :=
  [("cat secret".toList, plainScript ["cat", "secret"]),
    ("sh -c 'cat secret'".toList, plainScript ["sh", "-c", "cat secret"]),
    ("env -C /tmp cat secret".toList, plainScript ["env", "-C", "/tmp", "cat", "secret"])].lookup cmd

def denySecret : PermissionRule := ⟨.deny, .read, some "/work/secret".toList, .glob⟩

theorem cat_not_inline (inner : Str) : ¬ InlineText catParse "cat secret".toList inner := by
  rintro ⟨script, hparse, inv, hmem, index, hshape, -⟩
  obtain rfl := Option.some.inj hparse
  obtain rfl := List.mem_singleton.mp hmem
  have hplain : shellDashCScript (unwrapInvocationChecked (plainInvocation ["cat", "secret"])).words =
      .notInline := by decide
  rw [hplain] at hshape
  cases hshape

theorem sh_inline :
    HasInlineScript (plainInvocation ["sh", "-c", "cat secret"]) "cat secret".toList :=
  ⟨2, by decide, by decide⟩

theorem sh_nestsWithin_one : NestsWithin catParse 1 "sh -c 'cat secret'".toList := by
  rintro inner ⟨script, hparse, inv, hmem, index, hshape, hword⟩
  obtain rfl := Option.some.inj hparse
  obtain rfl := List.mem_singleton.mp hmem
  obtain ⟨index', hshape', hword'⟩ := sh_inline
  obtain rfl : index = index' := InlineShellScript.literal.inj (hshape.symm.trans hshape')
  obtain rfl := ShellWord.literal.inj (Option.some.inj (hword.symm.trans hword'))
  exact cat_not_inline

theorem cat_denied :
    DeniedItem (tableEnv []) [denySecret] "/work".toList
      (.invocation (plainInvocation ["cat", "secret"]) false) := by
  refine ⟨"cat".toList, [.literal "secret".toList], by decide, ("secret".toList, .read), by decide,
    .inl ⟨denySecret, by simp, rfl, by decide⟩⟩

/-- A shell around `cat secret` is rejected, and judged no less than `cat secret` itself. -/
theorem nested_cat_rejected :
    (∃ reason, (CompiledPolicy.new (tableEnv []) [denySecret]).evaluateShellFileAccessGate catParse
      "sh -c 'cat secret'".toList "/work".toList = some (.reject reason)) ∧
    gateRank ((CompiledPolicy.new (tableEnv []) [denySecret]).evaluateShellFileAccessGate catParse
        "cat secret".toList "/work".toList) ≤
      gateRank ((CompiledPolicy.new (tableEnv []) [denySecret]).evaluateShellFileAccessGate catParse
        "sh -c 'cat secret'".toList "/work".toList) := by
  have hsh : IsShellItem catParse ("sh -c 'cat secret'".toList, false)
      (.invocation (plainInvocation ["sh", "-c", "cat secret"]) false) :=
    ⟨_, rfl, .inr ⟨_, List.mem_singleton.mpr rfl, by decide⟩⟩
  have hcat : IsShellItem catParse ("cat secret".toList, false)
      (.invocation (plainInvocation ["cat", "secret"]) false) :=
    ⟨_, rfl, .inr ⟨_, List.mem_singleton.mpr rfl, by decide⟩⟩
  have hnest : NestsWithin catParse maxInlineShellDepth "sh -c 'cat secret'".toList :=
    (sh_nestsWithin_one).mono (by decide)
  constructor
  · exact (CompiledPolicy.evaluateShellFileAccessGate_loses_nothing (tableEnv []) [denySecret]
      catParse "/work".toList _).1 1 _ (by decide) (.nest (.here hsh) ⟨_, rfl, sh_inline⟩ hcat)
      cat_denied
  · exact (CompiledPolicy.evaluateShellFileAccessGate_loses_nothing (tableEnv []) [denySecret]
      catParse "/work".toList _).2 _
      (.dashC rfl (List.mem_singleton.mpr rfl) sh_inline (by decide)) hnest

/-- `env -C` is a peelable wrapper within the budgets, and lowers the verdict: behind it the cwd
is no longer known. -/
theorem env_chdir_lowers :
    stripWrapperCommand (["env", "-C", "/tmp", "cat", "secret"].map String.toList) =
      some (["cat", "secret"].map String.toList) ∧
    WithinPeelBudgets (["env", "-C", "/tmp", "cat", "secret"].map String.toList) ∧
    ¬ gateRank ((CompiledPolicy.new (tableEnv []) [denySecret]).evaluateShellFileAccessGate catParse
        "cat secret".toList "/work".toList) ≤
      gateRank ((CompiledPolicy.new (tableEnv []) [denySecret]).evaluateShellFileAccessGate catParse
        "env -C /tmp cat secret".toList "/work".toList) := by
  have hstrip : stripWrapperCommand (["env", "-C", "/tmp", "cat", "secret"].map String.toList) =
      some (["cat", "secret"].map String.toList) := by decide
  have hstop : stripTransparentPrefix (["cat", "secret"].map String.toList) = .notPrefix := by
    decide
  refine ⟨hstrip, ⟨1, 0, _, _, by decide, by decide, .wrapper hstrip (.refl _), by decide, ?_⟩, ?_⟩
  · intro x hx
    rw [hstop] at hx
    cases hx
  · decide

end GrokBuild.Permission
