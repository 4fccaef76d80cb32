import Mathlib
import GrokBuild.Permission.PathForms
import GrokBuild.Text.Slices

/-!
# Where git's subcommand stands

`permission/exec_risk.rs` walks the options in front of the subcommand three times: for options that
run programs or choose another configuration, for the verb of a query, and for the directory that
`-C` leaves git in. The words behind `git` are walked here; a loop over an index is one over the
words that are left.
-/

namespace GrokBuild.Permission.ExecRisk

open Text

/-! ## Options -/

/-- What stands before the first `=`. -/
def flagOf (tok : Str) : Str := tok.takeWhile (· ≠ '=')

def isAcceptedLongOptionPrefix (flag full : Str) (minLen : ℕ) : Bool :=
  startsWith flag "--".toList && minLen ≤ utf8Len flag && startsWith full flag &&
    flag.all fun c => c.isAlphanum || c == '-'

def isGitConfigEnvFlag (tok : Str) : Bool :=
  tok == "--config-env".toList || startsWith tok "--config-env=".toList ||
    isAcceptedLongOptionPrefix (flagOf tok) "--config-env".toList 4

def isGitRepoRetargetFlag (tok : Str) : Bool :=
  (tok == "--git-dir".toList || startsWith tok "--git-dir=".toList ||
    tok == "--work-tree".toList || startsWith tok "--work-tree=".toList) ||
      (isAcceptedLongOptionPrefix (flagOf tok) "--git-dir".toList 4 ||
        isAcceptedLongOptionPrefix (flagOf tok) "--work-tree".toList 4)

def isAttachedGitConfigC (tok : Str) : Bool :=
  startsWith tok "-c".toList && 2 < utf8Len tok && !startsWith tok "--".toList

def attachedGitCPath (tok : Str) : Option Str :=
  (stripPrefix tok "-C".toList).filter fun path => path ≠ [] ∧ ¬ startsWith tok "--".toList

def valueOptions : List String :=
  ["-C", "-c", "--git-dir", "--work-tree", "--namespace", "--super-prefix", "--exec-path",
    "--list-cmds", "--attr-source", "--config-env"]

def valuePrefixes : List (String × ℕ) :=
  [("--config-env", 4), ("--git-dir", 4), ("--work-tree", 4), ("--namespace", 7),
    ("--super-prefix", 8), ("--exec-path", 7), ("--list-cmds", 7), ("--attr-source", 8)]

def gitGlobalOptionTakesValue (tok : Str) : Bool :=
  (valueOptions.any fun option => tok == option.toList) ||
    valuePrefixes.any fun p => isAcceptedLongOptionPrefix tok p.1.toList p.2

def isDash (tok : Str) : Bool := startsWith tok ['-']

/-- Where each walk stops: at a word that is no option. -/
def endsOptions (tok : Str) : Bool :=
  tok == "--".toList || (!isDash tok || tok == "-".toList)

def isExecRiskOption (tok : Str) : Bool :=
  tok == "-c".toList || isAttachedGitConfigC tok || isGitConfigEnvFlag tok ||
    isGitRepoRetargetFlag tok

/-- The next word is skipped as the value. -/
@[grind] def skipsNext (tok next : Str) : Bool :=
  !tok.contains '=' && gitGlobalOptionTakesValue tok && (!isDash next || next == "-".toList)

/-! ## The walks -/

@[grind] def execRiskGlobal : List Str → Bool
  | [] => false
  | tok :: rest =>
    if endsOptions tok then false
    else if isExecRiskOption tok then true
    else if (attachedGitCPath tok).isSome then execRiskGlobal rest
    else
      match rest with
      | [] => false
      | next :: after =>
        if skipsNext tok next then execRiskGlobal after else execRiskGlobal (next :: after)

def gitHasExecRiskGlobal (words : List Str) : Bool := execRiskGlobal (words.drop 1)

def safeGitSubcommands : List String :=
  ["status", "branch", "log", "diff", "ls-files", "show", "rev-parse", "blame", "grep",
    "describe", "merge-base", "check-ignore", "check-attr", "cat-file", "ls-tree", "show-ref",
    "for-each-ref", "rev-list", "name-rev", "count-objects", "shortlog"]

def gitQueryUnsafeOptions : List String :=
  ["--filters", "--textconv", "--output", "--ext-diff", "--open-files-in-pager"]

def gitQueryOptionIsUnsafe (word : Str) : Bool :=
  2 < utf8Len (flagOf word) &&
    gitQueryUnsafeOptions.any fun full => startsWith full.toList (flagOf word)

def verbIndex : List Str → ℕ → Option ℕ
  | [], _ => none
  | tok :: rest, i =>
    if tok = "-".toList ∨ tok = "--".toList then none
    else if !isDash tok then some i
    else if tok = "-C".toList then
      match rest with
      | [] => none
      | _ :: after => verbIndex after (i + 2)
    else if (attachedGitCPath tok).isSome ∨ tok = "--no-pager".toList ∨ tok = "-P".toList then
      verbIndex rest (i + 1)
    else none

def gitSafeQueryVerbIndex (words : List Str) : Option ℕ := verbIndex (words.drop 1) 1

def gitWord : Str := "git".toList

def gitWordsHaveUnsafeQueryOption (words : List Str) : Bool :=
  if words.head? ≠ some gitWord then false
  else if (words.drop 1).any gitQueryOptionIsUnsafe then true
  else
    (gitSafeQueryVerbIndex words).any (fun i => words[i]? == some "grep".toList) &&
      (words.drop 1).any (startsWith · "-O".toList)

def isSafeGitSubcommand (verb : Str) : Bool := safeGitSubcommands.any (verb == ·.toList)

def gitWordsAreReadOnlyQuery (words : List Str) : Bool :=
  if words.head? ≠ some gitWord then false
  else if gitHasExecRiskGlobal words then false
  else
    match gitSafeQueryVerbIndex words with
    | none => false
    | some verbIdx =>
      if !(words[verbIdx]?).any isSafeGitSubcommand then false
      else !gitWordsHaveUnsafeQueryOption words

def isStaticPathOperand (p : Str) : Bool :=
  p ≠ [] && p ≠ "-".toList && !isDash p && !p.contains '$' && !p.contains (Char.ofNat 0x60) &&
    !decide ("$(".toList <:+: p)

def joinCwd (base operand : Str) : Str :=
  if isAbsolute operand then operand else pathPush base operand

@[grind] def effectiveCwd : List Str → Str → Option Str
  | [], cwd => some cwd
  | tok :: rest, cwd =>
    if endsOptions tok then some cwd
    else if isGitRepoRetargetFlag tok then none
    else if tok = "-C".toList then
      match rest with
      | [] => none
      | path :: after =>
        if isStaticPathOperand path then effectiveCwd after (joinCwd cwd path) else none
    else
      match attachedGitCPath tok with
      | some path => if isStaticPathOperand path then effectiveCwd rest (joinCwd cwd path) else none
      | none =>
        match rest with
        | [] => some cwd
        | next :: after =>
          if skipsNext tok next then effectiveCwd after cwd else effectiveCwd (next :: after) cwd

def gitEffectiveCwd (words : List Str) (startCwd : Str) : Option Str :=
  effectiveCwd (words.drop 1) startCwd

/-! ## The options in front of the subcommand -/

structure GlobalOption where
  option : Str
  value : Option Str
deriving DecidableEq

/-- The global options and, from the subcommand on, the rest. An option that takes a value has the
next word for it, whatever that is; `-` and `--` are no options. -/
def globals : List Str → List GlobalOption × List Str
  | [] => ([], [])
  | tok :: rest =>
    if endsOptions tok then ([], tok :: rest)
    else if gitGlobalOptionTakesValue tok then
      match rest with
      | [] => ([⟨tok, none⟩], [])
      | value :: after =>
        let (options, left) := globals after
        (⟨tok, some value⟩ :: options, left)
    else
      let (options, left) := globals rest
      (⟨tok, none⟩ :: options, left)

/-- The operands of `-C`, also those written to the option. -/
def GlobalOption.cOperand (g : GlobalOption) : Option Str :=
  if g.option = "-C".toList then g.value else attachedGitCPath g.option

/-- What the three walks over `git` and its arguments should agree on. -/
structure WalkersAgree (args : List Str) : Prop where
  execRisk : (∃ g ∈ (globals args).1, isExecRiskOption g.option) →
    gitHasExecRiskGlobal (gitWord :: args) ∨ ∀ cwd, gitEffectiveCwd (gitWord :: args) cwd = none
  grepPager : ∀ behind, (globals args).2 = "grep".toList :: behind →
    (∃ word ∈ behind, startsWith word "-O".toList) → gitWordsHaveUnsafeQueryOption (gitWord :: args)
  readOnly : gitWordsAreReadOnlyQuery (gitWord :: args) →
    (∃ verb behind, (globals args).2 = verb :: behind ∧ isSafeGitSubcommand verb) ∧
      ∀ cwd d, gitEffectiveCwd (gitWord :: args) cwd = some d →
        d = ((globals args).1.filterMap GlobalOption.cOperand).foldl joinCwd cwd

end GrokBuild.Permission.ExecRisk
