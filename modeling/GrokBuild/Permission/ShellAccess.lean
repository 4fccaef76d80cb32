import GrokBuild.Permission.RuleMatch

/-!
# File access inside a shell command

The gate of `shell_access.rs`: redirects and the file operands of known readers and writers
are checked against the `Read` and `Edit` rules, through inline `-c` scripts. A parsed script
is what the syntax tree yields to the gate: its redirects, its invocations, whether the parse
failed, and where the working directory changes.
-/

namespace GrokBuild.Permission
open Text

inductive ShellFileMode
  | read
  | write
  | create
  deriving DecidableEq

structure ExecutionScope where
  start : ℕ
  stop : ℕ
  deriving DecidableEq

def ExecutionScope.contains (a b : ExecutionScope) : Bool := a.start ≤ b.start && b.stop ≤ a.stop

structure ShellRedirectTarget where
  path : Option Str
  mode : ShellFileMode
  ambiguous : Bool
  startByte : ℕ
  scope : ExecutionScope
  deriving DecidableEq

structure CwdPoison where
  position : ℕ
  scope : ExecutionScope
  deriving DecidableEq

structure ShellInvocation where
  startByte : ℕ
  scope : ExecutionScope
  words : List ShellWord
  deriving DecidableEq

structure ParsedShell where
  parseFailed : Bool
  redirects : List ShellRedirectTarget
  invocations : List ShellInvocation
  cwdChanges : List CwdPoison

/-- The placeholder keeps operand indexes and matches no wrapper. -/
def ShellWord.wrapperWord : ShellWord → Str
  | .literal word => word
  | .untrusted => [Char.ofNat 0]

def ShellInvocation.wrapperWords (inv : ShellInvocation) : List Str :=
  inv.words.map ShellWord.wrapperWord

structure CheckedInvocationPeel where
  words : List ShellWord
  hasChdir : Bool
  hasSplitString : Bool
  envOptionsUncertain : Bool
  exhausted : Bool
  transparentAmbiguous : Bool
  deriving DecidableEq

def unwrapInvocationChecked (inv : ShellInvocation) : CheckedInvocationPeel :=
  let norm := normalizeCommandWords inv.wrapperWords
  let peeledCount := inv.wrapperWords.length - norm.words.length
  { words := inv.words.drop peeledCount
    hasChdir := norm.hasChdir
    hasSplitString := norm.hasSplitString
    envOptionsUncertain := norm.envOptionsUncertain
    exhausted := norm.exhausted
    transparentAmbiguous := norm.ambiguous }

def cwdUnpinnedBefore (positions : List CwdPoison) (before : ℕ) (scope : ExecutionScope) : Bool :=
  positions.any fun poison =>
    poison.position < before && (poison.scope == scope || poison.scope.contains scope)

def literalWords (words : List ShellWord) : List Str :=
  words.filterMap fun
    | .literal word => some word
    | .untrusted => none

def shellFileMode (program : Str) : Option ShellFileMode :=
  if ["cat", "tac", "nl", "head", "tail", "grep", "egrep", "fgrep", "rg", "sed",
      "awk", "less", "more", "bat", "strings", "xxd", "od", "hexdump", "base64",
      "base32", "cut", "sort", "uniq", "wc", "type", "get-content", "gc", "diff",
      "comm", "rev", "jq", "yq", "select-string", "sls", "ag", "ack", "zcat",
      "zless", "zmore", "zgrep", "zegrep", "zfgrep", "bzcat", "bzgrep", "xzcat",
      "xzgrep", "zstdcat", "lz4cat"].any (·.toList == program) then some .read
  else if ["tee", "set-content", "out-file", "add-content", "tee-object",
      "truncate"].any (·.toList == program) then some .write
  else none

def isCreationProgram (program : Str) : Bool := ["mkdir", "touch"].any (·.toList == program)

def shellSedInPlace (words : List Str) : Bool :=
  (words.drop 1).any fun word =>
    word == "--in-place".toList || startsWith word "--in-place=".toList ||
      (startsWith word "-".toList && !startsWith word "--".toList && word.contains 'i')

def nonEmptyStr (s : Str) : Option Str := if s.isEmpty then none else some s

/-- The values of `--output` and `-o`, in every spelling. -/
def shellOutputFlagValues : List Str → List Str
  | [] => []
  | token :: rest =>
    let value :=
      (stripPrefix token "--output=".toList).or
        (((stripPrefix token "-o".toList).bind nonEmptyStr).or
          (if token == "--output".toList || token == "-o".toList then rest.head? else none))
    value.toList ++ shellOutputFlagValues rest

def valueFlagValues (flag : Str) : List Str → List Str
  | [] => []
  | token :: rest =>
    let value :=
      match stripPrefix token (flag ++ "=".toList) with
      | some value => some value
      | none =>
        if token == flag then rest.head?
        else if !startsWith flag "--".toList then (stripPrefix token flag).bind nonEmptyStr
        else none
    value.toList ++ valueFlagValues flag rest

/-- The scan of `shell_file_candidates` over the words after the program. -/
def candidatesFrom (endOfOptions : Bool) : List Str → List Str
  | [] => []
  | token :: rest =>
    if !endOfOptions && token == "--".toList then candidatesFrom true rest
    else if endOfOptions || (token != "-".toList && !startsWith token "-".toList) then
      token :: candidatesFrom endOfOptions rest
    else candidatesFrom endOfOptions rest

def shellFileCandidates (words : List Str) : List Str := candidatesFrom false (words.drop 1)

abbrev FileOperand := Str × ShellFileMode

def ddOperand (token : Str) : Option FileOperand :=
  match stripPrefix token "if=".toList with
  | some path => some (path, .read)
  | none => (stripPrefix token "of=".toList).map fun path => (path, .write)

def specialFileOperands (program : Str) (words : List Str) : List FileOperand :=
  if program = "dd".toList then (words.drop 1).filterMap ddOperand
  else if ["sort", "go", "git"].any (·.toList == program) then
    (shellOutputFlagValues words).map fun output => (output, .write)
  else if program = "rustc".toList then
    (shellOutputFlagValues words ++ valueFlagValues "--out-dir".toList words).map
      fun output => (output, .write)
  else if program = "rustfmt".toList then
    (shellFileCandidates words).map fun path => (path, .write)
  else []

def shellPathCommandOperands (program : Str) (words : List Str) : Option (List FileOperand) :=
  let candidates := shellFileCandidates words
  if ["cp", "mv", "ln", "install"].any (·.toList == program) then
    candidates.getLast?.map fun dest =>
      candidates.dropLast.map (fun s => (s, .read)) ++ [(dest, .write)]
  else if ["rm", "rmdir"].any (·.toList == program) then
    some (candidates.map fun c => (c, .write))
  else if isCreationProgram program then some (candidates.map fun c => (c, .create))
  else if program = "uniq".toList then
    match candidates with
    | input :: output :: _ => some [(input, .read), (output, .write)]
    | _ => none
  else none

def shellArgIsAmbiguous (token : Str) : Bool :=
  token.contains '*' || token.contains '?' || token.contains '['

def isDirectoryOperand (token : Str) : Bool :=
  token == ".".toList || token == "..".toList || endsWith token "/".toList

def shellReaderCanRecurse (program : Str) (words candidates : List Str) : Bool :=
  let grepRecursive := ["grep", "egrep", "fgrep"].any (·.toList == program) &&
    words.any fun word =>
      word == "--recursive".toList || word == "--dereference-recursive".toList ||
        (startsWith word "-".toList && !startsWith word "--".toList &&
          (word.contains 'r' || word.contains 'R'))
  let searchesDir := ["rg", "ag", "ack"].any (·.toList == program) &&
    (candidates.length ≤ 1 || (candidates.drop 1).any isDirectoryOperand)
  grepRecursive || searchesDir

def shellAccess (mode : ShellFileMode) (path : Str) : AccessKind :=
  match mode with
  | .read => .read (some path)
  | .write | .create => .edit path

/-- The second byte is `:`, as after a drive letter. -/
def hasDrivePrefix : Str → Bool
  | c :: ':' :: _ => c.toNat < 128
  | _ => false

def isAbsoluteShellPath (path : Str) : Bool :=
  startsWith path "/".toList || startsWith path "~/".toList || hasDrivePrefix path

def normalizeShellPathRaw (path : Str) : Str :=
  let isQuote (c : Char) := c == '"' || c == '\''
  let p := replaceChar '\\' '/' (trimEndMatches isQuote (path.dropWhile isQuote))
  match stripPrefix p "/c/".toList with
  | some rest => "C:/".toList ++ rest
  | none => p

/-- One segment of `lexical_normalize`; the stack is reversed. -/
def normalizeSegment (absolute : Bool) (stack : List Str) (segment : Str) : List Str :=
  if segment.isEmpty || segment == ".".toList then stack
  else if segment == "..".toList then
    match stack with
    | top :: rest => if top != "..".toList then rest else if absolute then stack else segment :: stack
    | [] => if absolute then [] else [segment]
  else segment :: stack

def lexicalNormalize (path : Str) : Str :=
  let drive := if hasDrivePrefix path then path.take 2 else []
  let rest := if hasDrivePrefix path then path.drop 2 else path
  let absolute := startsWith rest "/".toList
  let body := ['/'].intercalate
    ((splitOnChar '/' rest).foldl (normalizeSegment absolute) []).reverse
  drive ++ (if absolute then "/".toList else []) ++ body

def normalizeShellPath (path : Str) : Str := lexicalNormalize (normalizeShellPathRaw path)

/-- The decision so far and the pending fail-closed ask of one script. -/
structure GateAcc where
  decision : Option GateDecision := none
  forcedAsk : Bool := false

def GateAcc.combine (acc : GateAcc) (d : Option GateDecision) : GateAcc :=
  { acc with decision := combineGateDecisions acc.decision d }

def GateAcc.force (acc : GateAcc) (b : Bool) : GateAcc :=
  { acc with forcedAsk := acc.forcedAsk || b }

namespace CompiledPolicy

variable {env : PolicyEnv}

/-- `escalate` of `evaluate_shell_path`: an allow is dropped. -/
def escalateFile (p : CompiledPolicy env) (ruleCwd : Option Str) (access : AccessKind) :
    Option GateDecision :=
  match p.evaluateLexicalWithCwd access ruleCwd with
  | some (.reject reason) => some (.reject reason)
  | some .ask => some .askRuleMatch
  | _ => none

def anchoredPath (path cwd : Str) : Str :=
  if isAbsoluteShellPath path then path else normalizeShellPath (pathPush cwd path)

/-- An unpinned cwd anchors nothing but an absolute operand. -/
def shellRuleCwd (path cwd : Str) (cwdUnpinned : Bool) : Option Str :=
  if isAbsoluteShellPath path || !cwdUnpinned then some cwd else none

def evaluateShellPath (p : CompiledPolicy env) (token cwd : Str) (mode : ShellFileMode)
    (cwdUnpinned : Bool) : Option GateDecision :=
  let path := normalizeShellPath token
  let absolute := isAbsoluteShellPath path
  let escalate (text : Str) :=
    p.escalateFile (shellRuleCwd path cwd cwdUnpinned) (shellAccess mode text)
  let raw := normalizeShellPathRaw token
  let rawAbsolute :=
    if isAbsoluteShellPath raw then some raw
    else if cwdUnpinned then none
    else some (normalizeShellPathRaw (pathPush cwd raw))
  let resolvedDecision := rawAbsolute.bind fun rawAbsolute =>
    match followAbsoluteSymlink env rawAbsolute (anchoredPath path cwd) with
    | .target resolved => escalate resolved
    | .unresolvable => some .askFailClosed
    | .none => none
  let pathDecision := escalate path
  let anchoredDecision :=
    if cwdUnpinned && !absolute then none
    else combineGateDecisions (escalate (anchoredPath path cwd)) resolvedDecision
  combineGateDecisions (combineGateDecisions pathDecision anchoredDecision)
    (failClosedIf (cwdUnpinned && !absolute))

def evaluateOperand (p : CompiledPolicy env) (cwd : Str) (cwdUnpinned : Bool) (acc : GateAcc)
    (operand : FileOperand) : GateAcc :=
  (acc.force (shellArgIsAmbiguous operand.1)).combine
    (p.evaluateShellPath operand.1 cwd operand.2 cwdUnpinned)

def evaluateRedirect (p : CompiledPolicy env) (cwd : Str) (cwdUnpinned : Bool)
    (cwdChanges : List CwdPoison) (acc : GateAcc) (redirect : ShellRedirectTarget) : GateAcc :=
  let acc := acc.force redirect.ambiguous
  match redirect.path with
  | none => acc
  | some path =>
    acc.combine (p.evaluateShellPath path cwd redirect.mode
      (cwdUnpinned || cwdUnpinnedBefore cwdChanges redirect.startByte redirect.scope))

/-- The modes under which the plain candidates of a known program are checked. -/
def candidateModes (program : Str) (words : List Str) : List ShellFileMode :=
  match shellFileMode program with
  | none | some .create => []
  | some mode =>
    if program = "sed".toList && shellSedInPlace words then [.read, .write] else [mode]

/-- The plain candidates of a reader or writer, each under all of its modes. -/
def evaluateCandidates (p : CompiledPolicy env) (cwd : Str) (cwdUnpinned : Bool) (program : Str)
    (literals : List Str) (acc : GateAcc) : GateAcc :=
  let candidates := shellFileCandidates literals
  let modes := candidateModes program literals
  if modes.isEmpty then acc
  else
    let acc := candidates.foldl
      (fun acc token =>
        modes.foldl (fun acc mode => acc.combine (p.evaluateShellPath token cwd mode cwdUnpinned))
          (acc.force (shellArgIsAmbiguous token)))
      acc
    acc.force (shellReaderCanRecurse program literals candidates)

/-- The operands of a known program, from the extractor that applies to it. -/
def evaluateOperands (p : CompiledPolicy env) (cwd : Str) (cwdUnpinned : Bool) (program : Str)
    (literals : List Str) (acc : GateAcc) : GateAcc :=
  let acc := (specialFileOperands program literals).foldl (p.evaluateOperand cwd cwdUnpinned) acc
  if program = "dd".toList then acc
  else
    match shellPathCommandOperands program literals with
    | some operands => operands.foldl (p.evaluateOperand cwd cwdUnpinned) acc
    | none => p.evaluateCandidates cwd cwdUnpinned program literals acc

/-- The part of the invocation loop that follows the inline script, for a literal program. -/
def evaluateProgram (p : CompiledPolicy env) (cwd : Str) (cwdUnpinned parseFailed : Bool)
    (program : Str) (words : List ShellWord) (acc : GateAcc) : GateAcc :=
  let program := toAsciiLowercase (baseName program)
  if ["cd", "pushd", "popd"].any (·.toList == program) then acc
  else
    let literals := literalWords words
    let hasAmbiguousWord := words.any (· == .untrusted)
    let isKnown := program == "dd".toList || (shellFileMode program).isSome ||
      (shellPathCommandOperands program literals).isSome
    p.evaluateOperands cwd cwdUnpinned program literals
      (acc.force (isKnown && (cwdUnpinned || hasAmbiguousWord || parseFailed)))

/-- The flags of the peel, which force an ask. -/
def noteFlags (parseFailed : Bool) (peeled : CheckedInvocationPeel) (acc : GateAcc) : GateAcc :=
  let acc := acc.force peeled.exhausted
  let acc := acc.force peeled.hasSplitString
  let acc := acc.force peeled.envOptionsUncertain
  let acc := acc.force peeled.transparentAmbiguous
  acc.force (parseFailed && shellDashCScript peeled.words != .notInline)

/-- The inline script of the peeled words. `recurse` evaluates it, given whether the cwd is
unpinned there; without `recurse` the inline budget is spent. -/
def evaluateInline (recurse : Option (Str → Bool → Option GateDecision)) (unpinned : Bool)
    (words : List ShellWord) (acc : GateAcc) : GateAcc :=
  match shellDashCScript words, recurse with
  | .literal _, none => acc.force true
  | .literal index, some recurse =>
    match words[index]? with
    | some (.literal inner) => acc.combine (recurse inner unpinned)
    | _ => acc
  | .untrusted, _ | .unrecognized, _ => acc.force true
  | .notInline, _ => acc

def evaluateHead (p : CompiledPolicy env) (cwd : Str) (unpinned parseFailed : Bool)
    (words : List ShellWord) (acc : GateAcc) : GateAcc :=
  match words.head? with
  | some (.literal program) => p.evaluateProgram cwd unpinned parseFailed program words acc
  | _ => acc

def invocationUnpinned (cwdUnpinned : Bool) (cwdChanges : List CwdPoison) (inv : ShellInvocation) :
    Bool :=
  cwdUnpinned || cwdUnpinnedBefore cwdChanges inv.startByte inv.scope ||
    (unwrapInvocationChecked inv).hasChdir

/-- One round of the invocation loop. -/
def evaluateInvocation (p : CompiledPolicy env) (cwd : Str) (cwdUnpinned parseFailed : Bool)
    (cwdChanges : List CwdPoison) (recurse : Option (Str → Bool → Option GateDecision))
    (acc : GateAcc) (inv : ShellInvocation) : GateAcc :=
  let peeled := unwrapInvocationChecked inv
  let unpinned := invocationUnpinned cwdUnpinned cwdChanges inv
  let acc := noteFlags parseFailed peeled acc
  let acc := evaluateInline recurse unpinned peeled.words acc
  p.evaluateHead cwd unpinned parseFailed peeled.words acc

/-- `evaluate_shell_file_access_inner`, without the recursion on the inline budget. -/
def evaluateScript (p : CompiledPolicy env) (parse : Str → Option ParsedShell) (cwd : Str)
    (recurse : Option (Str → Bool → Option GateDecision)) (cmd : Str)
    (cwdUnpinned enteredInline : Bool) : Option GateDecision :=
  match parse cmd with
  | none => failClosedIf enteredInline
  | some script =>
    let acc : GateAcc := { forcedAsk := enteredInline && script.parseFailed }
    let acc := script.redirects.foldl (p.evaluateRedirect cwd cwdUnpinned script.cwdChanges) acc
    let acc := script.invocations.foldl
      (p.evaluateInvocation cwd cwdUnpinned script.parseFailed script.cwdChanges recurse) acc
    combineGateDecisions acc.decision (failClosedIf acc.forcedAsk)

def evaluateShellFileAccessInner (p : CompiledPolicy env) (parse : Str → Option ParsedShell)
    (cwd : Str) : ℕ → Str → Bool → Bool → Option GateDecision
  | 0 => p.evaluateScript parse cwd none
  | depth + 1 =>
    p.evaluateScript parse cwd
      (some fun inner unpinned => p.evaluateShellFileAccessInner parse cwd depth inner unpinned true)

def evaluateShellFileAccessGate (p : CompiledPolicy env) (parse : Str → Option ParsedShell)
    (cmd cwd : Str) : Option GateDecision :=
  if !p.hasFileRestrictions then none
  else p.evaluateShellFileAccessInner parse cwd maxInlineShellDepth cmd false false

def evaluateShellFileAccess (p : CompiledPolicy env) (parse : Str → Option ParsedShell)
    (cmd cwd : Str) : Option Decision :=
  (p.evaluateShellFileAccessGate parse cmd cwd).map GateDecision.intoDecision

end CompiledPolicy

end GrokBuild.Permission
