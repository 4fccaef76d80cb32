import GrokBuild.Permission.Types

/-!
# Peeling a command's words

Canonical wrappers (`timeout`, `nice`, `env`, ...) and shell-transparent prefixes (`exec`,
`command`, `builtin`) are stripped alternately, within fixed budgets. Slices of the source are
suffixes here: every function returns a suffix of the words it is given.
-/

namespace GrokBuild.Permission
open Text

def headName (words : List Str) : Option Str := words.head?.map baseName

def isEnvAssignment (tok : Str) : Bool :=
  tok.contains '=' &&
    let name := tok.takeWhile (· != '=')
    name.head?.any (fun c => c.isAlpha || c == '_') &&
      name.all fun c => c.isAlpha || c.isDigit || c == '_'

/-- The loop of `decode_shell_literal_spelling`: `quote` is the open quote, `out` is reversed. -/
@[grind] def decodeShellLoop : Option Char → Str → Str → Option Str
  | none, out, [] => some out.reverse
  | some _, _, [] => none
  | none, out, c :: rest =>
    if c == '\'' || c == '"' then decodeShellLoop (some c) out rest
    else if c == '\\' then
      match rest with
      | [] => none
      | n :: rest => decodeShellLoop none (n :: out) rest
    else decodeShellLoop none (c :: out) rest
  | some q, out, c :: rest =>
    if c == q then decodeShellLoop none out rest
    else if q == '"' && c == '\\' then
      match rest with
      | [] => none
      | n :: rest =>
        if "$`\"\\\n".toList.contains n then decodeShellLoop (some q) (n :: out) rest
        else decodeShellLoop (some q) (n :: '\\' :: out) rest
    else decodeShellLoop (some q) (c :: out) rest

def decodeShellLiteralSpelling (raw : Str) : Option Str := decodeShellLoop none [] raw

theorem decodeShellLoop_quoted {q c : Char} (hq : c ≠ q) (hc : q = '"' → c ≠ '\\') (out rest : Str) :
    decodeShellLoop (some q) out (c :: rest) = decodeShellLoop (some q) (c :: out) rest := by
  have hclose : (c == q) = false := beq_eq_false_iff_ne.mpr hq
  have hescape : (q == '"' && c == '\\') = false := by
    rw [Bool.and_eq_false_imp]
    intro h
    exact beq_eq_false_iff_ne.mpr (hc (beq_iff_eq.mp h))
  rw [decodeShellLoop.eq_def]
  simp only [hclose, hescape, Bool.false_eq_true, if_false]

theorem decodeShellLoop_unquoted {c : Char} (hc : c ≠ '\'' ∧ c ≠ '"' ∧ c ≠ '\\') (out rest : Str) :
    decodeShellLoop none out (c :: rest) = decodeShellLoop none (c :: out) rest := by
  obtain ⟨hsingle, hdouble, hescape⟩ := hc
  rw [decodeShellLoop.eq_def]
  simp only [beq_eq_false_iff_ne.mpr hsingle, beq_eq_false_iff_ne.mpr hdouble,
    beq_eq_false_iff_ne.mpr hescape, Bool.or_self, Bool.false_eq_true, if_false]

theorem decodeShellLoop_open {q : Char} (hq : (q == '\'' || q == '"') = true) (out rest : Str) :
    decodeShellLoop none out (q :: rest) = decodeShellLoop (some q) out rest := by
  rw [decodeShellLoop.eq_def]
  simp only [hq, if_true]

theorem decodeShellLoop_close (q : Char) (out rest : Str) :
    decodeShellLoop (some q) out (q :: rest) = decodeShellLoop none out rest := by
  rw [decodeShellLoop.eq_def]
  simp only [beq_self_eq_true, if_true]

theorem decodeShellLoop_backslash (n : Char) (out rest : Str) :
    decodeShellLoop none out ('\\' :: n :: rest) = decodeShellLoop none (n :: out) rest := by
  rw [decodeShellLoop.eq_def]
  simp

def decodeEnvOptionToken (raw : Str) : Str :=
  if raw.any fun c => c == '\'' || c == '"' then (decodeShellLiteralSpelling raw).getD raw
  else raw

def isHighConfidenceEnvSPayload (s : Str) : Bool :=
  !s.isEmpty && !s.contains (Char.ofNat 0) &&
    !s.any fun c => "'\"\\#`$\n\r".toList.contains c

def takeHighConfidencePayload (raw : Str) : Option Str :=
  if isHighConfidenceEnvSPayload raw then some raw else none

inductive EnvShort
  | splitStringNext
  | splitStringGlued (payload : Str)
  | splitStringDetect
  | noArg
  | argNeedNext (kind : Char)
  | argGlued (kind : Char)
  | uncertain

/-- The cluster walk of `classify_env_short`. -/
@[grind] def classifyCluster : Str → EnvShort
  | [] => .noArg
  | c :: rest =>
    if c == 'i' || c == 'v' || c == '0' then classifyCluster rest
    else if c == 'S' then .splitStringDetect
    else if c == 'u' || c == 'C' || c == 'P' || c == 'a' then
      if rest.isEmpty then .argNeedNext c else .argGlued c
    else .uncertain

@[grind] def classifyEnvShort : Str → EnvShort
  | '-' :: '-' :: _ => .uncertain
  | '-' :: 'S' :: rest => if rest.isEmpty then .splitStringNext else .splitStringGlued rest
  | '-' :: c :: rest => classifyCluster (c :: rest)
  | _ => .uncertain

/-- What one token does to the scan of `env`'s options. -/
inductive EnvToken
  | endOfOptions
  | command
  | skip
  | operandNext (isChdir : Bool)
  | chdirGlued (dir : Str)
  | splitStringNext
  | splitStringGlued (payload : Str)
  | splitStringDetect
  | uncertain

def classifyEnvLong (tok : Str) : EnvToken :=
  if tok == "--chdir".toList then .operandNext true
  else if startsWith tok "--chdir=".toList then .chdirGlued (tok.drop 8)
  else if tok == "--unset".toList || tok == "--path".toList || tok == "--argv0".toList then
    .operandNext false
  else if startsWith tok "--unset=".toList || startsWith tok "--path=".toList ||
      startsWith tok "--argv0=".toList then .skip
  else if tok == "--ignore-environment".toList || tok == "--null".toList ||
      tok == "--debug".toList || tok == "--version".toList || tok == "--help".toList then .skip
  else if tok == "--split-string".toList then .splitStringNext
  else
    match stripPrefix tok "--split-string=".toList with
    | some payload =>
      .splitStringGlued
        ((stripPrefix (decodeEnvOptionToken tok) "--split-string=".toList).getD payload)
    | none => .uncertain

def classifyEnvToken (tok : Str) : EnvToken :=
  if tok == "--".toList then .endOfOptions
  else if tok == "-".toList then .skip
  else if !startsWith tok "-".toList then
    if isEnvAssignment tok then .skip else .command
  else if startsWith tok "--".toList then classifyEnvLong tok
  else
    match classifyEnvShort (decodeEnvOptionToken tok) with
    | .splitStringNext => .splitStringNext
    | .splitStringGlued payload => .splitStringGlued payload
    | .splitStringDetect => .splitStringDetect
    | .noArg => .skip
    | .argNeedNext kind => .operandNext (kind == 'C')
    | .argGlued kind =>
      -- the operand is cut from the raw token, so a cluster such as `-iCdir` yields ""
      if kind == 'C' then .chdirGlued ((stripPrefix tok "-C".toList).getD []) else .skip
    | .uncertain => .uncertain

structure EnvScan where
  chdir : Option Str
  hasSplitString : Bool
  optionsUncertain : Bool
  splitStringScript : Option Str
  commandStart : ℕ

/-- The loop of `env_scan` at index `i`; the last argument is what follows. -/
@[grind] def envScanFrom (chdir : Option Str) (i : ℕ) : List Str → EnvScan
  | [] => ⟨chdir, false, false, none, i⟩
  | tok :: rest =>
    match classifyEnvToken tok with
    | .endOfOptions => ⟨chdir, false, false, none, i + 1⟩
    | .command => ⟨chdir, false, false, none, i⟩
    | .skip => envScanFrom chdir (i + 1) rest
    | .operandNext isChdir =>
      match rest with
      | [] => ⟨chdir, false, true, none, i⟩
      | operand :: rest => envScanFrom (if isChdir then some operand else chdir) (i + 2) rest
    | .chdirGlued dir => envScanFrom (some dir) (i + 1) rest
    | .splitStringNext =>
      ⟨chdir, true, false, rest.head?.bind takeHighConfidencePayload, i⟩
    | .splitStringGlued payload => ⟨chdir, true, false, takeHighConfidencePayload payload, i⟩
    | .splitStringDetect => ⟨chdir, true, false, none, i⟩
    | .uncertain => ⟨chdir, false, true, none, i⟩

def envScan (cmd : List Str) : EnvScan := envScanFrom none 1 cmd.tail

def envSplitStringScript (words : List Str) : Option Str :=
  if headName words = some "env".toList then
    let scan := envScan words
    if scan.hasSplitString then scan.splitStringScript else none
  else none

/-- `while cmd[i].starts_with('-')`, where the options in `takesValue` skip one word more. -/
@[grind] def skipOptions (takesValue : Str → Bool) : List Str → List Str
  | [] => []
  | tok :: rest =>
    if startsWith tok "-".toList then
      if takesValue tok then
        match rest with
        | [] => []
        | _ :: rest => skipOptions takesValue rest
      else skipOptions takesValue rest
    else tok :: rest

def timeoutTakesValue (tok : Str) : Bool :=
  ["-k", "-s", "--kill-after", "--signal"].any (·.toList == tok)

def niceTakesValue (tok : Str) : Bool := ["-n", "--adjustment"].any (·.toList == tok)

def ioniceTakesValue (tok : Str) : Bool :=
  ["-c", "-n", "-p", "-P", "-u", "--class", "--classdata", "--pid", "--pgid", "--uid"].any
    (·.toList == tok)

def stdbufTakesValue (tok : Str) : Bool := ["-i", "-o", "-e"].any (·.toList == tok)

def nonEmpty (words : List Str) : Option (List Str) := if words.isEmpty then none else some words

def stripWrapperCommand (cmd : List Str) : Option (List Str) :=
  match headName cmd with
  | none => none
  | some head =>
    let args := cmd.tail
    -- `timeout` and `chrt` have a mandatory DURATION or PRIORITY after the options
    if head = "timeout".toList then nonEmpty (skipOptions timeoutTakesValue args).tail
    else if head = "nice".toList then nonEmpty (skipOptions niceTakesValue args)
    else if head = "ionice".toList then nonEmpty (skipOptions ioniceTakesValue args)
    else if head = "chrt".toList then nonEmpty (skipOptions (fun _ => false) args).tail
    else if head = "stdbuf".toList then nonEmpty (skipOptions stdbufTakesValue args)
    else if head = "env".toList then
      let scan := envScan cmd
      if scan.hasSplitString || scan.optionsUncertain then none
      else nonEmpty (cmd.drop scan.commandStart)
    else none

def isWrapperCommand (words : List Str) : Bool :=
  (headName words).any fun head =>
    ["timeout", "nice", "ionice", "chrt", "stdbuf", "env"].any (·.toList == head)

def maxWrapperDepth : ℕ := 8
def maxInlineShellDepth : ℕ := 8
def maxTransparentPrefixDepth : ℕ := 8
def maxNormalizeRounds : ℕ := maxWrapperDepth + maxTransparentPrefixDepth

structure CheckedWrapperPeel where
  words : List Str
  hasChdir : Bool := false
  hasSplitString : Bool := false
  envOptionsUncertain : Bool := false
  exhausted : Bool := false
  deriving DecidableEq

/-- The facts that one `env` level adds before it is stripped. -/
def CheckedWrapperPeel.noteEnv (p : CheckedWrapperPeel) : CheckedWrapperPeel :=
  if headName p.words = some "env".toList then
    let scan := envScan p.words
    { p with
      hasChdir := p.hasChdir || scan.chdir.isSome
      hasSplitString := p.hasSplitString || scan.hasSplitString
      envOptionsUncertain := p.envOptionsUncertain || scan.optionsUncertain }
  else p

@[grind] def unwrapWrappersLoop : ℕ → CheckedWrapperPeel → CheckedWrapperPeel
  | 0, p =>
    { p with exhausted := isWrapperCommand p.words && (stripWrapperCommand p.words).isSome }
  | n + 1, p =>
    match stripWrapperCommand p.words with
    | some inner => unwrapWrappersLoop n { p.noteEnv with words := inner }
    | none => p.noteEnv

def unwrapWrappersChecked (words : List Str) : CheckedWrapperPeel :=
  unwrapWrappersLoop maxWrapperDepth { words := words }

inductive TransparentStrip
  | notPrefix
  | peeled (inner : List Str)
  | ambiguous
  deriving DecidableEq

def peeledUnlessEmpty (inner : List Str) : TransparentStrip :=
  if inner.isEmpty then .notPrefix else .peeled inner

/-- The option loop of `strip_exec_prefix`, on the words after `exec`. -/
@[grind] def stripExecArgs : List Str → TransparentStrip
  | [] => .notPrefix
  | tok :: rest =>
    if tok == "--".toList then peeledUnlessEmpty rest
    else if tok == "-".toList || !startsWith tok "-".toList then .peeled (tok :: rest)
    else if ["-c", "-l", "-cl", "-lc"].any (·.toList == tok) then stripExecArgs rest
    else if tok == "-a".toList then
      match rest with
      | v :: rest => if v == [Char.ofNat 0] || v.isEmpty then .ambiguous else stripExecArgs rest
      | [] => .ambiguous
    else if startsWith tok "-a".toList && 2 < tok.length then
      if tok.drop 2 == [Char.ofNat 0] then .ambiguous else stripExecArgs rest
    else if !startsWith tok "--".toList && (tok.drop 1).all (fun c => c == 'c' || c == 'l') then
      stripExecArgs rest
    else .ambiguous

/-- The option loop of `strip_command_prefix`; the display forms `-v` and `-V` are not peeled. -/
@[grind] def stripCommandArgs : List Str → TransparentStrip
  | [] => .notPrefix
  | tok :: rest =>
    if tok == "--".toList then peeledUnlessEmpty rest
    else if tok == "-".toList || !startsWith tok "-".toList then .peeled (tok :: rest)
    else if ["-v", "-V", "--help", "--version"].any (·.toList == tok) ||
        (!startsWith tok "--".toList && (tok.drop 1).any fun c => c == 'v' || c == 'V') then
      .notPrefix
    else if tok == "-p".toList ||
        (!startsWith tok "--".toList && (tok.drop 1).all (· == 'p')) then stripCommandArgs rest
    else .ambiguous

@[grind] def stripBuiltinArgs : List Str → TransparentStrip
  | [] => .notPrefix
  | tok :: rest =>
    if startsWith tok "-".toList && tok != "-".toList then .ambiguous else .peeled (tok :: rest)

@[grind] def stripTransparentPrefix : List Str → TransparentStrip
  | [] => .notPrefix
  | word :: args =>
    if word.isEmpty || word == [Char.ofNat 0] then .notPrefix
    else if baseName word = "exec".toList then stripExecArgs args
    else if baseName word = "command".toList then stripCommandArgs args
    else if baseName word = "builtin".toList then stripBuiltinArgs args
    else .notPrefix

/-- `none` is the source's `Ambiguous`. -/
@[grind] def peelTransparentLoop : ℕ → List Str → Option (List Str)
  | 0, current =>
    match stripTransparentPrefix current with
    | .notPrefix => some current
    | .peeled _ | .ambiguous => none
  | n + 1, current =>
    match stripTransparentPrefix current with
    | .notPrefix => some current
    | .peeled inner => peelTransparentLoop n inner
    | .ambiguous => none

def peelTransparentPrefixes (words : List Str) : Option (List Str) :=
  peelTransparentLoop maxTransparentPrefixDepth words

structure NormalizedCommandPeel extends CheckedWrapperPeel where
  ambiguous : Bool := false
  deriving DecidableEq

def NormalizedCommandPeel.failsClosed (norm : NormalizedCommandPeel) : Bool :=
  norm.exhausted || norm.ambiguous || norm.envOptionsUncertain || norm.hasSplitString

/-- One round's wrapper peel, with its flags accumulated. -/
def NormalizedCommandPeel.unwrap (p : NormalizedCommandPeel) : NormalizedCommandPeel :=
  let wrapped := unwrapWrappersChecked p.words
  { words := wrapped.words
    hasChdir := p.hasChdir || wrapped.hasChdir
    hasSplitString := p.hasSplitString || wrapped.hasSplitString
    envOptionsUncertain := p.envOptionsUncertain || wrapped.envOptionsUncertain
    exhausted := p.exhausted || wrapped.exhausted
    ambiguous := p.ambiguous }

@[grind] def normalizeRounds : ℕ → NormalizedCommandPeel → NormalizedCommandPeel
  | 0, p => p
  | n + 1, p =>
    let q := p.unwrap
    if q.hasSplitString || q.envOptionsUncertain then q
    else
      match peelTransparentPrefixes q.words with
      | none => { q with ambiguous := true }
      | some inner =>
        -- both are suffixes of one buffer, so equal lengths mean the same slice
        if inner.length = p.words.length then { q with words := inner }
        else normalizeRounds n { q with words := inner }

def stillPeelable (words : List Str) : Bool :=
  (isWrapperCommand words && (stripWrapperCommand words).isSome) ||
    stripTransparentPrefix words != .notPrefix

def normalizeCommandWords (words : List Str) : NormalizedCommandPeel :=
  let p := normalizeRounds maxNormalizeRounds { words := words }
  if !p.ambiguous && !p.hasSplitString && !p.envOptionsUncertain && stillPeelable p.words then
    { p with exhausted := true }
  else p

theorem skipOptions_suffix (takesValue : Str → Bool) (words : List Str) :
    skipOptions takesValue words <:+ words := by
  fun_induction skipOptions takesValue words with
  | case1 => exact List.suffix_rfl
  | case2 tok _ _ => exact List.nil_suffix
  | case3 tok _ _ v rest ih => exact ih.trans ((List.suffix_cons v rest).trans (List.suffix_cons _ _))
  | case4 tok rest _ _ ih => exact ih.trans (List.suffix_cons tok rest)
  | case5 tok rest _ => exact List.suffix_rfl

theorem nonEmpty_eq_some {words inner : List Str} (h : nonEmpty words = some inner) :
    inner = words ∧ words ≠ [] := by
  unfold nonEmpty at h
  split at h
  · cases h
  · rename_i hne
    exact ⟨(Option.some.inj h).symm, by simpa using hne⟩

theorem stripWrapperCommand_suffix {cmd inner : List Str}
    (h : stripWrapperCommand cmd = some inner) : inner <:+ cmd := by
  have htail (takesValue : Str → Bool) : skipOptions takesValue cmd.tail <:+ cmd :=
    (skipOptions_suffix _ _).trans (List.tail_suffix cmd)
  unfold stripWrapperCommand at h
  split at h
  · cases h
  · dsimp only at h
    split_ifs at h <;> obtain ⟨rfl, -⟩ := nonEmpty_eq_some h
    · exact (List.tail_suffix _).trans (htail _)
    · exact htail _
    · exact htail _
    · exact (List.tail_suffix _).trans (htail _)
    · exact htail _
    · exact List.drop_suffix _ _

theorem peeledUnlessEmpty_eq_peeled {words inner : List Str}
    (h : peeledUnlessEmpty words = .peeled inner) : inner = words := by
  unfold peeledUnlessEmpty at h
  split at h
  · cases h
  · exact (TransparentStrip.peeled.inj h).symm

theorem stripExecArgs_suffix {args inner : List Str} (h : stripExecArgs args = .peeled inner) :
    inner <:+ args := by
  fun_induction stripExecArgs args <;> grind [peeledUnlessEmpty_eq_peeled, List.suffix_cons_iff]

theorem stripCommandArgs_suffix {args inner : List Str}
    (h : stripCommandArgs args = .peeled inner) : inner <:+ args := by
  fun_induction stripCommandArgs args <;> grind [peeledUnlessEmpty_eq_peeled, List.suffix_cons_iff]

theorem stripBuiltinArgs_suffix {args inner : List Str}
    (h : stripBuiltinArgs args = .peeled inner) : inner <:+ args := by
  fun_cases stripBuiltinArgs args <;> grind [stripBuiltinArgs]

theorem stripTransparentPrefix_suffix {cmd inner : List Str}
    (h : stripTransparentPrefix cmd = .peeled inner) : inner <:+ cmd := by
  cases cmd with
  | nil => cases h
  | cons word args =>
    refine List.IsSuffix.trans ?_ (List.suffix_cons word args)
    simp only [stripTransparentPrefix] at h
    split_ifs at h
    · exact stripExecArgs_suffix h
    · exact stripCommandArgs_suffix h
    · exact stripBuiltinArgs_suffix h

theorem peelTransparentLoop_suffix {n : ℕ} {words inner : List Str}
    (h : peelTransparentLoop n words = some inner) : inner <:+ words := by
  induction n generalizing words with
  | zero =>
    unfold peelTransparentLoop at h
    split at h
    · cases h
      exact List.suffix_rfl
    all_goals cases h
  | succ n ih =>
    unfold peelTransparentLoop at h
    split at h
    · cases h
      exact List.suffix_rfl
    · rename_i hpeel
      exact (ih h).trans (stripTransparentPrefix_suffix hpeel)
    · cases h

@[simp] theorem noteEnv_words (p : CheckedWrapperPeel) : p.noteEnv.words = p.words := by
  unfold CheckedWrapperPeel.noteEnv
  split <;> rfl

theorem unwrapWrappersLoop_suffix (n : ℕ) (p : CheckedWrapperPeel) :
    (unwrapWrappersLoop n p).words <:+ p.words := by
  induction n generalizing p with
  | zero => exact List.suffix_rfl
  | succ n ih =>
    unfold unwrapWrappersLoop
    split
    · rename_i hstrip
      exact (ih _).trans (stripWrapperCommand_suffix hstrip)
    · simp

theorem unwrapWrappersChecked_suffix (words : List Str) :
    (unwrapWrappersChecked words).words <:+ words :=
  unwrapWrappersLoop_suffix _ _

theorem normalizeRounds_suffix (n : ℕ) (p : NormalizedCommandPeel) :
    (normalizeRounds n p).words <:+ p.words := by
  induction n generalizing p with
  | zero => exact List.suffix_rfl
  | succ n ih =>
    have hq : p.unwrap.words <:+ p.words := unwrapWrappersChecked_suffix _
    unfold normalizeRounds
    dsimp only
    split_ifs
    · exact hq
    · split
      · exact hq
      · rename_i inner hpeel
        have hinner : inner <:+ p.words := (peelTransparentLoop_suffix hpeel).trans hq
        split_ifs
        · exact hinner
        · exact (ih _).trans hinner

theorem normalizeCommandWords_suffix (words : List Str) :
    (normalizeCommandWords words).words <:+ words := by
  have h := normalizeRounds_suffix maxNormalizeRounds { words := words }
  unfold normalizeCommandWords
  dsimp only
  split_ifs <;> exact h

/-- The source compares lengths to decide whether normalization changed anything. -/
theorem normalizeCommandWords_eq_of_length {words : List Str}
    (h : (normalizeCommandWords words).words.length = words.length) :
    (normalizeCommandWords words).words = words :=
  (normalizeCommandWords_suffix words).eq_of_length h

end GrokBuild.Permission
