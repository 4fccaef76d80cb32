import GrokBuild.Permission.CommandWords

/-!
# The options of the wrappers

Each wrapper's own grammar says which of its options take the next word as their value and what
stands between the options and the command. `strip_wrapper_command` follows it but for a few words,
which are given here for every wrapper.
-/

namespace GrokBuild.Permission
open Text

inductive Wrapper
  | timeout
  | nice
  | ionice
  | chrt
  | stdbuf
  | env
deriving DecidableEq

namespace Wrapper

def name : Wrapper → Str
  | timeout => "timeout".toList
  | nice => "nice".toList
  | ionice => "ionice".toList
  | chrt => "chrt".toList
  | stdbuf => "stdbuf".toList
  | env => "env".toList

def valueLetters : Wrapper → List Char
  | timeout => ['k', 's']
  | nice => ['n']
  | ionice => ['c', 'n', 'p', 'P', 'u']
  | chrt => ['T', 'P', 'D']
  | stdbuf => ['i', 'o', 'e']
  | env => ['u', 'C', 'a']

def valueLongs : Wrapper → List String
  | timeout => ["--kill-after", "--signal"]
  | nice => ["--adjustment"]
  | ionice => ["--class", "--classdata", "--pid", "--pgid", "--uid"]
  | chrt => ["--sched-runtime", "--sched-period", "--sched-deadline"]
  | stdbuf => ["--input", "--output", "--error"]
  | env => ["--unset", "--chdir", "--argv0"]

/-- The option takes the next word: a long one as such, a cluster when the first of its letters that
takes a value is its last. -/
def takesNext (w : Wrapper) (tok : Str) : Bool :=
  if startsWith tok "--".toList then w.valueLongs.any (·.toList == tok)
  else ((tok.drop 1).dropWhile fun c => !w.valueLetters.contains c).length == 1

def envFlags : List String :=
  ["--ignore-environment", "--null", "--debug", "--list-signal-handling", "--block-signal",
    "--default-signal", "--ignore-signal", "--version", "--help"]

def envValueFlags : List String :=
  ["--unset=", "--chdir=", "--argv0=", "--block-signal=", "--default-signal=", "--ignore-signal="]

/-- `env` refuses options it does not know, and an argv that packs its command with `-S` is left
out. -/
def acceptsOption (w : Wrapper) (tok : Str) : Bool :=
  match w with
  | env =>
    if startsWith tok "--".toList then
      env.takesNext tok || envFlags.any (·.toList == tok) || envValueFlags.any fun p => startsWith tok p.toList
    else ((tok.drop 1).takeWhile fun c => !env.valueLetters.contains c).all "i0v".toList.contains
  | _ => true

/-- The words behind the options. A bare `-` is an option of `env` alone, its last. -/
def behindOptions (w : Wrapper) : Bool → List Str → Option (List Str)
  | false, [] => some []
  | true, [] => none
  | true, _ :: rest => behindOptions w false rest
  | false, tok :: rest =>
    if tok = "--".toList then some rest
    else if tok = "-".toList then some (if w = env then rest else tok :: rest)
    else if !startsWith tok "-".toList then some (tok :: rest)
    else if !w.acceptsOption tok then none
    else behindOptions w (w.takesNext tok) rest

/-- What stands between the options and the command goes. -/
def dropOperands (w : Wrapper) (words : List Str) : List Str :=
  match w with
  | timeout | chrt => words.tail
  | env => words.dropWhile (·.contains '=')
  | nice | ionice | stdbuf => words

/-- The COMMAND part of an argv, given the words behind the wrapper. -/
def commandPart (w : Wrapper) (args : List Str) : Option (List Str) :=
  (w.behindOptions false args).bind fun words => nonEmpty (w.dropOperands words)

/-- The options that `strip_wrapper_command` knows to take the next word. -/
def knows : Wrapper → Str → Bool
  | timeout => timeoutTakesValue
  | nice => niceTakesValue
  | ionice => ioniceTakesValue
  | stdbuf => stdbufTakesValue
  | chrt | env => fun _ => false

/-- The words in front of the first that is read otherwise, for the wrappers apart from `env`: an
option whose value is not taken for one, a bare `-`, or a `--` in front of a word with a dash. -/
def misread (w : Wrapper) : Bool → List Str → Option ℕ
  | _, [] => none
  | true, _ :: rest => (misread w false rest).map (· + 1)
  | false, tok :: rest =>
    if tok = "--".toList then
      if rest.head?.any (startsWith · "-".toList) then some 0 else none
    else if tok = "-".toList then some 0
    else if !startsWith tok "-".toList then none
    else if w.takesNext tok && !w.knows tok then some 0
    else (misread w (w.takesNext tok) rest).map (· + 1)

/-- The same behind the options of `env`, where every word with a `=` is an assignment and the code
still looks for options. -/
def assignMisread : List Str → Option ℕ
  | [] => none
  | tok :: rest =>
    match classifyEnvToken tok with
    | .uncertain => none
    | .skip | .chdirGlued _ =>
      if tok.contains '=' then (assignMisread rest).map (· + 1) else some 0
    | .command => if tok.contains '=' then some 0 else none
    | _ => some 0

/-- The same for the options of `env`. An option that the code finds uncertain is flagged and not
misread. -/
def envMisread : Bool → List Str → Option ℕ
  | _, [] => none
  | true, _ :: rest => (envMisread false rest).map (· + 1)
  | false, tok :: rest =>
    if tok = "--".toList then
      if rest.head?.any (·.contains '=') then some 0 else none
    else if tok = "-".toList then (assignMisread rest).map (· + 1)
    else if !startsWith tok "-".toList then assignMisread (tok :: rest)
    else if !env.acceptsOption tok then none
    else
      match classifyEnvToken tok with
      | .uncertain => none
      | .operandNext _ => if env.takesNext tok then (envMisread true rest).map (· + 1) else some 0
      | .skip | .chdirGlued _ =>
        if env.takesNext tok then some 0 else (envMisread false rest).map (· + 1)
      | _ => some 0

def firstMisread (w : Wrapper) (args : List Str) : Option ℕ :=
  if w = env then envMisread false args else w.misread false args

end Wrapper

open Wrapper

/-! ## One option -/

theorem knows_takesNext {w : Wrapper} {tok : Str} (h : w.knows tok = true) : w.takesNext tok = true := by
  cases w with
  | timeout =>
    simp only [knows, timeoutTakesValue, List.any_cons, List.any_nil, Bool.or_false, Bool.or_eq_true,
      beq_iff_eq] at h
    obtain rfl | rfl | rfl | rfl := h <;> decide
  | nice =>
    simp only [knows, niceTakesValue, List.any_cons, List.any_nil, Bool.or_false, Bool.or_eq_true,
      beq_iff_eq] at h
    obtain rfl | rfl := h <;> decide
  | ionice =>
    simp only [knows, ioniceTakesValue, List.any_cons, List.any_nil, Bool.or_false, Bool.or_eq_true,
      beq_iff_eq] at h
    obtain rfl | rfl | rfl | rfl | rfl | rfl | rfl | rfl | rfl | rfl := h <;> decide
  | stdbuf =>
    simp only [knows, stdbufTakesValue, List.any_cons, List.any_nil, Bool.or_false, Bool.or_eq_true,
      beq_iff_eq] at h
    obtain rfl | rfl | rfl := h <;> decide
  | chrt => cases h
  | env => cases h

theorem knows_dashes (w : Wrapper) : w.knows "--".toList = false ∧ w.knows "-".toList = false := by
  cases w <;> decide

end GrokBuild.Permission
