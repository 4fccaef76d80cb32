import GrokBuild.Permission.CommandWords

namespace GrokBuild.Permission
open Text

inductive ShellWord
  | literal (word : Str)
  | untrusted
  deriving DecidableEq

inductive InlineShellScript
  | notInline
  | literal (index : ℕ)
  | untrusted
  | unrecognized
  deriving DecidableEq

def isSupportedShell (program : Str) : Bool :=
  ["bash", "sh", "dash", "zsh", "ksh"].any (·.toList == baseName program)

/-- The source's `ambiguous` closure: after `-c` the shape is a potential inline script. -/
def ambiguousOption (sawC : Bool) : InlineShellScript := if sawC then .untrusted else .unrecognized

def withoutScript (unrecognized : Bool) : InlineShellScript :=
  if unrecognized then .unrecognized else .notInline

def finishLiteral (dynamicHead : Bool) (index : ℕ) : InlineShellScript :=
  if dynamicHead then .untrusted else .literal index

/-- What one literal word is to the option scan of `shell_dash_c_script`. -/
inductive ShellOption
  | dashes
  | operand
  | fileOption
  | setOption
  | skip
  | unmodeledLong
  | ambiguous
  | flags (hasC : Bool)

def classifyShellOption (word : Str) : ShellOption :=
  if word == "--".toList || word == "-".toList then .dashes
  else if !startsWith word "-".toList && !startsWith word "+".toList then .operand
  else if word == "--init-file".toList || word == "--rcfile".toList then .fileOption
  else if startsWith word "--".toList then
    if ["--noprofile", "--norc", "--posix"].any (·.toList == word) then .skip else .unmodeledLong
  else if ["-o", "+o", "-O", "+O"].any (·.toList == word) then .setOption
  else if startsWith word "-O".toList && 2 < word.length then .skip
  else if (startsWith word "+O".toList || startsWith word "+o".toList) && 2 < word.length then .skip
  else if startsWith word "-o".toList && 2 < word.length then .ambiguous
  else if startsWith word "+".toList then .skip
  else
    let flags := word.drop 1
    if flags.contains 'o' || flags.contains 'O' then .ambiguous else .flags (flags.contains 'c')

/-- The option scan of `shell_dash_c_script` at word index `i`. -/
def dashCScan (dynamicHead : Bool) (i : ℕ) (sawC unrecognized : Bool) :
    List ShellWord → InlineShellScript
  | [] => if sawC then .untrusted else withoutScript unrecognized
  | .untrusted :: _ => ambiguousOption sawC
  | .literal word :: rest =>
    match classifyShellOption word with
    | .dashes =>
      if !sawC then withoutScript unrecognized
      else
        match rest with
        | .literal _ :: _ => finishLiteral dynamicHead (i + 1)
        | _ => .untrusted
    | .operand => if sawC then finishLiteral dynamicHead i else withoutScript unrecognized
    | .fileOption =>
      match rest with
      | .literal _ :: rest => dashCScan dynamicHead (i + 2) sawC unrecognized rest
      | _ => ambiguousOption sawC
    | .setOption =>
      match rest with
      | .literal value :: rest =>
        if startsWith value "-".toList then ambiguousOption sawC
        else dashCScan dynamicHead (i + 2) sawC unrecognized rest
      | _ => ambiguousOption sawC
    | .skip => dashCScan dynamicHead (i + 1) sawC unrecognized rest
    | .unmodeledLong =>
      -- keep scanning, so that a later `-c` still counts
      if sawC then .untrusted else dashCScan dynamicHead (i + 1) sawC true rest
    | .ambiguous => ambiguousOption sawC
    | .flags hasC => dashCScan dynamicHead (i + 1) (sawC || hasC) unrecognized rest

def shellDashCScript : List ShellWord → InlineShellScript
  | [] => .notInline
  | .literal program :: rest =>
    if isSupportedShell program then dashCScan false 1 false false rest else .notInline
  | .untrusted :: rest => dashCScan true 1 false false rest

theorem finishLiteral_eq_literal {dynamicHead : Bool} {i k : ℕ}
    (h : finishLiteral dynamicHead i = .literal k) : k = i := by
  cases dynamicHead <;> simp_all [finishLiteral]

theorem ambiguousOption_ne_literal (sawC : Bool) (k : ℕ) : ambiguousOption sawC ≠ .literal k := by
  cases sawC <;> simp [ambiguousOption]

theorem withoutScript_ne_literal (unrecognized : Bool) (k : ℕ) :
    withoutScript unrecognized ≠ .literal k := by
  cases unrecognized <;> simp [withoutScript]

/-- Word `k` of an argv whose words from index `i` on are `words` is a literal one. -/
def LiteralAt (i k : ℕ) (words : List ShellWord) : Prop :=
  ∃ j word, k = i + j ∧ words[j]? = some (.literal word)

theorem literalAt_head (i : ℕ) (word : Str) (rest : List ShellWord) :
    LiteralAt i i (.literal word :: rest) :=
  ⟨0, word, rfl, rfl⟩

theorem LiteralAt.cons {i k : ℕ} {rest : List ShellWord} (h : LiteralAt (i + 1) k rest)
    (w : ShellWord) : LiteralAt i k (w :: rest) := by
  obtain ⟨j, word, rfl, hj⟩ := h
  exact ⟨j + 1, word, by omega, by simpa using hj⟩

/-- The index of a literal script is a literal word of the argv. -/
theorem dashCScan_literal {dynamicHead sawC unrecognized : Bool} {i k : ℕ} {words : List ShellWord}
    (h : dashCScan dynamicHead i sawC unrecognized words = .literal k) : LiteralAt i k words := by
  fun_induction dashCScan dynamicHead i sawC unrecognized words <;>
    grind [finishLiteral_eq_literal, ambiguousOption_ne_literal, withoutScript_ne_literal,
      literalAt_head, LiteralAt.cons]

theorem shellDashCScript_literal {words : List ShellWord} {k : ℕ}
    (h : shellDashCScript words = .literal k) : ∃ word, words[k]? = some (.literal word) := by
  have hk : LiteralAt 0 k words := by
    fun_cases shellDashCScript words <;> grind [shellDashCScript, dashCScan_literal, LiteralAt.cons]
  obtain ⟨j, word, rfl, hj⟩ := hk
  exact ⟨word, by simpa using hj⟩

end GrokBuild.Permission
