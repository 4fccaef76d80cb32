import GrokBuild.Permission.WrapperGrammar

/-!
# Peeling against the grammars

Where no word is misread, the words that `strip_wrapper_command` leaves are the COMMAND part of the
wrapper's grammar; behind a misread word some argv is peeled to something else. For nested wrappers
the innermost command is found.
-/

namespace GrokBuild.Permission
open Text Wrapper

/-! ## The wrappers apart from `env` -/

theorem skipOptions_cons (takesValue : Str → Bool) (tok : Str) (rest : List Str) :
    skipOptions takesValue (tok :: rest) =
      if startsWith tok "-".toList then
        skipOptions takesValue (if takesValue tok then rest.tail else rest)
      else tok :: rest := by
  rw [skipOptions.eq_def]
  cases rest with
  | nil =>
    simp only [List.tail_nil, ite_self]
    split
    · split
      · rw [skipOptions.eq_def]
      · rfl
    · rfl
  | cons v rest =>
    simp only [List.tail_cons]
    split
    · split
      · rfl
      · rfl
    · rfl

theorem skipOptions_of_head {takesValue : Str → Bool} {words : List Str}
    (h : words.head?.any (startsWith · "-".toList) = false) : skipOptions takesValue words = words := by
  cases words with
  | nil => rw [skipOptions.eq_def]
  | cons tok rest =>
    rw [skipOptions_cons, if_neg]
    exact Bool.eq_false_iff.mp h

section Simple

variable {w : Wrapper}

theorem acceptsOption_of_ne (hw : w ≠ env) (tok : Str) : w.acceptsOption tok = true := by
  cases w with
  | env => exact absurd rfl hw
  | timeout | nice | ionice | chrt | stdbuf => rfl

theorem knows_eq_takesNext {tok : Str} (h : ¬ (w.takesNext tok && !w.knows tok) = true) :
    w.knows tok = w.takesNext tok := by
  cases hnext : w.takesNext tok with
  | true => simpa [hnext] using h
  | false =>
    by_contra hk
    rw [knows_takesNext (Bool.eq_true_of_not_eq_false hk)] at hnext
    cases hnext

theorem behindOptions_cons (hw : w ≠ env) (tok : Str) (rest : List Str) :
    w.behindOptions false (tok :: rest) =
      if tok = "--".toList then some rest
      else if tok = "-".toList then some (tok :: rest)
      else if startsWith tok "-".toList then w.behindOptions (w.takesNext tok) rest
      else some (tok :: rest) := by
  rw [behindOptions]
  simp only [acceptsOption_of_ne hw, if_neg hw, Bool.not_true, Bool.false_eq_true, if_false]
  cases startsWith tok "-".toList with
  | true => rfl
  | false => rfl

/-- Without a misread word the options end where the code's skipping ends. -/
theorem skipOptions_eq_behindOptions (hw : w ≠ env) {skip : Bool} {args words : List Str}
    (hread : w.misread skip args = none) (h : w.behindOptions skip args = some words) :
    skipOptions w.knows (if skip then args.tail else args) = words := by
  induction args generalizing skip with
  | nil =>
    cases skip with
    | true => cases h
    | false =>
      cases h
      rw [skipOptions.eq_def]
      rfl
  | cons tok rest ih =>
    cases skip with
    | true =>
      rw [misread, Option.map_eq_none_iff] at hread
      exact ih hread h
    | false =>
      rw [behindOptions_cons hw] at h
      rw [misread] at hread
      simp only [Bool.false_eq_true, if_false]
      rw [skipOptions_cons]
      split at h
      · rename_i htok
        rw [if_pos htok] at hread
        cases h
        have hhead : words.head?.any (startsWith · "-".toList) = false := by
          by_contra hhead
          rw [if_pos (Bool.eq_true_of_not_eq_false hhead)] at hread
          cases hread
        rw [htok, if_pos (by decide), (knows_dashes w).1, if_neg Bool.false_ne_true]
        exact skipOptions_of_head hhead
      rename_i htok
      rw [if_neg htok] at hread
      split at h
      · rename_i hdash
        rw [if_pos hdash] at hread
        cases hread
      rename_i hdash
      rw [if_neg hdash] at hread
      split at h
      · rename_i hstart
        rw [hstart, Bool.not_true, if_neg Bool.false_ne_true] at hread
        rw [if_pos hstart]
        split at hread
        · cases hread
        · rename_i hknown
          rw [Option.map_eq_none_iff] at hread
          rw [knows_eq_takesNext hknown]
          exact ih hread h
      · rename_i hstart
        rw [if_neg hstart]
        exact Option.some_inj.mp h

/-- Both scans come to the misread word whatever follows it. -/
theorem scan_to_misread (hw : w ≠ env) {skip : Bool} {args : List Str} {k : ℕ}
    (hread : w.misread skip args = some k) :
    (∀ tail, skipOptions w.knows (if skip then (args.take (k + 1) ++ tail).tail else args.take (k + 1) ++ tail) =
        skipOptions w.knows tail) ∧
      ((∀ tail, w.behindOptions skip (args.take (k + 1) ++ tail) = some tail) ∨
        (∀ tail, w.behindOptions skip (args.take (k + 1) ++ tail) = some ("-".toList :: tail)) ∨
        ∀ tail, w.behindOptions skip (args.take (k + 1) ++ tail) = w.behindOptions true tail) := by
  induction args generalizing skip k with
  | nil => cases skip <;> cases hread
  | cons tok rest ih =>
    cases skip with
    | true =>
      rw [misread, Option.map_eq_some_iff] at hread
      obtain ⟨j, hj, rfl⟩ := hread
      exact ih hj
    | false =>
      rw [misread] at hread
      simp only [Bool.false_eq_true, if_false]
      split at hread
      · rename_i htok
        split at hread
        · cases hread
          constructor
          · intro tail
            rw [List.take_succ_cons, List.take_zero, List.cons_append, skipOptions_cons, htok,
              if_pos (by decide), (knows_dashes w).1]
            rfl
          · left
            intro tail
            rw [List.take_succ_cons, List.take_zero, List.cons_append, behindOptions_cons hw, if_pos htok]
            rfl
        · cases hread
      rename_i htok
      split at hread
      · rename_i hdash
        cases hread
        constructor
        · intro tail
          rw [List.take_succ_cons, List.take_zero, List.cons_append, skipOptions_cons, hdash,
            if_pos (by decide), (knows_dashes w).2]
          rfl
        · right
          left
          intro tail
          rw [List.take_succ_cons, List.take_zero, List.cons_append, behindOptions_cons hw, if_neg htok,
            if_pos hdash, hdash]
          rfl
      rename_i hdash
      split at hread
      · cases hread
      rename_i hstart
      have hstart' : startsWith tok "-".toList = true := by simpa using hstart
      split at hread
      · rename_i hunknown
        rw [Bool.and_eq_true, Bool.not_eq_true'] at hunknown
        cases hread
        constructor
        · intro tail
          rw [List.take_succ_cons, List.take_zero, List.cons_append, skipOptions_cons, if_pos hstart',
            hunknown.2]
          rfl
        · right
          right
          intro tail
          rw [List.take_succ_cons, List.take_zero, List.cons_append, behindOptions_cons hw, if_neg htok,
            if_neg hdash, if_pos hstart', hunknown.1]
          rfl
      · rename_i hknown
        obtain ⟨j, hj, rfl⟩ := Option.map_eq_some_iff.mp hread
        have hsame : w.knows tok = w.takesNext tok := knows_eq_takesNext hknown
        obtain ⟨hskip, hbehind⟩ := ih hj
        have hfront (tail : List Str) : (tok :: rest).take (j + 1 + 1) ++ tail =
            tok :: (rest.take (j + 1) ++ tail) := rfl
        have hstep (tail : List Str) : w.behindOptions false ((tok :: rest).take (j + 1 + 1) ++ tail) =
            w.behindOptions (w.takesNext tok) (rest.take (j + 1) ++ tail) := by
          rw [hfront, behindOptions_cons hw, if_neg htok, if_neg hdash, if_pos hstart']
        simp only [hstep]
        refine ⟨fun tail => ?_, hbehind⟩
        rw [hfront, skipOptions_cons, if_pos hstart', hsame]
        exact hskip tail

theorem stripWrapperCommand_simple (hw : w ≠ env) {head : Str} (hhead : baseName head = w.name)
    (args : List Str) :
    stripWrapperCommand (head :: args) = nonEmpty (w.dropOperands (skipOptions w.knows args)) := by
  have hname : headName (head :: args) = some w.name := congrArg some hhead
  simp only [stripWrapperCommand, hname]
  cases w with
  | env => exact absurd rfl hw
  | timeout => rfl
  | nice => rfl
  | ionice => rfl
  | chrt => rfl
  | stdbuf => rfl

/-- Behind a misread word some argv is peeled to another command. -/
theorem exists_misread_simple (hw : w ≠ env) {head : Str} (hhead : baseName head = w.name)
    {args : List Str} {k : ℕ} (hread : w.misread false args = some k) :
    ∃ tail command, w.commandPart (args.take (k + 1) ++ tail) = some command ∧
      stripWrapperCommand (head :: (args.take (k + 1) ++ tail)) ≠ some command := by
  obtain ⟨hskip, hbehind⟩ := scan_to_misread hw hread
  simp only [Bool.false_eq_true, if_false] at hskip
  obtain hbehind | hbehind | hbehind := hbehind
  · -- a command or operand that starts with a dash is skipped
    refine ⟨["-x".toList, "c".toList], (w.dropOperands ["-x".toList, "c".toList]), ?_, ?_⟩
    · rw [commandPart, hbehind]
      cases w <;> rfl
    · rw [stripWrapperCommand_simple hw hhead, hskip]
      cases w with
      | env => exact absurd rfl hw
      | timeout | nice | ionice | chrt | stdbuf => decide
  · refine ⟨["c".toList], (w.dropOperands ["-".toList, "c".toList]), ?_, ?_⟩
    · rw [commandPart, hbehind]
      cases w <;> rfl
    · rw [stripWrapperCommand_simple hw hhead, hskip]
      cases w with
      | env => exact absurd rfl hw
      | timeout | nice | ionice | chrt | stdbuf => decide
  · -- the value is taken for the command or its operand
    refine ⟨["x".toList, "y".toList, "c".toList], (w.dropOperands ["y".toList, "c".toList]), ?_, ?_⟩
    · rw [commandPart, hbehind]
      cases w <;> rfl
    · rw [stripWrapperCommand_simple hw hhead, hskip]
      cases w with
      | env => exact absurd rfl hw
      | timeout | nice | ionice | chrt | stdbuf => decide

end Simple

/-! ## `env` -/

inductive EnvOutcome
  | command (words : List Str)
  | splitString
  | uncertain

/-- Where the scan of `env`'s options ends. -/
def envOutcome : Bool → List Str → EnvOutcome
  | false, [] => .command []
  | true, [] => .uncertain
  | true, _ :: rest => envOutcome false rest
  | false, tok :: rest =>
    match classifyEnvToken tok with
    | .endOfOptions => .command rest
    | .command => .command (tok :: rest)
    | .skip | .chdirGlued _ => envOutcome false rest
    | .operandNext _ => envOutcome true rest
    | .splitStringNext | .splitStringGlued _ | .splitStringDetect => .splitString
    | .uncertain => .uncertain

/-- What the scan records of an outcome. -/
def EnvOutcome.Recorded (cmd : List Str) (scan : EnvScan) : EnvOutcome → Prop
  | .command words => scan.hasSplitString = false ∧ scan.optionsUncertain = false ∧
      cmd.drop scan.commandStart = words
  | .splitString => scan.hasSplitString = true ∧ scan.optionsUncertain = false
  | .uncertain => scan.optionsUncertain = true

theorem drop_succ_of_drop {cmd rest : List Str} {tok : Str} {i : ℕ} (h : cmd.drop i = tok :: rest) :
    cmd.drop (i + 1) = rest := by
  rw [← List.drop_drop, h, List.drop_one, List.tail_cons]

theorem envOutcome_recorded (cmd : List Str) {i : ℕ} {args : List Str} (h : cmd.drop i = args)
    (chdir : Option Str) :
    (envOutcome false args).Recorded cmd (envScanFrom chdir i args) := by
  fun_induction envScanFrom chdir i args with
  | case1 chdir i => exact ⟨rfl, rfl, h⟩
  | case2 chdir i tok rest hclass =>
    rw [envOutcome, hclass]
    exact ⟨rfl, rfl, drop_succ_of_drop h⟩
  | case3 chdir i tok rest hclass =>
    rw [envOutcome, hclass]
    exact ⟨rfl, rfl, h⟩
  | case4 chdir i tok rest hclass ih =>
    rw [envOutcome, hclass]
    exact ih (drop_succ_of_drop h)
  | case5 chdir i tok isChdir hclass =>
    rw [envOutcome, hclass]
    exact rfl
  | case6 chdir i tok isChdir hclass operand rest ih =>
    rw [envOutcome, hclass]
    exact ih (drop_succ_of_drop (drop_succ_of_drop h))
  | case7 chdir i tok rest dir hclass ih =>
    rw [envOutcome, hclass]
    exact ih (drop_succ_of_drop h)
  | case8 chdir i tok rest hclass =>
    rw [envOutcome, hclass]
    exact ⟨rfl, rfl⟩
  | case9 chdir i tok rest payload hclass =>
    rw [envOutcome, hclass]
    exact ⟨rfl, rfl⟩
  | case10 chdir i tok rest hclass =>
    rw [envOutcome, hclass]
    exact ⟨rfl, rfl⟩
  | case11 chdir i tok rest hclass =>
    rw [envOutcome, hclass]
    exact rfl

theorem stripWrapperCommand_env {head : Str} (hhead : baseName head = env.name) (args : List Str) :
    stripWrapperCommand (head :: args) =
        (match envOutcome false args with
        | .command words => nonEmpty words
        | .splitString | .uncertain => none) ∧
      ((envScan (head :: args)).optionsUncertain = true ↔ envOutcome false args = .uncertain) := by
  have hrecorded : (envOutcome false args).Recorded (head :: args) (envScanFrom none 1 args) :=
    envOutcome_recorded (head :: args) rfl none
  have hname : headName (head :: args) = some env.name := congrArg some hhead
  have hscan : envScan (head :: args) = envScanFrom none 1 args := rfl
  have hstrip : stripWrapperCommand (head :: args) =
      if (envScanFrom none 1 args).hasSplitString || (envScanFrom none 1 args).optionsUncertain then none
      else nonEmpty ((head :: args).drop (envScanFrom none 1 args).commandStart) := by
    simp only [stripWrapperCommand, hname]
    rfl
  rw [hstrip, hscan]
  cases houtcome : envOutcome false args with
  | command words =>
    rw [houtcome] at hrecorded
    obtain ⟨hsplit, huncertain, hwords⟩ := hrecorded
    simp [hsplit, huncertain, hwords]
  | splitString =>
    rw [houtcome] at hrecorded
    obtain ⟨hsplit, huncertain⟩ := hrecorded
    simp [hsplit, huncertain]
  | uncertain =>
    rw [houtcome] at hrecorded
    have huncertain : (envScanFrom none 1 args).optionsUncertain = true := hrecorded
    simp [huncertain]

theorem dropAssignments_cons (tok : Str) (rest : List Str) : env.dropOperands (tok :: rest) =
    if tok.contains '=' then env.dropOperands rest else tok :: rest := by
  rw [dropOperands, List.dropWhile_cons]
  rfl

/-- Behind the options the scan ends at the command, or in front of it when it is uncertain. -/
theorem envOutcome_of_assignMisread {words : List Str} (h : assignMisread words = none) :
    envOutcome false words = .command (env.dropOperands words) ∨ envOutcome false words = .uncertain := by
  induction words with
  | nil => exact Or.inl rfl
  | cons tok rest ih =>
    rw [assignMisread] at h
    rw [envOutcome, dropAssignments_cons]
    cases hclass : classifyEnvToken tok with
    | uncertain => exact Or.inr rfl
    | skip | chdirGlued =>
      simp only [hclass] at h
      split at h
      · rename_i hassign
        rw [if_pos hassign]
        exact ih (Option.map_eq_none_iff.mp h)
      · cases h
    | command =>
      simp only [hclass] at h
      split at h
      · cases h
      · rename_i hassign
        rw [if_neg hassign]
        exact Or.inl rfl
    | endOfOptions | operandNext | splitStringNext | splitStringGlued | splitStringDetect =>
      simp only [hclass] at h
      cases h

theorem classifyEnvLong_ne (tok : Str) : classifyEnvLong tok ≠ .endOfOptions := by
  unfold classifyEnvLong
  split_ifs
  · exact EnvToken.noConfusion
  · exact EnvToken.noConfusion
  · exact EnvToken.noConfusion
  · exact EnvToken.noConfusion
  · exact EnvToken.noConfusion
  · exact EnvToken.noConfusion
  · split
    · exact EnvToken.noConfusion
    · exact EnvToken.noConfusion

theorem eq_of_endOfOptions {tok : Str} (h : classifyEnvToken tok = .endOfOptions) :
    tok = "--".toList := by
  unfold classifyEnvToken at h
  split_ifs at h with hmarker
  · exact beq_iff_eq.mp hmarker
  · exact absurd h (classifyEnvLong_ne tok)
  · split at h
    · cases h
    · cases h
    · cases h
    · cases h
    · cases h
    · split at h
      · cases h
      · cases h
    · cases h

theorem exists_assignMisread {words : List Str} {k : ℕ} (h : assignMisread words = some k) :
    ∃ tail, env.dropOperands (words.take (k + 1) ++ tail) ≠ [] ∧
      envOutcome false (words.take (k + 1) ++ tail) ≠
        .command (env.dropOperands (words.take (k + 1) ++ tail)) ∧
      envOutcome false (words.take (k + 1) ++ tail) ≠ .uncertain := by
  induction words generalizing k with
  | nil => cases h
  | cons tok rest ih =>
    rw [assignMisread] at h
    have hdrop : env.dropOperands [['x'], ['c']] = [['x'], ['c']] := by decide
    have hnext : envOutcome false [['x'], ['c']] = .command [['x'], ['c']] := rfl
    have hskip : envOutcome true [['x'], ['c']] = .command [['c']] := rfl
    have hone : (tok :: rest).take (0 + 1) ++ [['x'], ['c']] = [tok, ['x'], ['c']] :=
      rfl
    cases hclass : classifyEnvToken tok with
    | uncertain =>
      simp only [hclass] at h
      cases h
    | skip | chdirGlued =>
      simp only [hclass] at h
      split at h
      · rename_i hassign
        obtain ⟨j, hj, rfl⟩ := Option.map_eq_some_iff.mp h
        obtain ⟨tail, hne, hcommand, huncertain⟩ := ih hj
        refine ⟨tail, ?_⟩
        rw [List.take_succ_cons, List.cons_append, dropAssignments_cons, if_pos hassign, envOutcome,
          hclass]
        exact ⟨hne, hcommand, huncertain⟩
      · rename_i hassign
        cases h
        refine ⟨[['x'], ['c']], ?_⟩
        rw [hone, dropAssignments_cons, if_neg hassign, envOutcome, hclass]
        simp only [hnext]
        simp
    | command =>
      simp only [hclass] at h
      split at h
      · rename_i hassign
        cases h
        refine ⟨[['x'], ['c']], ?_⟩
        rw [hone, dropAssignments_cons, if_pos hassign, hdrop, envOutcome, hclass]
        simp
      · cases h
    | endOfOptions =>
      simp only [hclass, Option.some.injEq] at h
      subst h
      refine ⟨[['x'], ['c']], ?_⟩
      have htok := eq_of_endOfOptions hclass
      have hassign : ¬ tok.contains '=' = true := by
        rw [htok]
        decide
      rw [hone, dropAssignments_cons, if_neg hassign, envOutcome, hclass]
      simp
    | operandNext =>
      simp only [hclass, Option.some.injEq] at h
      subst h
      refine ⟨[['x'], ['c']], ?_⟩
      rw [hone, dropAssignments_cons, hdrop, envOutcome, hclass]
      simp only [hskip]
      split
      · simp
      · simp
    | splitStringNext | splitStringGlued | splitStringDetect =>
      simp only [hclass, Option.some.injEq] at h
      subst h
      refine ⟨[['x'], ['c']], ?_⟩
      rw [hone, dropAssignments_cons, hdrop, envOutcome, hclass]
      split
      · simp
      · simp

theorem behindOptions_env (tok : Str) (rest : List Str) : env.behindOptions false (tok :: rest) =
    if tok = "--".toList then some rest
    else if tok = "-".toList then some rest
    else if !startsWith tok "-".toList then some (tok :: rest)
    else if !env.acceptsOption tok then none
    else env.behindOptions (env.takesNext tok) rest := by
  rw [behindOptions]
  simp only [if_true]

theorem dropAssignments_of_head {words : List Str} (h : ¬ words.head?.any (·.contains '=') = true) :
    env.dropOperands words = words := by
  cases words with
  | nil => rfl
  | cons tok rest =>
    rw [dropAssignments_cons, if_neg]
    exact h

/-- Without a misread word the scan of `env` ends at the command, or is uncertain. -/
theorem envOutcome_of_envMisread {skip : Bool} {args words : List Str}
    (hread : envMisread skip args = none) (h : env.behindOptions skip args = some words) :
    envOutcome skip args = .command (env.dropOperands words) ∨ envOutcome skip args = .uncertain := by
  induction args generalizing skip with
  | nil =>
    cases skip with
    | true => cases h
    | false =>
      cases h
      exact Or.inl rfl
  | cons tok rest ih =>
    cases skip with
    | true => exact ih (Option.map_eq_none_iff.mp hread) h
    | false =>
      rw [behindOptions_env] at h
      rw [envMisread] at hread
      split at h
      · rename_i htok
        rw [if_pos htok] at hread
        cases h
        have hhead : ¬ words.head?.any (·.contains '=') = true := by
          intro hhead
          rw [if_pos hhead] at hread
          cases hread
        left
        rw [htok, dropAssignments_of_head hhead]
        rfl
      rename_i htok
      rw [if_neg htok] at hread
      split at h
      · rename_i hdash
        rw [if_pos hdash] at hread
        cases h
        rw [hdash]
        exact envOutcome_of_assignMisread (Option.map_eq_none_iff.mp hread)
      rename_i hdash
      rw [if_neg hdash] at hread
      split at h
      · rename_i hstart
        rw [if_pos hstart] at hread
        cases h
        exact envOutcome_of_assignMisread hread
      rename_i hstart
      rw [if_neg hstart] at hread
      split at h
      · cases h
      rename_i haccepts
      rw [if_neg haccepts] at hread
      rw [envOutcome]
      cases hclass : classifyEnvToken tok with
      | uncertain => exact Or.inr rfl
      | operandNext isChdir =>
        simp only [hclass] at hread
        split at hread
        · rename_i hnext
          rw [hnext] at h
          exact ih (Option.map_eq_none_iff.mp hread) h
        · cases hread
      | skip | chdirGlued =>
        simp only [hclass] at hread
        split at hread
        · cases hread
        · rename_i hnext
          rw [Bool.eq_false_iff.mpr hnext] at h
          exact ih (Option.map_eq_none_iff.mp hread) h
      | endOfOptions | command | splitStringNext | splitStringGlued | splitStringDetect =>
        simp only [hclass] at hread
        cases hread

theorem exists_envMisread {skip : Bool} {args : List Str} {k : ℕ} (h : envMisread skip args = some k) :
    ∃ tail words, env.behindOptions skip (args.take (k + 1) ++ tail) = some words ∧
      env.dropOperands words ≠ [] ∧
      envOutcome skip (args.take (k + 1) ++ tail) ≠ .command (env.dropOperands words) ∧
      envOutcome skip (args.take (k + 1) ++ tail) ≠ .uncertain := by
  induction args generalizing skip k with
  | nil => cases skip <;> cases h
  | cons tok rest ih =>
    have hone (tail : List Str) : (tok :: rest).take (0 + 1) ++ tail = tok :: tail := rfl
    have hdrop : env.dropOperands [['x'], ['c']] = [['x'], ['c']] := by decide
    have hdrop' : env.dropOperands [['c']] = [['c']] := by decide
    have hplain : envOutcome false [['x'], ['c']] = .command [['x'], ['c']] := rfl
    have hskip : envOutcome true [['x'], ['c']] = .command [['c']] := rfl
    cases skip with
    | true =>
      obtain ⟨j, hj, rfl⟩ := Option.map_eq_some_iff.mp h
      exact ih hj
    | false =>
      rw [envMisread] at h
      split at h
      · rename_i htok
        split at h
        · cases h
          refine ⟨[['='], ['c']], [['='], ['c']], ?_, by decide, ?_, ?_⟩
          · rw [hone, behindOptions_env, if_pos htok]
          · rw [hone, htok]
            have hout : envOutcome false ["--".toList, ['='], ['c']] = .command [['='], ['c']] := rfl
            rw [hout]
            intro hcommand
            exact absurd (EnvOutcome.command.inj hcommand) (by decide)
          · rw [hone, htok]
            exact EnvOutcome.noConfusion
        · cases h
      rename_i htok
      split at h
      · rename_i hdash
        obtain ⟨j, hj, rfl⟩ := Option.map_eq_some_iff.mp h
        obtain ⟨tail, hne, hcommand, huncertain⟩ := exists_assignMisread hj
        refine ⟨tail, rest.take (j + 1) ++ tail, ?_, hne, ?_, ?_⟩
        · rw [List.take_succ_cons, List.cons_append, behindOptions_env, if_neg htok, if_pos hdash]
        · rw [hdash]
          exact hcommand
        · rw [hdash]
          exact huncertain
      rename_i hdash
      split at h
      · rename_i hstart
        obtain ⟨tail, hne, hcommand, huncertain⟩ := exists_assignMisread h
        refine ⟨tail, (tok :: rest).take (k + 1) ++ tail, ?_, hne, hcommand, huncertain⟩
        rw [List.take_succ_cons, List.cons_append, behindOptions_env, if_neg htok, if_neg hdash,
          if_pos hstart]
      rename_i hstart
      split at h
      · cases h
      rename_i haccepts
      have hbehind (words : List Str) : env.behindOptions false (tok :: words) =
          env.behindOptions (env.takesNext tok) words := by
        rw [behindOptions_env, if_neg htok, if_neg hdash, if_neg hstart, if_neg haccepts]
      have hwords : ∃ words, env.behindOptions (env.takesNext tok) [['x'], ['c']] = some words ∧
          env.dropOperands words ≠ [] ∧ (env.dropOperands words).length ≤ 2 := by
        cases env.takesNext tok with
        | true => exact ⟨[['c']], rfl, by decide, by decide⟩
        | false => exact ⟨[['x'], ['c']], rfl, by decide, by decide⟩
      cases hclass : classifyEnvToken tok with
      | uncertain =>
        simp only [hclass] at h
        cases h
      | operandNext isChdir =>
        simp only [hclass] at h
        split at h
        · rename_i hnext
          obtain ⟨j, hj, rfl⟩ := Option.map_eq_some_iff.mp h
          obtain ⟨tail, words, hwords, hrest⟩ := ih hj
          refine ⟨tail, words, ?_, ?_⟩
          · rw [List.take_succ_cons, List.cons_append, hbehind, hnext]
            exact hwords
          · rw [List.take_succ_cons, List.cons_append, envOutcome, hclass]
            exact hrest
        · rename_i hnext
          cases h
          refine ⟨[['x'], ['c']], [['x'], ['c']], ?_, by decide, ?_, ?_⟩
          · rw [hone, hbehind, Bool.eq_false_iff.mpr hnext]
            rfl
          · rw [hone, envOutcome, hclass]
            simp only [hskip, hdrop]
            simp
          · rw [hone, envOutcome, hclass]
            simp only [hskip]
            simp
      | skip | chdirGlued =>
        simp only [hclass] at h
        split at h
        · rename_i hnext
          cases h
          refine ⟨[['x'], ['c']], [['c']], ?_, by decide, ?_, ?_⟩
          · rw [hone, hbehind, hnext]
            rfl
          · rw [hone, envOutcome, hclass]
            simp only [hplain, hdrop']
            simp
          · rw [hone, envOutcome, hclass]
            simp only [hplain]
            simp
        · rename_i hnext
          obtain ⟨j, hj, rfl⟩ := Option.map_eq_some_iff.mp h
          obtain ⟨tail, words, hwords, hrest⟩ := ih hj
          refine ⟨tail, words, ?_, ?_⟩
          · rw [List.take_succ_cons, List.cons_append, hbehind, Bool.eq_false_iff.mpr hnext]
            exact hwords
          · rw [List.take_succ_cons, List.cons_append, envOutcome, hclass]
            exact hrest
      | endOfOptions => exact absurd (eq_of_endOfOptions hclass) htok
      | command =>
        simp only [hclass, Option.some.injEq] at h
        subst h
        obtain ⟨words, hwords, hne, hlen⟩ := hwords
        refine ⟨[['x'], ['c']], words, ?_, hne, ?_, ?_⟩
        · rw [hone, hbehind]
          exact hwords
        · rw [hone, envOutcome, hclass]
          intro hcommand
          rw [← EnvOutcome.command.inj hcommand] at hlen
          simp at hlen
        · rw [hone, envOutcome, hclass]
          exact EnvOutcome.noConfusion
      | splitStringNext | splitStringGlued | splitStringDetect =>
        simp only [hclass, Option.some.injEq] at h
        subst h
        obtain ⟨words, hwords, hne, hlen⟩ := hwords
        refine ⟨[['x'], ['c']], words, ?_, hne, ?_, ?_⟩
        · rw [hone, hbehind]
          exact hwords
        · rw [hone, envOutcome, hclass]
          exact EnvOutcome.noConfusion
        · rw [hone, envOutcome, hclass]
          exact EnvOutcome.noConfusion

/-! ## The wrappers and their nestings -/

/-- When the grammar accepts the argv with a command, the command is what is left of it, or it is
left alone with the options flagged as uncertain. -/
def PeelsToCommand (w : Wrapper) (head : Str) (args : List Str) : Prop :=
  ∀ command, w.commandPart args = some command →
    stripWrapperCommand (head :: args) = some command ∨
      w = env ∧ stripWrapperCommand (head :: args) = none ∧
        (envScan (head :: args)).optionsUncertain = true

/-- The argvs with the words that are read up to the first that is misread. -/
def SameOptions (w : Wrapper) (args args' : List Str) : Prop :=
  match w.firstMisread args with
  | none => args' = args
  | some k => ∃ tail, args' = args.take (k + 1) ++ tail

/-- Wrappers around a command, none of whose words is misread. -/
inductive WrappedCommand : ℕ → List Str → List Str → Prop
  | inner {words : List Str} (h : isWrapperCommand words = false) : WrappedCommand 0 words words
  | wrap {n : ℕ} {head : Str} {args command inner : List Str} (w : Wrapper)
      (hhead : baseName head = w.name) (hpart : w.commandPart args = some command)
      (hread : w.firstMisread args = none) (h : WrappedCommand n command inner) :
      WrappedCommand (n + 1) (head :: args) inner

theorem nonEmpty_of_ne_nil {words : List Str} (h : words ≠ []) : nonEmpty words = some words := by
  rw [nonEmpty, if_neg (by simpa using h)]

theorem peels_of_firstMisread {w : Wrapper} {head : Str} (hhead : baseName head = w.name)
    {args : List Str} (hread : w.firstMisread args = none) : PeelsToCommand w head args := by
  intro command hcommand
  obtain ⟨words, hwords, hcommand⟩ := Option.bind_eq_some_iff.mp hcommand
  obtain ⟨rfl, hne⟩ := nonEmpty_eq_some hcommand
  unfold firstMisread at hread
  split at hread
  · rename_i hw
    subst hw
    obtain ⟨hstrip, huncertain⟩ := stripWrapperCommand_env hhead args
    obtain hout | hout := envOutcome_of_envMisread hread hwords
    · left
      rw [hstrip, hout]
      exact hcommand
    · right
      exact ⟨rfl, by rw [hstrip, hout], huncertain.mpr hout⟩
  · rename_i hw
    left
    have hskip : skipOptions w.knows args = words := skipOptions_eq_behindOptions hw hread hwords
    rw [stripWrapperCommand_simple hw hhead, hskip]
    exact hcommand

theorem exists_not_peels {w : Wrapper} {head : Str} (hhead : baseName head = w.name)
    {args : List Str} {k : ℕ} (hread : w.firstMisread args = some k) :
    ∃ tail, ¬ PeelsToCommand w head (args.take (k + 1) ++ tail) := by
  unfold firstMisread at hread
  split at hread
  · rename_i hw
    subst hw
    obtain ⟨tail, words, hwords, hne, hcommand, huncertain⟩ := exists_envMisread hread
    refine ⟨tail, fun h => ?_⟩
    obtain ⟨hstrip, hflag⟩ := stripWrapperCommand_env hhead (args.take (k + 1) ++ tail)
    have hpart : env.commandPart (args.take (k + 1) ++ tail) = some (env.dropOperands words) := by
      rw [commandPart, hwords]
      exact nonEmpty_of_ne_nil hne
    obtain hsome | ⟨-, -, hunc⟩ := h _ hpart
    · rw [hstrip] at hsome
      cases hout : envOutcome false (args.take (k + 1) ++ tail) with
      | command words' =>
        simp only [hout] at hsome
        rw [hout, ← (nonEmpty_eq_some hsome).1] at hcommand
        exact hcommand rfl
      | splitString | uncertain =>
        simp only [hout] at hsome
        cases hsome
    · exact huncertain (hflag.mp hunc)
  · rename_i hw
    obtain ⟨tail, command, hpart, hstrip⟩ := exists_misread_simple hw hhead hread
    refine ⟨tail, fun h => ?_⟩
    obtain hsome | ⟨henv, -⟩ := h command hpart
    · exact hstrip hsome
    · exact hw henv

theorem isWrapperCommand_of_strip {words inner : List Str}
    (h : stripWrapperCommand words = some inner) : isWrapperCommand words = true := by
  unfold stripWrapperCommand at h
  unfold isWrapperCommand
  cases hhead : headName words with
  | none =>
    simp only [hhead] at h
    cases h
  | some head =>
    simp only [hhead] at h
    split_ifs at h with h1 h2 h3 h4 h5 h6
    · rw [h1]
      rfl
    · rw [h2]
      rfl
    · rw [h3]
      rfl
    · rw [h4]
      rfl
    · rw [h5]
      rfl
    · rw [h6]
      rfl

theorem stripWrapperCommand_inner {words : List Str} (h : isWrapperCommand words = false) :
    stripWrapperCommand words = none := by
  by_contra hne
  obtain ⟨inner, hinner⟩ := Option.ne_none_iff_exists'.mp hne
  rw [isWrapperCommand_of_strip hinner] at h
  cases h

/-- Within the budget the peel comes to the innermost command or is flagged on the way. -/
theorem unwrapWrappersLoop_wrapped {n m : ℕ} {words inner : List Str} (h : WrappedCommand n words inner)
    (hnm : n ≤ m) (p : CheckedWrapperPeel) (hp : p.words = words) :
    (unwrapWrappersLoop m p).words = inner ∨ (unwrapWrappersLoop m p).envOptionsUncertain = true := by
  induction h generalizing m p with
  | inner hnot =>
    left
    cases m with
    | zero => exact hp
    | succ m =>
      rw [unwrapWrappersLoop, hp, stripWrapperCommand_inner hnot]
      exact (noteEnv_words p).trans hp
  | @wrap n head args command inner w hhead hpart hread hinner ih =>
    obtain ⟨m, rfl⟩ := Nat.exists_eq_add_of_lt hnm
    have hm : n + m + 1 = n + 1 + m := by omega
    rw [unwrapWrappersLoop, hp]
    obtain hstrip | ⟨rfl, hstrip, huncertain⟩ := peels_of_firstMisread hhead hread command hpart
    · rw [hstrip]
      exact ih (by omega) _ rfl
    · right
      rw [hstrip]
      have hname : headName p.words = some "env".toList := by
        rw [hp]
        exact congrArg some hhead
      rw [CheckedWrapperPeel.noteEnv, if_pos hname]
      simp only [hp, huncertain, Bool.or_true]

/-- The command of every argv that shares the words read up to the first misread one is peeled out
exactly when there is no such word; and within the budget nested wrappers are peeled to the
innermost command or flagged. -/
theorem stripWrapperCommand_peels_iff (w : Wrapper) (head : Str) (args : List Str)
    (hhead : baseName head = w.name) :
    ((∀ args', SameOptions w args args' → PeelsToCommand w head args') ↔
        w.firstMisread args = none) ∧
      ∀ (n : ℕ) (words inner : List Str), n ≤ maxWrapperDepth → WrappedCommand n words inner →
        (unwrapWrappersChecked words).words = inner ∨
          (unwrapWrappersChecked words).envOptionsUncertain = true := by
  refine ⟨?_, fun n words inner hn h => ?_⟩
  · unfold SameOptions
    constructor
    · intro h
      by_contra hne
      obtain ⟨k, hk⟩ := Option.ne_none_iff_exists'.mp hne
      obtain ⟨tail, htail⟩ := exists_not_peels hhead hk
      rw [hk] at h
      exact htail (h _ ⟨tail, rfl⟩)
    · intro hread args' hsame
      rw [hread] at hsame
      rw [hsame]
      exact peels_of_firstMisread hhead hread
  · exact unwrapWrappersLoop_wrapped h hn _ rfl

/-- `timeout -k 5 10 nice ls`, with a value in a word of its own. -/
theorem timeout_nice_peeled :
    (unwrapWrappersChecked ["timeout".toList, "-k".toList, "5".toList, "10".toList, "nice".toList,
        "ls".toList]).words = ["ls".toList] ∨
      (unwrapWrappersChecked ["timeout".toList, "-k".toList, "5".toList, "10".toList, "nice".toList,
        "ls".toList]).envOptionsUncertain = true :=
  (stripWrapperCommand_peels_iff timeout "timeout".toList [] (by decide)).2 2 _ _ (by decide)
    (.wrap timeout (by decide) (by decide : timeout.commandPart _ = some ["nice".toList, "ls".toList])
      (by decide) (.wrap nice (by decide) (by decide : nice.commandPart _ = some ["ls".toList])
        (by decide) (.inner (by decide))))

/-- `chrt -T 1000 -d 0 ls` runs `ls`, and is peeled to `-d 0 ls`. -/
theorem chrt_runtime_misread :
    ¬ ∀ (w : Wrapper) (head : Str) (args : List Str), baseName head = w.name →
      PeelsToCommand w head args := by
  intro h
  have hpeels := h chrt "chrt".toList ["-T".toList, "1000".toList, "-d".toList, "0".toList, "ls".toList]
    (by decide) ["ls".toList] (by decide)
  obtain hstrip | ⟨henv, -⟩ := hpeels
  · revert hstrip
    decide
  · cases henv

end GrokBuild.Permission
