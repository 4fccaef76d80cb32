import GrokBuild.Permission.GitWalk

/-!
# When the walks agree

Each walk reads a dash word as an option even where git takes it for the value of the option before.
Only a value `--` is mistaken for the end of the options, and only then an option that matters is
passed over.
-/

namespace GrokBuild.Permission.ExecRisk

open Text

variable {tok next path cwd cwd' : Str} {rest after : List Str} {g : GlobalOption}

/-! ## Words -/

theorem isDash_of_endsOptions (h : endsOptions tok = false) : isDash tok = true := by
  rw [endsOptions, Bool.or_eq_false_iff, Bool.or_eq_false_iff, Bool.not_eq_false'] at h
  exact h.2.1

theorem startsWith_trans {s p q : Str} (h : startsWith s p = true) (hq : startsWith p q = true) :
    startsWith s q = true := by
  rw [startsWith, List.isPrefixOf_iff_prefix] at *
  exact hq.trans h

theorem isDash_of_startsWith {p : Str} (h : startsWith tok p = true) (hp : isDash p = true) :
    isDash tok = true :=
  startsWith_trans h hp

theorem isDash_flagOf (h : isDash (flagOf tok) = true) : isDash tok = true := by
  rw [isDash, startsWith, List.isPrefixOf_iff_prefix] at *
  exact h.trans (List.takeWhile_prefix _)

theorem isDash_of_accepted {flag full : Str} {minLen : ℕ}
    (h : isAcceptedLongOptionPrefix flag full minLen = true) : isDash flag = true := by
  simp only [isAcceptedLongOptionPrefix, Bool.and_eq_true] at h
  exact isDash_of_startsWith h.1.1.1 (by decide)

theorem isDash_of_execRisk (h : isExecRiskOption tok = true) : isDash tok = true := by
  simp only [isExecRiskOption, isAttachedGitConfigC, isGitConfigEnvFlag, isGitRepoRetargetFlag,
    Bool.or_eq_true, Bool.and_eq_true, beq_iff_eq] at h
  obtain ((rfl | ⟨⟨hc, -⟩, -⟩) | ((rfl | henv) | henv)) | ((((rfl | hdir) | rfl) | htree) |
    (hdir | htree)) := h
  · decide
  · exact isDash_of_startsWith hc (by decide)
  · decide
  · exact isDash_of_startsWith henv (by decide)
  · exact isDash_flagOf (isDash_of_accepted henv)
  · decide
  · exact isDash_of_startsWith hdir (by decide)
  · decide
  · exact isDash_of_startsWith htree (by decide)
  · exact isDash_flagOf (isDash_of_accepted hdir)
  · exact isDash_flagOf (isDash_of_accepted htree)

theorem attachedGitCPath_eq_some (h : attachedGitCPath tok = some path) :
    tok = "-C".toList ++ path ∧ path ≠ [] := by
  rw [attachedGitCPath, Option.filter_eq_some_iff] at h
  obtain ⟨hstrip, hpath⟩ := h
  rw [decide_eq_true_iff] at hpath
  unfold stripPrefix at hstrip
  split_ifs at hstrip with hstart
  rw [startsWith, List.isPrefixOf_iff_prefix] at hstart
  obtain ⟨tail, rfl⟩ := hstart
  rw [List.drop_left] at hstrip
  rw [Option.some.inj hstrip]
  exact ⟨rfl, hpath.1⟩

/-- No option with a separate value has one written to it. -/
theorem attached_of_takesValue (h : gitGlobalOptionTakesValue tok = true) :
    attachedGitCPath tok = none := by
  cases hpath : attachedGitCPath tok with
  | none => rfl
  | some path =>
    obtain ⟨rfl, hne⟩ := attachedGitCPath_eq_some hpath
    obtain ⟨c, path, rfl⟩ := List.exists_cons_of_ne_nil hne
    simp [gitGlobalOptionTakesValue, valueOptions, valuePrefixes, isAcceptedLongOptionPrefix,
      startsWith] at h

theorem contains_of_takesValue (h : gitGlobalOptionTakesValue tok = true) :
    tok.contains '=' = false := by
  rw [gitGlobalOptionTakesValue, Bool.or_eq_true, List.any_eq_true, List.any_eq_true] at h
  obtain ⟨option, hoption, htok⟩ | ⟨⟨full, n⟩, -, haccepted⟩ := h
  · rw [beq_iff_eq] at htok
    subst htok
    have hall : valueOptions.all (fun option => !option.toList.contains '=') = true := by decide
    have hthis := List.all_eq_true.mp hall option hoption
    rwa [Bool.not_eq_true'] at hthis
  · simp only [isAcceptedLongOptionPrefix, Bool.and_eq_true] at haccepted
    by_contra hcontains
    rw [Bool.not_eq_false, List.contains_iff_mem] at hcontains
    exact absurd (List.all_eq_true.mp haccepted.2 '=' hcontains) (by decide)

theorem skipsNext_of_takesValue (h : gitGlobalOptionTakesValue tok = true) :
    skipsNext tok next = (!isDash next || next == "-".toList) := by
  rw [skipsNext, contains_of_takesValue h, h]
  rfl

theorem skipsNext_of_not (h : gitGlobalOptionTakesValue tok = false) :
    skipsNext tok next = false := by
  rw [skipsNext, h, Bool.and_false, Bool.false_and]

theorem isStatic_not_dash (h : isStaticPathOperand path = true) :
    isDash path = false := by
  simp only [isStaticPathOperand, Bool.and_eq_true, Bool.not_eq_true'] at h
  exact h.1.1.1.2

/-! ## One word of a walk -/

/-- The word is an option, and no risk; a walk may go on. -/
structure Passes (tok : Str) : Prop where
  goesOn : endsOptions tok = false
  harmless : isExecRiskOption tok = false

theorem Passes.retarget (h : Passes tok) : isGitRepoRetargetFlag tok = false := by
  have hrisk := h.harmless
  rw [isExecRiskOption, Bool.or_eq_false_iff] at hrisk
  exact hrisk.2

theorem passes_C : Passes "-C".toList := ⟨by decide, by decide⟩

/-- The next word is not skipped. -/
def Separate (tok : Str) (rest : List Str) : Prop := ∀ next ∈ rest.head?, skipsNext tok next = false

theorem execRiskGlobal_step (h : Passes tok) (hnext : Separate tok rest) :
    execRiskGlobal (tok :: rest) = execRiskGlobal rest := by
  rw [execRiskGlobal.eq_def]
  simp only [h.goesOn, h.harmless, Bool.false_eq_true, if_false]
  cases rest with
  | nil => simp only [execRiskGlobal, ite_self]
  | cons next after =>
    simp only [hnext next rfl, Bool.false_eq_true, if_false, ite_self]

theorem execRiskGlobal_skip (h : Passes tok) (hattached : attachedGitCPath tok = none)
    (hskip : skipsNext tok next = true) :
    execRiskGlobal (tok :: next :: after) = execRiskGlobal after := by
  rw [execRiskGlobal, h.goesOn, h.harmless, hattached]
  simp only [Bool.false_eq_true, if_false, Option.isSome_none, hskip, if_true]

theorem effectiveCwd_C (path : Str) (after : List Str) (cwd : Str) :
    effectiveCwd ("-C".toList :: path :: after) cwd =
      if isStaticPathOperand path then effectiveCwd after (joinCwd cwd path) else none := by
  rw [effectiveCwd, (passes_C).goesOn, (passes_C).retarget]
  simp only [Bool.false_eq_true, if_false, if_true]

theorem effectiveCwd_attached (h : Passes tok) (hC : tok ≠ "-C".toList)
    (hattached : attachedGitCPath tok = some path) (rest : List Str) (cwd : Str) :
    effectiveCwd (tok :: rest) cwd =
      if isStaticPathOperand path then effectiveCwd rest (joinCwd cwd path) else none := by
  rw [effectiveCwd.eq_def]
  simp only [h.goesOn, h.retarget, if_neg hC, Bool.false_eq_true, if_false, hattached]

theorem effectiveCwd_step (h : Passes tok) (hC : tok ≠ "-C".toList)
    (hattached : attachedGitCPath tok = none) (hnext : Separate tok rest) (cwd : Str) :
    effectiveCwd (tok :: rest) cwd = effectiveCwd rest cwd := by
  rw [effectiveCwd.eq_def]
  simp only [h.goesOn, h.retarget, if_neg hC, Bool.false_eq_true, if_false, hattached]
  cases rest with
  | nil => rfl
  | cons next after => simp only [hnext next rfl, Bool.false_eq_true, if_false]

theorem effectiveCwd_skip (h : Passes tok) (hC : tok ≠ "-C".toList)
    (hattached : attachedGitCPath tok = none) (hskip : skipsNext tok next = true) (cwd : Str) :
    effectiveCwd (tok :: next :: after) cwd = effectiveCwd after cwd := by
  rw [effectiveCwd, h.goesOn, h.retarget, if_neg hC]
  simp only [Bool.false_eq_true, if_false, hattached, hskip, if_true]

/-- Whether a directory is known does not depend on where git starts. -/
theorem effectiveCwd_none (h : effectiveCwd rest cwd = none) (cwd' : Str) :
    effectiveCwd rest cwd' = none := by
  fun_induction effectiveCwd rest cwd generalizing cwd' with
  | case1 => cases h
  | case2 => cases h
  | case3 cwd tok rest hends hretarget =>
    rw [effectiveCwd.eq_def]
    simp only [if_neg hends, if_pos hretarget]
  | case4 cwd hends hretarget => rfl
  | case5 cwd path after hstatic _ _ ih =>
    rw [effectiveCwd_C, if_pos hstatic]
    exact ih h _
  | case6 cwd path after hstatic => rw [effectiveCwd_C, if_neg hstatic]
  | case7 cwd tok rest hends hretarget hC path hattached hstatic ih =>
    rw [effectiveCwd.eq_def]
    simp only [if_neg hends, if_neg hretarget, if_neg hC, hattached, hstatic, if_true]
    exact ih h _
  | case8 cwd tok rest hends hretarget hC path hattached hstatic =>
    rw [effectiveCwd.eq_def]
    simp only [if_neg hends, if_neg hretarget, if_neg hC, hattached, if_neg hstatic]
  | case9 => cases h
  | case10 tok cwd hends hretarget hC hattached next after hskip ih =>
    rw [effectiveCwd, if_neg hends, if_neg hretarget, if_neg hC]
    simp only [hattached, hskip, if_true]
    exact ih h _
  | case11 tok cwd hends hretarget hC hattached next after hskip ih =>
    rw [effectiveCwd, if_neg hends, if_neg hretarget, if_neg hC]
    simp only [hattached, if_neg hskip]
    exact ih h _

/-! ## Finding an option that matters -/

/-- The scan answers: it finds a risk, or the directory is not known. -/
def Answers (rest : List Str) : Prop :=
  execRiskGlobal rest = true ∨ ∀ cwd, effectiveCwd rest cwd = none

/-- Both walks go on at `after`, where `-C` may have changed the directory. -/
theorem answers_iff_of {move : Str → Str} (hrisk : execRiskGlobal rest = execRiskGlobal after)
    (hcwd : ∀ cwd, effectiveCwd rest cwd = effectiveCwd after (move cwd)) :
    Answers rest ↔ Answers after := by
  rw [Answers, Answers, hrisk]
  refine or_congr_right ⟨fun h cwd => ?_, fun h cwd => ?_⟩
  · have hmoved := h cwd
    rw [hcwd] at hmoved
    exact effectiveCwd_none hmoved cwd
  · rw [hcwd]
    exact h _

/-- A path that is written to `-C` and is not static. -/
def BadPath (tok : Str) : Prop :=
  ∃ path, attachedGitCPath tok = some path ∧ isStaticPathOperand path = false

theorem answers_option (h : Passes tok) (hC : tok ≠ "-C".toList) (hnext : Separate tok rest) :
    Answers (tok :: rest) ↔ BadPath tok ∨ Answers rest := by
  have hrisk := execRiskGlobal_step h hnext
  cases hattached : attachedGitCPath tok with
  | none =>
    have hgood : ¬ BadPath tok := by
      rintro ⟨path, hpath, -⟩
      rw [hattached] at hpath
      cases hpath
    rw [or_iff_right hgood]
    exact @answers_iff_of _ _ id hrisk fun cwd => effectiveCwd_step h hC hattached hnext cwd
  | some path =>
    have hcwd := effectiveCwd_attached h hC hattached rest
    cases hstatic : isStaticPathOperand path with
    | false =>
      rw [or_iff_left_of_imp fun _ => ⟨path, hattached, hstatic⟩]
      refine ⟨fun _ => ⟨path, hattached, hstatic⟩, fun _ => .inr fun cwd => ?_⟩
      rw [hcwd, hstatic]
      rfl
    | true =>
      have hgood : ¬ BadPath tok := by
        rintro ⟨path', hpath', hstatic'⟩
        rw [hattached, Option.some.injEq] at hpath'
        rw [← hpath', hstatic] at hstatic'
        cases hstatic'
      rw [or_iff_right hgood]
      refine @answers_iff_of _ _ (joinCwd · path) hrisk fun cwd => ?_
      rw [hcwd, hstatic, if_pos rfl]

theorem answers_skip (h : Passes tok) (hC : tok ≠ "-C".toList)
    (hvalue : gitGlobalOptionTakesValue tok = true) (hskip : skipsNext tok next = true) :
    Answers (tok :: next :: after) ↔ Answers after := by
  have hattached := attached_of_takesValue hvalue
  exact @answers_iff_of _ _ id (execRiskGlobal_skip h hattached hskip)
    fun cwd => effectiveCwd_skip h hC hattached hskip cwd

theorem skipsNext_static (hvalue : gitGlobalOptionTakesValue tok = true)
    (hstatic : isStaticPathOperand path = true) : skipsNext tok path = true := by
  rw [skipsNext_of_takesValue hvalue, isStatic_not_dash hstatic]
  rfl

theorem answers_C (path : Str) (after : List Str) :
    Answers ("-C".toList :: path :: after) ↔
      isStaticPathOperand path = false ∨ Answers after := by
  cases hstatic : isStaticPathOperand path with
  | false =>
    refine ⟨fun _ => .inl rfl, fun _ => .inr fun cwd => ?_⟩
    rw [effectiveCwd_C, hstatic]
    rfl
  | true =>
    rw [or_iff_right (by decide)]
    have hskip : skipsNext "-C".toList path = true := skipsNext_static (by decide) hstatic
    refine @answers_iff_of _ _ (joinCwd · path) (execRiskGlobal_skip passes_C (by decide) hskip)
      fun cwd => ?_
    rw [effectiveCwd_C, hstatic, if_pos rfl]

/-! ## What hides an option -/

/-- A word that the walks pass: no risk, no `-C`, and no path that is not static. -/
structure Harmless (tok : Str) : Prop where
  noRisk : isExecRiskOption tok = false
  noC : tok ≠ "-C".toList
  noBadPath : ¬ BadPath tok

/-- An option that the walks pass with its value, be the value read as an option or not. -/
def GlobalOption.Harmless (g : GlobalOption) : Prop :=
  if g.option = "-C".toList then ∃ path, g.value = some path ∧ isStaticPathOperand path = true
  else ExecRisk.Harmless g.option ∧ ∀ value ∈ g.value, ExecRisk.Harmless value

/-- The value `--` ends the walks. -/
structure GlobalOption.Stops (g : GlobalOption) : Prop where
  notC : g.option ≠ "-C".toList
  noRisk : isExecRiskOption g.option = false
  value : g.value = some "--".toList

def HasRisk (options : List GlobalOption) : Prop := ∃ g ∈ options, isExecRiskOption g.option = true

/-- Behind harmless options a value ends the walks, and an option that matters comes later. -/
def HiddenRisk (options : List GlobalOption) : Prop :=
  ∃ before g behind, options = before ++ g :: behind ∧ (∀ e ∈ before, e.Harmless) ∧ g.Stops ∧
    HasRisk behind

theorem hiddenRisk_cons (g : GlobalOption) (options : List GlobalOption) :
    HiddenRisk (g :: options) ↔
      (g.Stops ∧ HasRisk options) ∨ (g.Harmless ∧ HiddenRisk options) := by
  constructor
  · rintro ⟨before, stop, behind, hsplit, hbefore, hstop, hrisk⟩
    cases before with
    | nil =>
      obtain ⟨rfl, rfl⟩ := List.cons.inj hsplit
      exact .inl ⟨hstop, hrisk⟩
    | cons first before =>
      obtain ⟨rfl, rfl⟩ := List.cons.inj hsplit
      rw [List.forall_mem_cons] at hbefore
      exact .inr ⟨hbefore.1, before, stop, behind, rfl, hbefore.2, hstop, hrisk⟩
  · rintro (⟨hstop, hrisk⟩ | ⟨hharmless, before, stop, behind, rfl, hbefore, hstop, hrisk⟩)
    · exact ⟨[], g, options, rfl, nofun, hstop, hrisk⟩
    · exact ⟨g :: before, stop, behind, rfl, List.forall_mem_cons.mpr ⟨hharmless, hbefore⟩, hstop,
        hrisk⟩

/-- A word that is no dash word is no option and has no path written to it. -/
theorem harmless_of_not_dash (h : isDash tok = false ∨ tok = "-".toList) : Harmless tok where
  noRisk := by
    by_contra hrisk
    rw [Bool.not_eq_false] at hrisk
    obtain h | rfl := h
    · rw [isDash_of_execRisk hrisk] at h
      cases h
    · exact absurd hrisk (by decide)
  noC := by
    rintro rfl
    obtain h | h := h
    · exact absurd h (by decide)
    · exact absurd h (by decide)
  noBadPath := by
    rintro ⟨path, hpath, -⟩
    obtain ⟨rfl, -⟩ := attachedGitCPath_eq_some hpath
    obtain h | h := h
    · have hstart : startsWith ("-C".toList ++ path) "-C".toList = true :=
        List.isPrefixOf_iff_prefix.mpr (List.prefix_append _ path)
      rw [isDash_of_startsWith hstart (by decide)] at h
      cases h
    · exact absurd (List.cons.inj h).2 (List.cons_ne_nil _ _)

/-- Before an option that matters stands a word that is an option. -/
theorem head_of_hasRisk (h : HasRisk (globals rest).1) :
    ∃ tok tail, rest = tok :: tail ∧ endsOptions tok = false := by
  cases rest with
  | nil =>
    obtain ⟨g, hg, -⟩ := h
    cases hg
  | cons tok tail =>
    refine ⟨tok, tail, rfl, ?_⟩
    by_contra hends
    rw [Bool.not_eq_false] at hends
    rw [globals.eq_def] at h
    simp only [hends, if_true] at h
    obtain ⟨g, hg, -⟩ := h
    cases hg

theorem separate_of_hasRisk (tok : Str) (h : HasRisk (globals rest).1) : Separate tok rest := by
  obtain ⟨next, tail, rfl, hends⟩ := head_of_hasRisk h
  rintro _ ⟨⟩
  have hdash := isDash_of_endsOptions hends
  rw [endsOptions, Bool.or_eq_false_iff, Bool.or_eq_false_iff] at hends
  rw [skipsNext, hdash, hends.2.2]
  simp only [Bool.not_true, Bool.or_false, Bool.and_false]

/-- A dash word in front of the rest is read as an option of its own. -/
theorem answers_dash (hgoesOn : endsOptions tok = false) (h : HasRisk (globals rest).1) :
    Answers (tok :: rest) ↔ ¬ Harmless tok ∨ Answers rest := by
  cases hrisk : isExecRiskOption tok with
  | true =>
    have hbad : ¬ Harmless tok := fun hharmless => by
      rw [hharmless.noRisk] at hrisk
      cases hrisk
    refine ⟨fun _ => .inl hbad, fun _ => .inl ?_⟩
    rw [execRiskGlobal.eq_def]
    simp only [hgoesOn, hrisk, Bool.false_eq_true, if_false, if_true]
  | false =>
    by_cases hC : tok = "-C".toList
    · -- the first word of the rest is taken for the path, and it is a dash word
      have hbad : ¬ Harmless tok := fun hharmless => hharmless.noC hC
      refine ⟨fun _ => .inl hbad, fun _ => ?_⟩
      obtain ⟨next, tail, rfl, hends⟩ := head_of_hasRisk h
      rw [hC, answers_C]
      left
      by_contra hstatic
      rw [Bool.not_eq_false] at hstatic
      have hdash := isDash_of_endsOptions hends
      rw [isStatic_not_dash hstatic] at hdash
      cases hdash
    · rw [answers_option ⟨hgoesOn, hrisk⟩ hC (separate_of_hasRisk tok h)]
      refine or_congr_left ⟨fun hbad hharmless => hharmless.noBadPath hbad, fun hbad => ?_⟩
      by_contra hgood
      exact hbad ⟨hrisk, hC, hgood⟩

theorem hasRisk_cons (g : GlobalOption) (options : List GlobalOption) :
    HasRisk (g :: options) ↔ isExecRiskOption g.option = true ∨ HasRisk options := by
  rw [HasRisk, HasRisk, List.exists_mem_cons_iff]

theorem answers_of_risk (hgoesOn : endsOptions tok = false) (hrisk : isExecRiskOption tok = true) :
    Answers (tok :: rest) := by
  left
  rw [execRiskGlobal.eq_def]
  simp only [hgoesOn, hrisk, Bool.false_eq_true, if_false, if_true]

theorem not_hidden_of_risk (hrisk : isExecRiskOption g.option = true)
    (options : List GlobalOption) : ¬ HiddenRisk (g :: options) := by
  rw [hiddenRisk_cons]
  rintro (⟨hstop, -⟩ | ⟨hharmless, -⟩)
  · rw [hstop.noRisk] at hrisk
    cases hrisk
  · unfold GlobalOption.Harmless at hharmless
    split_ifs at hharmless with hC
    · rw [hC] at hrisk
      exact absurd hrisk (by decide)
    · rw [hharmless.1.noRisk] at hrisk
      cases hrisk

/-- The value `--` ends both walks. -/
theorem not_answers_stop (h : Passes tok) (hC : tok ≠ "-C".toList)
    (hvalue : gitGlobalOptionTakesValue tok = true) (after : List Str) :
    ¬ Answers (tok :: "--".toList :: after) := by
  have hnext : Separate tok ("--".toList :: after) := by
    rintro _ ⟨⟩
    rw [skipsNext_of_takesValue hvalue]
    decide
  rintro (hrisk | hcwd)
  · rw [execRiskGlobal_step h hnext, execRiskGlobal.eq_def] at hrisk
    cases hrisk
  · have hstart := hcwd []
    rw [effectiveCwd_step h hC (attached_of_takesValue hvalue) hnext, effectiveCwd.eq_def] at hstart
    cases hstart

/-- The words of an option with its value, where the value is no `--`. -/
theorem answers_value {value : Str} (h : Passes tok) (hC : tok ≠ "-C".toList)
    (hvalue : gitGlobalOptionTakesValue tok = true) (hstop : value ≠ "--".toList)
    (hafter : HasRisk (globals after).1) :
    Answers (tok :: value :: after) ↔ ¬ Harmless value ∨ Answers after := by
  cases hskip : skipsNext tok value with
  | true =>
    have hharmless : Harmless value := by
      rw [skipsNext_of_takesValue hvalue, Bool.or_eq_true, Bool.not_eq_true', beq_iff_eq] at hskip
      exact harmless_of_not_dash hskip
    rw [answers_skip h hC hvalue hskip, or_iff_right (not_not.mpr hharmless)]
  | false =>
    have hgoesOn : endsOptions value = false := by
      rw [skipsNext_of_takesValue hvalue] at hskip
      rw [endsOptions, hskip, Bool.or_false]
      exact beq_false_of_ne hstop
    have hnext : Separate tok (value :: after) := by
      rintro _ ⟨⟩
      exact hskip
    have hgood : ¬ BadPath tok := by
      rintro ⟨path, hpath, -⟩
      rw [attached_of_takesValue hvalue] at hpath
      cases hpath
    rw [answers_option h hC hnext, or_iff_right hgood, answers_dash hgoesOn hafter]

/-- The walks find an option that matters unless it is hidden. -/
theorem answers_iff (rest : List Str) (h : HasRisk (globals rest).1) :
    Answers rest ↔ ¬ HiddenRisk (globals rest).1 := by
  fun_induction globals rest with
  | case1 =>
    obtain ⟨g, hg, -⟩ := h
    cases hg
  | case2 tok rest hends =>
    obtain ⟨g, hg, -⟩ := h
    cases hg
  | case3 tok hends hvalue =>
    obtain ⟨g, hg, hrisk⟩ := h
    rw [List.mem_singleton.mp hg] at hrisk
    rw [Bool.not_eq_true] at hends
    exact iff_of_true (answers_of_risk hends hrisk) (not_hidden_of_risk hrisk [])
  | case4 tok hends hvalue value after options left hglobals ih =>
    rw [Bool.not_eq_true] at hends
    rw [hasRisk_cons] at h
    cases hrisk : isExecRiskOption tok with
    | true => exact iff_of_true (answers_of_risk hends hrisk) (not_hidden_of_risk hrisk options)
    | false =>
      rw [hrisk] at h
      have hbehind : HasRisk options := h.resolve_left Bool.false_ne_true
      have hafter : HasRisk (globals after).1 := by
        rw [hglobals]
        exact hbehind
      have hrest : Answers after ↔ ¬ HiddenRisk options := by
        rw [ih hafter, hglobals]
      have hpasses : Passes tok := ⟨hends, hrisk⟩
      rw [hiddenRisk_cons]
      by_cases hC : tok = "-C".toList
      · have hstops : ¬ GlobalOption.Stops ⟨tok, some value⟩ := fun hstop => hstop.notC hC
        have hharmless : GlobalOption.Harmless ⟨tok, some value⟩ ↔
            isStaticPathOperand value = true := by
          rw [GlobalOption.Harmless, if_pos hC]
          exact ⟨by rintro ⟨path, ⟨⟩, hstatic⟩; exact hstatic, fun hstatic => ⟨value, rfl, hstatic⟩⟩
        rw [hharmless, or_iff_right fun hstop => hstops hstop.1, not_and_or, Bool.not_eq_true, hC,
          answers_C, hrest]
      · have hharmless : GlobalOption.Harmless ⟨tok, some value⟩ ↔ Harmless value := by
          have hgood : ¬ BadPath tok := by
            rintro ⟨path, hpath, -⟩
            rw [attached_of_takesValue hvalue] at hpath
            cases hpath
          rw [GlobalOption.Harmless, if_neg hC]
          exact ⟨fun hall => hall.2 value rfl,
            fun hvalue => ⟨⟨hrisk, hC, hgood⟩, by rintro _ ⟨⟩; exact hvalue⟩⟩
        by_cases hstop : value = "--".toList
        · subst hstop
          have hstops : GlobalOption.Stops ⟨tok, some "--".toList⟩ := ⟨hC, hrisk, rfl⟩
          exact iff_of_false (not_answers_stop hpasses hC hvalue after)
            (not_not.mpr (.inl ⟨hstops, hbehind⟩))
        · have hstops : ¬ GlobalOption.Stops ⟨tok, some value⟩ :=
            fun hstops => hstop (Option.some.inj hstops.value)
          rw [or_iff_right fun hstop => hstops hstop.1, hharmless, not_and_or,
            answers_value hpasses hC hvalue hstop hafter, hrest]
  | case5 tok rest hends hvalue options left hglobals ih =>
    rw [Bool.not_eq_true] at hends hvalue
    rw [hasRisk_cons] at h
    cases hrisk : isExecRiskOption tok with
    | true => exact iff_of_true (answers_of_risk hends hrisk) (not_hidden_of_risk hrisk options)
    | false =>
      rw [hrisk] at h
      have hafter : HasRisk (globals rest).1 := by
        rw [hglobals]
        exact h.resolve_left Bool.false_ne_true
      have hC : tok ≠ "-C".toList := by
        rintro rfl
        exact absurd hvalue (by decide)
      have hstops : ¬ GlobalOption.Stops ⟨tok, none⟩ := fun hstops => nomatch hstops.value
      have hharmless : GlobalOption.Harmless ⟨tok, none⟩ ↔ Harmless tok := by
        rw [GlobalOption.Harmless, if_neg hC]
        exact ⟨fun hall => hall.1, fun htok => ⟨htok, nofun⟩⟩
      rw [hiddenRisk_cons, or_iff_right fun hstop => hstops hstop.1, hharmless, not_and_or,
        answers_dash hends hafter, ih hafter, hglobals]

/-! ## The verb -/

/-- What the walk to the verb passes. -/
def GlobalOption.Benign (g : GlobalOption) : Prop :=
  g.option = "-C".toList ∨ (attachedGitCPath g.option).isSome = true ∨
    g.option = "--no-pager".toList ∨ g.option = "-P".toList

theorem not_dash_of_verb {verb : Str} (hends : endsOptions verb = true)
    (hverb : verb ≠ "-".toList ∧ verb ≠ "--".toList) : isDash verb = false := by
  rw [endsOptions, Bool.or_eq_true, Bool.or_eq_true, beq_iff_eq, beq_iff_eq,
    Bool.not_eq_true'] at hends
  obtain h | h | h := hends
  · exact absurd h hverb.2
  · exact h
  · exact absurd h hverb.1

/-- The words up to the subcommand, and that it is no option. -/
theorem globals_split (rest : List Str) : ∃ front, rest = front ++ (globals rest).2 ∧
    ∀ verb ∈ (globals rest).2.head?, endsOptions verb = true := by
  fun_induction globals rest with
  | case1 => exact ⟨[], rfl, nofun⟩
  | case2 tok rest hends => exact ⟨[], rfl, by rintro _ ⟨⟩; exact hends⟩
  | case3 tok hends hvalue => exact ⟨[tok], rfl, nofun⟩
  | case4 tok hends hvalue value after options left hglobals ih =>
    rw [hglobals] at ih
    obtain ⟨front, hfront, hverb⟩ := ih
    exact ⟨tok :: value :: front, congrArg (tok :: value :: ·) hfront, hverb⟩
  | case5 tok rest hends hvalue options left hglobals ih =>
    rw [hglobals] at ih
    obtain ⟨front, hfront, hverb⟩ := ih
    exact ⟨tok :: front, congrArg (tok :: ·) hfront, hverb⟩

theorem verbIndex_option (hends : endsOptions tok = false) (rest : List Str) (i : ℕ) :
    verbIndex (tok :: rest) i =
      if tok = "-C".toList then verbIndex (rest.drop 1) (i + 2)
      else if (attachedGitCPath tok).isSome ∨ tok = "--no-pager".toList ∨ tok = "-P".toList then
        verbIndex rest (i + 1)
      else none := by
  have hdash := isDash_of_endsOptions hends
  have hbare : ¬ (tok = "-".toList ∨ tok = "--".toList) := by
    rintro (rfl | rfl)
    · exact absurd hends (by decide)
    · exact absurd hends (by decide)
  rw [verbIndex.eq_def]
  simp only [if_neg hbare, hdash, Bool.not_true, Bool.false_eq_true, if_false]
  split_ifs
  · cases rest with
    | nil => rfl
    | cons value after => rfl
  · rfl
  · rfl

theorem verbIndex_verb (hdash : isDash tok = false) (rest : List Str) (i : ℕ) :
    verbIndex (tok :: rest) i = some i := by
  have hbare : ¬ (tok = "-".toList ∨ tok = "--".toList) := by
    rintro (rfl | rfl)
    · exact absurd hdash (by decide)
    · exact absurd hdash (by decide)
  rw [verbIndex.eq_def]
  simp only [if_neg hbare, hdash, Bool.not_false, if_true]

theorem benign_of_takesValue {value : Option Str} (h : gitGlobalOptionTakesValue tok = true) :
    GlobalOption.Benign ⟨tok, value⟩ ↔ tok = "-C".toList := by
  refine ⟨fun hbenign => ?_, .inl⟩
  obtain hC | hattached | rfl | rfl := hbenign
  · exact hC
  · rw [attached_of_takesValue h] at hattached
    cases hattached
  · exact absurd h (by decide)
  · exact absurd h (by decide)

/-- The verb is found if all options in front of it are benign. -/
theorem verbIndex_eq_some_iff (rest : List Str) (i j : ℕ) :
    verbIndex rest i = some j ↔ (∀ g ∈ (globals rest).1, g.Benign) ∧
      ∃ verb behind, (globals rest).2 = verb :: behind ∧ isDash verb = false ∧
        j + (globals rest).2.length = i + rest.length := by
  fun_induction globals rest generalizing i with
  | case1 =>
    rw [verbIndex]
    exact ⟨nofun, by rintro ⟨-, verb, behind, hnil, -⟩; cases hnil⟩
  | case2 tok rest hends =>
    cases hdash : isDash tok with
    | false =>
      rw [verbIndex_verb hdash, Option.some.injEq]
      constructor
      · rintro rfl
        exact ⟨nofun, tok, rest, rfl, hdash, rfl⟩
      · rintro ⟨-, _, _, -, -, hlen⟩
        exact (Nat.add_right_cancel hlen).symm
    | true =>
      have hbare : tok = "-".toList ∨ tok = "--".toList := by
        by_contra hnot
        rw [not_or] at hnot
        rw [not_dash_of_verb hends hnot] at hdash
        cases hdash
      rw [verbIndex.eq_def]
      simp only [if_pos hbare]
      refine ⟨nofun, ?_⟩
      rintro ⟨-, verb, behind, hverb, hnot, -⟩
      rw [(List.cons.inj hverb).1, hnot] at hdash
      cases hdash
  | case3 tok hends hvalue =>
    rw [Bool.not_eq_true] at hends
    have hnone : verbIndex [tok] i = none := by
      rw [verbIndex_option hends]
      split_ifs
      · rfl
      · rfl
      · rfl
    rw [hnone]
    exact ⟨nofun, by rintro ⟨-, verb, behind, hnil, -⟩; cases hnil⟩
  | case4 tok hends hvalue value after options left hglobals ih =>
    rw [Bool.not_eq_true] at hends
    rw [hglobals] at ih
    rw [verbIndex_option hends, List.forall_mem_cons, benign_of_takesValue hvalue]
    by_cases hC : tok = "-C".toList
    · rw [if_pos hC, List.drop_one, List.tail_cons, ih]
      simp only [hC, true_and, List.length_cons]
      have hlen : i + 2 + after.length = i + (after.length + 1 + 1) := by omega
      rw [hlen]
    · have hplain : ¬ ((attachedGitCPath tok).isSome ∨ tok = "--no-pager".toList ∨
          tok = "-P".toList) := fun hbenign =>
        hC ((@benign_of_takesValue tok none hvalue).mp (.inr hbenign))
      rw [if_neg hC, if_neg hplain]
      exact ⟨nofun, fun h => absurd h.1.1 hC⟩
  | case5 tok rest hends hvalue options left hglobals ih =>
    rw [Bool.not_eq_true] at hends
    rw [hglobals] at ih
    have hC : tok ≠ "-C".toList := by
      rintro rfl
      exact absurd (by decide) hvalue
    have hbenign : GlobalOption.Benign ⟨tok, none⟩ ↔ (attachedGitCPath tok).isSome ∨
        tok = "--no-pager".toList ∨ tok = "-P".toList := or_iff_right hC
    rw [verbIndex_option hends, if_neg hC, List.forall_mem_cons, hbenign]
    split_ifs with hplain
    · rw [ih, and_iff_right hplain]
      simp only [List.length_cons]
      have hlen : i + 1 + rest.length = i + (rest.length + 1) := by omega
      rw [hlen]
    · exact ⟨nofun, fun h => absurd h.1.1 hplain⟩

/-- The word at the index is the subcommand. -/
theorem getElem?_verb {args behind : List Str} {verb : Str} {j : ℕ}
    (hsub : (globals args).2 = verb :: behind)
    (hlen : j + (globals args).2.length = 1 + args.length) :
    (gitWord :: args)[j]? = some verb := by
  obtain ⟨front, hfront, -⟩ := globals_split args
  have hj : j = (gitWord :: front).length := by
    have hargs := congrArg List.length hfront
    rw [List.length_append] at hargs
    rw [List.length_cons]
    omega
  rw [hfront, hsub, ← List.cons_append, hj, List.getElem?_append_right (Nat.le_refl _),
    Nat.sub_self]
  rfl

/-! ## The directory -/

theorem passes_of_attached (h : attachedGitCPath tok = some path) : Passes tok := by
  obtain ⟨rfl, hne⟩ := attachedGitCPath_eq_some h
  obtain ⟨c, path, rfl⟩ := List.exists_cons_of_ne_nil hne
  refine ⟨?_, ?_⟩
  · simp [endsOptions, isDash, startsWith]
  · simp [isExecRiskOption, isAttachedGitConfigC, isGitConfigEnvFlag, isGitRepoRetargetFlag,
      isAcceptedLongOptionPrefix, flagOf, startsWith, List.isPrefixOf]

theorem effectiveCwd_benign (rest : List Str) (cwd d : Str)
    (hbenign : ∀ g ∈ (globals rest).1, g.Benign) (h : effectiveCwd rest cwd = some d) :
    d = ((globals rest).1.filterMap GlobalOption.cOperand).foldl joinCwd cwd := by
  fun_induction globals rest generalizing cwd with
  | case1 =>
    rw [effectiveCwd] at h
    exact (Option.some.inj h).symm
  | case2 tok rest hends =>
    rw [effectiveCwd.eq_def] at h
    simp only [hends, if_true] at h
    exact (Option.some.inj h).symm
  | case3 tok hends hvalue =>
    have hC := (benign_of_takesValue hvalue).mp (hbenign _ (List.mem_singleton_self _))
    rw [hC] at h
    cases h
  | case4 tok hends hvalue value after options left hglobals ih =>
    rw [hglobals] at ih
    rw [List.forall_mem_cons, benign_of_takesValue hvalue] at hbenign
    obtain ⟨rfl, hoptions⟩ := hbenign
    rw [effectiveCwd_C] at h
    split_ifs at h
    rw [ih _ hoptions h]
    rfl
  | case5 tok rest hends hvalue options left hglobals ih =>
    rw [Bool.not_eq_true] at hends hvalue
    rw [hglobals] at ih
    rw [List.forall_mem_cons] at hbenign
    obtain ⟨htok, hoptions⟩ := hbenign
    have hC : tok ≠ "-C".toList := by
      rintro rfl
      exact absurd hvalue (by decide)
    have hoperand : GlobalOption.cOperand ⟨tok, none⟩ = attachedGitCPath tok := if_neg hC
    cases hattached : attachedGitCPath tok with
    | some path =>
      rw [effectiveCwd_attached (passes_of_attached hattached) hC hattached] at h
      split_ifs at h
      rw [List.filterMap_cons_some (hoperand.trans hattached), List.foldl_cons]
      exact ih _ hoptions h
    | none =>
      have hpasses : Passes tok := by
        obtain hthis | hthis | rfl | rfl := htok
        · exact absurd hthis hC
        · rw [hattached] at hthis
          cases hthis
        · exact ⟨by decide, by decide⟩
        · exact ⟨by decide, by decide⟩
      rw [effectiveCwd_step hpasses hC hattached fun _ _ => skipsNext_of_not hvalue] at h
      rw [List.filterMap_cons_none (hoperand.trans hattached)]
      exact ih _ hoptions h

/-! ## When all agree -/

/-- Behind `grep` a word with `-O` is seen: by another option, or because the verb is found. -/
def GrepSeen (args : List Str) : Prop :=
  ∀ behind, (globals args).2 = "grep".toList :: behind →
    (∃ word ∈ behind, startsWith word "-O".toList) →
      (∃ word ∈ args, gitQueryOptionIsUnsafe word = true) ∨ ∀ g ∈ (globals args).1, g.Benign

theorem hasRisk_of_hidden {options : List GlobalOption} (h : HiddenRisk options) :
    HasRisk options := by
  obtain ⟨before, g, behind, rfl, -, -, e, he, hrisk⟩ := h
  exact ⟨e, List.mem_append_right _ (List.mem_cons_of_mem g he), hrisk⟩

theorem execRisk_iff (args : List Str) :
    (HasRisk (globals args).1 → Answers args) ↔ ¬ HiddenRisk (globals args).1 := by
  constructor
  · intro h hhidden
    have hrisk := hasRisk_of_hidden hhidden
    exact (answers_iff args hrisk).mp (h hrisk) hhidden
  · intro h hrisk
    exact (answers_iff args hrisk).mpr h

theorem unsafeOption_iff {args behind : List Str}
    (hsub : (globals args).2 = "grep".toList :: behind)
    (hpager : ∃ word ∈ behind, startsWith word "-O".toList) :
    gitWordsHaveUnsafeQueryOption (gitWord :: args) = true ↔
      (∃ word ∈ args, gitQueryOptionIsUnsafe word = true) ∨
        ∀ g ∈ (globals args).1, g.Benign := by
  obtain ⟨front, hfront, -⟩ := globals_split args
  have hseen : args.any (startsWith · "-O".toList) = true := by
    obtain ⟨word, hword, hstart⟩ := hpager
    refine List.any_eq_true.mpr ⟨word, ?_, hstart⟩
    rw [hfront, hsub]
    exact List.mem_append_right _ (List.mem_cons_of_mem _ hword)
  have hverb : (verbIndex args 1).any (fun i => (gitWord :: args)[i]? == some "grep".toList) =
      true ↔ ∀ g ∈ (globals args).1, g.Benign := by
    rw [Option.any_eq_true]
    constructor
    · rintro ⟨j, hj, -⟩
      exact ((verbIndex_eq_some_iff args 1 j).mp hj).1
    · intro hbenign
      have hlen : front.length + 1 + (globals args).2.length = 1 + args.length := by
        have hargs := congrArg List.length hfront
        rw [List.length_append] at hargs
        omega
      refine ⟨front.length + 1, (verbIndex_eq_some_iff args 1 _).mpr
        ⟨hbenign, _, _, hsub, by decide, hlen⟩, ?_⟩
      rw [getElem?_verb hsub hlen]
      exact beq_self_eq_true _
  have hhead : ¬ (gitWord :: args).head? ≠ some gitWord := not_not.mpr rfl
  rw [gitWordsHaveUnsafeQueryOption, if_neg hhead, List.drop_one, List.tail_cons, hseen,
    Bool.and_true]
  split_ifs with hunsafe
  · exact iff_of_true rfl (.inl (List.any_eq_true.mp hunsafe))
  · rw [or_iff_right fun h => hunsafe (List.any_eq_true.mpr h)]
    exact hverb

theorem readOnly_holds {args : List Str}
    (h : gitWordsAreReadOnlyQuery (gitWord :: args) = true) :
    (∃ verb behind, (globals args).2 = verb :: behind ∧ isSafeGitSubcommand verb) ∧
      ∀ cwd d, gitEffectiveCwd (gitWord :: args) cwd = some d →
        d = ((globals args).1.filterMap GlobalOption.cOperand).foldl joinCwd cwd := by
  have hhead : ¬ (gitWord :: args).head? ≠ some gitWord := not_not.mpr rfl
  rw [gitWordsAreReadOnlyQuery, if_neg hhead] at h
  split_ifs at h
  have hindex : gitSafeQueryVerbIndex (gitWord :: args) = verbIndex args 1 := rfl
  rw [hindex] at h
  cases hj : verbIndex args 1 with
  | none =>
    rw [hj] at h
    cases h
  | some j =>
    rw [hj] at h
    obtain ⟨hbenign, verb, behind, hsub, -, hlen⟩ := (verbIndex_eq_some_iff args 1 j).mp hj
    simp only [getElem?_verb hsub hlen, Option.any_some] at h
    refine ⟨⟨verb, behind, hsub, ?_⟩, fun cwd d => effectiveCwd_benign args cwd d hbenign⟩
    by_contra hsafe
    rw [Bool.not_eq_true] at hsafe
    rw [hsafe] at h
    cases h

/-- The walks agree unless a value `--` hides an option that matters, or options in front of `grep`
hide its pager. -/
theorem walkersAgree_iff (args : List Str) :
    WalkersAgree args ↔ ¬ HiddenRisk (globals args).1 ∧ GrepSeen args := by
  constructor
  · intro h
    refine ⟨(execRisk_iff args).mp h.execRisk, fun behind hsub hpager => ?_⟩
    exact (unsafeOption_iff hsub hpager).mp (h.grepPager behind hsub hpager)
  · rintro ⟨hhidden, hgrep⟩
    exact {
      execRisk := (execRisk_iff args).mpr hhidden
      grepPager := fun behind hsub hpager =>
        (unsafeOption_iff hsub hpager).mpr (hgrep behind hsub hpager)
      readOnly := readOnly_holds }

theorem walkers_disagree :
    ¬ WalkersAgree (["--namespace", "--", "-c", "core.pager=x", "status"].map String.toList) ∧
      ¬ WalkersAgree (["--bare", "grep", "-Oless"].map String.toList) := by
  constructor
  · intro h
    have hrisk : ∃ g ∈ (globals (["--namespace", "--", "-c", "core.pager=x", "status"].map
        String.toList)).1, isExecRiskOption g.option = true :=
      ⟨⟨"-c".toList, some "core.pager=x".toList⟩, by decide, by decide⟩
    obtain hfound | hnone := h.execRisk hrisk
    · exact absurd hfound (by decide)
    · exact absurd (hnone []) (by decide)
  · intro h
    have hfound := h.grepPager ["-Oless".toList] (by decide)
      ⟨"-Oless".toList, List.mem_singleton_self _, by decide⟩
    exact absurd hfound (by decide)

end GrokBuild.Permission.ExecRisk
