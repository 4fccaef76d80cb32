import GrokBuild.Permission.GitWalk
import GrokBuild.Permission.NormalForm

/-!
# The facts of a segment

`permission/exec_risk.rs` peels wrappers and transparent prefixes with a loop of its own before it
looks for `git` and `sort`. A peel that is not modelled fails closed.
-/

namespace GrokBuild.Permission.ExecRisk

open Text

/-- Both slices are suffixes of the words, so equal lengths mean the same slice. `none` is the
source's `FailClosed`. -/
def normalizeRiskRounds : ℕ → List Str → Option (List Str)
  | 0, _ => none
  | rounds + 1, current =>
    let checked := unwrapWrappersChecked current
    if checked.exhausted || checked.hasSplitString || checked.hasChdir then none
    else
      match peelTransparentPrefixes checked.words with
      | none => none
      | some afterTrans =>
        if afterTrans.length = current.length then some afterTrans
        else if afterTrans.length = checked.words.length then some afterTrans
        else normalizeRiskRounds rounds afterTrans

def normalizeForExecRisk (words : List Str) : Option (List Str) :=
  normalizeRiskRounds maxNormalizeRounds words

def normalizedProgramName (words : List Str) : Option Str :=
  words.head?.bind fun raw =>
    if baseName raw = [] then none
    else
      let name := toAsciiLowercase (baseName raw)
      some ((stripSuffix name ".exe".toList).getD name)

def isGitProgram (words : List Str) : Bool := normalizedProgramName words = some "git".toList

def isSortProgram (words : List Str) : Bool := normalizedProgramName words = some "sort".toList

/-- The loop stops at `--`. -/
def sortHasCompressProgramFlag (words : List Str) : Bool :=
  ((words.drop 1).takeWhile (· ≠ "--".toList)).any fun w =>
    w == "--compress-program".toList || startsWith w "--compress-program=".toList ||
      isAcceptedLongOptionPrefix (flagOf w) "--compress-program".toList 4

def segmentHasExecRiskFlag (words : List Str) : Bool :=
  if isSortProgram words then sortHasCompressProgramFlag words
  else if isGitProgram words then gitHasExecRiskGlobal words
  else false

structure SegmentExecFacts where
  execRisk : Bool
  hasGit : Bool
deriving DecidableEq

/-- The facts of words that need no peeling. -/
def factsOf (words : List Str) : SegmentExecFacts where
  execRisk := segmentHasExecRiskFlag words
  hasGit := isGitProgram words

def SegmentExecFacts.failClosed : SegmentExecFacts := { execRisk := true, hasGit := false }

def segmentExecFacts (words : List Str) : SegmentExecFacts :=
  match normalizeForExecRisk words with
  | none => .failClosed
  | some inner => factsOf inner

/-! ## Where git runs -/

/-- The operand of a literal `cd`. -/
def chdirTarget : Option Str → List Str → Option Str
  | target, [] => target
  | target, tok :: rest =>
    if tok = "--".toList then rest.head?
    else if isDash tok then none
    else if target.isSome then none
    else chdirTarget (some tok) rest

def applyLiteralChdir (cwd : Str) (words : List Str) : Option Str :=
  (chdirTarget none (words.drop 1)).bind fun target =>
    if isStaticPathOperand target then some (joinCwd cwd target) else none

inductive AmbientScanPlan where
  | failClosed
  | checkDirs (dirs : List Str)
deriving DecidableEq

def planOf (gitCwds : List Str) : AmbientScanPlan :=
  if gitCwds = [] then .failClosed else .checkDirs gitCwds

def scanSegments : List (List Str) → Str → List Str → AmbientScanPlan
  | [], _, gitCwds => planOf gitCwds
  | raw :: segments, cwd, gitCwds =>
    match normalizeForExecRisk raw with
    | none => .failClosed
    | some words =>
      let name := normalizedProgramName words
      if name = some "cd".toList ∨ name = some "pushd".toList then
        match applyLiteralChdir cwd words with
        | some next => scanSegments segments next gitCwds
        | none => .failClosed
      else if name = some "popd".toList then .failClosed
      else if name = some "git".toList then
        match gitEffectiveCwd words cwd with
        | some effective => scanSegments segments cwd (gitCwds ++ [effective])
        | none => .failClosed
      else scanSegments segments cwd gitCwds

def ambientScanPlanFromSegments (rawSegments : List (List Str)) (sessionCwd : Str) :
    AmbientScanPlan := scanSegments rawSegments sessionCwd []

/-! ## The two loops -/

/-- Any fact of the gate's normalization that its callers ask for. -/
def NeedsAsk (p : NormalizedCommandPeel) : Bool := p.failsClosed || p.hasChdir

structure PeelersAgree (w : List Str) : Prop where
  flagged : NeedsAsk (normalizeCommandWords w) = true → (segmentExecFacts w).execRisk = true ∧
    ∀ cwd, ambientScanPlanFromSegments [w] cwd = .failClosed
  clear : NeedsAsk (normalizeCommandWords w) = false →
    segmentExecFacts w = factsOf (normalizeCommandWords w).words

/-!
## The two peelers

The gate's loop and the loop of the execution risk run in lockstep as long as each round peels a
transparent prefix. They part where an `env` cannot be read, or is only uncovered, and where all
rounds are spent.
-/

variable {w v x : List Str} {m n k : ℕ} {c : Bool} {p : NormalizedCommandPeel}

/-! ## Facts that stay -/

/-- The look at what is left after the rounds. -/
def finish (p : NormalizedCommandPeel) : NormalizedCommandPeel :=
  if !p.ambiguous && !p.hasSplitString && !p.envOptionsUncertain && stillPeelable p.words then
    { p with exhausted := true }
  else p

theorem normalizeCommandWords_eq_finish (w : List Str) :
    normalizeCommandWords w = finish (normalizeRounds maxNormalizeRounds { words := w }) := rfl

theorem needsAsk_iff (p : NormalizedCommandPeel) : NeedsAsk p = true ↔
    p.exhausted = true ∨ p.ambiguous = true ∨ p.envOptionsUncertain = true ∨
      p.hasSplitString = true ∨ p.hasChdir = true := by
  simp only [NeedsAsk, NormalizedCommandPeel.failsClosed, Bool.or_eq_true, or_assoc]

theorem needsAsk_finish (h : NeedsAsk p = true) : NeedsAsk (finish p) = true := by
  unfold finish
  split_ifs
  · exact (needsAsk_iff _).mpr (.inl rfl)
  · exact h

theorem needsAsk_unwrap (h : NeedsAsk p = true) : NeedsAsk p.unwrap = true := by
  rw [needsAsk_iff] at h ⊢
  unfold NormalizedCommandPeel.unwrap
  obtain h | h | h | h | h := h
  · exact .inl (by rw [h]; rfl)
  · exact .inr (.inl h)
  · exact .inr (.inr (.inl (by rw [h]; rfl)))
  · exact .inr (.inr (.inr (.inl (by rw [h]; rfl))))
  · exact .inr (.inr (.inr (.inr (by rw [h]; rfl))))

theorem needsAsk_words (h : NeedsAsk p = true) (words : List Str) :
    NeedsAsk { p with words := words } = true := by
  rw [needsAsk_iff] at h ⊢
  exact h

theorem needsAsk_ambiguous (p : NormalizedCommandPeel) :
    NeedsAsk { p with ambiguous := true } = true :=
  (needsAsk_iff _).mpr (.inr (.inl rfl))

/-- What a round has noted stays to the end. -/
theorem needsAsk_rounds (h : NeedsAsk p = true) (k : ℕ) :
    NeedsAsk (normalizeRounds k p) = true := by
  induction k generalizing p with
  | zero => exact h
  | succ k ih =>
    have hunwrap := needsAsk_unwrap h
    rw [normalizeRounds_succ]
    split_ifs
    · exact hunwrap
    · split
      · exact needsAsk_ambiguous _
      · split_ifs
        · exact needsAsk_words hunwrap _
        · exact ih (needsAsk_words hunwrap _)

theorem needsAsk_of_unwrap (h : NeedsAsk p.unwrap = true) (k : ℕ) :
    NeedsAsk (finish (normalizeRounds (k + 1) p)) = true := by
  refine needsAsk_finish ?_
  rw [normalizeRounds_succ]
  split_ifs
  · exact h
  · split
    · exact needsAsk_ambiguous _
    · split_ifs
      · exact needsAsk_words h _
      · exact needsAsk_rounds (needsAsk_words h _) k

/-! ## One round of the risk's loop -/

/-- The gate's peel before the first round. -/
abbrev fresh (w : List Str) : NormalizedCommandPeel := { words := w }

theorem clean_fresh (w : List Str) : (fresh w).Clean := ⟨rfl, rfl, rfl, rfl⟩

theorem unwrapWrappersChecked_fresh (w : List Str) :
    unwrapWrappersChecked w = (fresh w).unwrap.toCheckedWrapperPeel := by
  unfold NormalizedCommandPeel.unwrap
  simp only [Bool.false_or]

theorem riskRounds_succ (k : ℕ) (w : List Str) :
    normalizeRiskRounds (k + 1) w =
      if (fresh w).unwrap.exhausted || (fresh w).unwrap.hasSplitString ||
          (fresh w).unwrap.hasChdir then none
      else
        match peelTransparentPrefixes (fresh w).unwrap.words with
        | none => none
        | some inner =>
          if inner.length = w.length then some inner
          else if inner.length = (fresh w).unwrap.words.length then some inner
          else normalizeRiskRounds k inner := by
  rw [normalizeRiskRounds, unwrapWrappersChecked_fresh]

/-- The gate's peel of what is left, and the facts of the risk's loop. -/
def gatePeel (k : ℕ) (w : List Str) : NormalizedCommandPeel := finish (normalizeRounds k (fresh w))

def riskFacts (k : ℕ) (w : List Str) : SegmentExecFacts :=
  ((normalizeRiskRounds k w).map factsOf).getD .failClosed

/-- What both loops come to with some rounds left. -/
structure AgreeAt (k : ℕ) (w : List Str) : Prop where
  flagged : NeedsAsk (gatePeel k w) = true → (riskFacts k w).execRisk = true
  clear : NeedsAsk (gatePeel k w) = false → riskFacts k w = factsOf (gatePeel k w).words

/-- The same where what is flagged fails closed. -/
structure FailsClosedAt (k : ℕ) (w : List Str) : Prop where
  flagged : NeedsAsk (gatePeel k w) = true → normalizeRiskRounds k w = none
  clear : NeedsAsk (gatePeel k w) = false → riskFacts k w = factsOf (gatePeel k w).words

/-- A command that is no wrapper and no prefix has nothing left to peel. -/
theorem not_stillPeelable_of (hs : stripWrapperCommand v = none)
    (ht : stripTransparentPrefix v = .notPrefix) : stillPeelable v = false := by
  simp [stillPeelable, hs, ht]

theorem finish_settled (hs : stripWrapperCommand p.words = none)
    (ht : stripTransparentPrefix p.words = .notPrefix) : finish p = p := by
  unfold finish
  rw [not_stillPeelable_of hs ht, Bool.and_false]
  rfl

/-- Nothing is at risk in the words of an `env`. -/
theorem factsOf_env (h : isEnv v = true) : factsOf v = { execRisk := false, hasGit := false } := by
  have hname : normalizedProgramName v = some "env".toList := by
    have hhead : headName v = some "env".toList := of_decide_eq_true h
    obtain ⟨raw, hraw, hbase⟩ := Option.map_eq_some_iff.mp hhead
    rw [normalizedProgramName, hraw, Option.bind_some, hbase]
    decide
  have hsort : isSortProgram v = false := by
    rw [isSortProgram, hname]
    decide
  have hgit : isGitProgram v = false := by
    rw [isGitProgram, hname]
    decide
  rw [factsOf, segmentHasExecRiskFlag, hsort, hgit]
  rfl

/-! ## Where they part -/

/-- A round that peels wrappers, none of which changes the directory, and then prefixes. -/
structure PrefixRound (w x : List Str) : Prop where
  exists_peels : ∃ m n c v, m ≤ maxWrapperDepth ∧ Peels m 0 false w v ∧
    stripWrapperCommand v = none ∧ 0 < n ∧ n ≤ maxTransparentPrefixDepth ∧ Peels 0 n c v x
  transparent : stripTransparentPrefix x = .notPrefix

/-- With so many rounds left the loops come to different facts. -/
inductive Parts : ℕ → List Str → Prop
  | unread {k m : ℕ} {w v : List Str} : m < maxWrapperDepth → Peels m 0 false w v →
      stripWrapperCommand v = none → envUncertain v = true → envChdir v = false → Parts (k + 1) w
  | uncovered {k : ℕ} {w v : List Str} : Peels maxWrapperDepth 0 false w v →
      stripWrapperCommand v = none →
      envSplit v = true ∨ envUncertain v = true ∨ envChdir v = true → Parts (k + 2) w
  | spent {w : List Str} : stripWrapperCommand w = none → stripTransparentPrefix w = .notPrefix →
      factsOf w ≠ .failClosed → Parts 0 w
  | round {k : ℕ} {w x : List Str} : PrefixRound w x → Parts k x → Parts (k + 1) w

/-! ## Rounds in lockstep -/

theorem riskRounds_stop {k : ℕ} (h : ((fresh w).unwrap.exhausted ||
    (fresh w).unwrap.hasSplitString || (fresh w).unwrap.hasChdir) = true) :
    normalizeRiskRounds (k + 1) w = none := by
  rw [riskRounds_succ, if_pos h]

theorem failsClosed_of_stop (h : ((fresh w).unwrap.exhausted ||
    (fresh w).unwrap.hasSplitString || (fresh w).unwrap.hasChdir) = true) (k : ℕ) :
    FailsClosedAt (k + 1) w := by
  have hflagged : NeedsAsk (fresh w).unwrap = true := by
    rw [Bool.or_eq_true, Bool.or_eq_true] at h
    rw [needsAsk_iff]
    tauto
  refine ⟨fun _ => riskRounds_stop h, fun hclear => ?_⟩
  rw [gatePeel, needsAsk_of_unwrap hflagged k] at hclear
  cases hclear

/-- The wrappers of a round note nothing: the gate goes on with what is behind them. -/
def Quiet (w v : List Str) : Prop := (fresh w).unwrap = fresh v

theorem PrefixRound.quiet (h : PrefixRound w x) : ∃ v, Quiet w v ∧
    peelTransparentPrefixes v = some x ∧ x.length < v.length ∧ v.length ≤ w.length := by
  obtain ⟨m, n, c, v, hm, hwrap, hv, hpos, hn, hpre⟩ := h.exists_peels
  have hne : stripTransparentPrefix v ≠ .notPrefix := by
    intro hnot
    obtain _ | _ | ⟨ht, -⟩ := hpre
    · exact absurd hpos (Nat.lt_irrefl 0)
    · rw [hnot] at ht
      cases ht
  have hwrapLen := hwrap.length_le
  have hpreLen := hpre.length_le
  refine ⟨v, ?_, (peelTransparentLoop_of_peels hpre hn).1 h.transparent, by omega, by omega⟩
  exact unwrap_before_transparent (fresh w) hwrap hm (clean_fresh w) hne

theorem Quiet.riskRounds (h : Quiet w v) (k : ℕ) :
    normalizeRiskRounds (k + 1) w =
      match peelTransparentPrefixes v with
      | none => none
      | some inner =>
        if inner.length = w.length then some inner
        else if inner.length = v.length then some inner
        else normalizeRiskRounds k inner := by
  unfold Quiet at h
  rw [riskRounds_succ, h]
  rfl

theorem Quiet.gateRounds (h : Quiet w v) (k : ℕ) :
    normalizeRounds (k + 1) (fresh w) =
      match peelTransparentPrefixes v with
      | none => { fresh v with ambiguous := true }
      | some inner =>
        if inner.length = w.length then fresh inner else normalizeRounds k (fresh inner) := by
  unfold Quiet at h
  rw [normalizeRounds_succ, h]
  rfl

theorem PrefixRound.riskRounds (h : PrefixRound w x) (k : ℕ) :
    normalizeRiskRounds (k + 1) w = normalizeRiskRounds k x := by
  obtain ⟨v, hquiet, hpeel, hxv, hvw⟩ := h.quiet
  rw [hquiet.riskRounds, hpeel]
  dsimp only
  rw [if_neg (by omega), if_neg (by omega)]

theorem PrefixRound.gateRounds (h : PrefixRound w x) (k : ℕ) :
    normalizeRounds (k + 1) (fresh w) = normalizeRounds k (fresh x) := by
  obtain ⟨v, hquiet, hpeel, hxv, hvw⟩ := h.quiet
  rw [hquiet.gateRounds, hpeel]
  dsimp only
  rw [if_neg (by omega)]

theorem PrefixRound.agreeAt_iff (h : PrefixRound w x) (k : ℕ) :
    AgreeAt (k + 1) w ↔ AgreeAt k x := by
  have hgate : gatePeel (k + 1) w = gatePeel k x := congrArg finish (h.gateRounds k)
  have hrisk : riskFacts (k + 1) w = riskFacts k x := by
    rw [riskFacts, h.riskRounds k, riskFacts]
  constructor
  · rintro ⟨hflagged, hclear⟩
    rw [hgate, hrisk] at hflagged hclear
    exact ⟨hflagged, hclear⟩
  · rintro ⟨hflagged, hclear⟩
    rw [← hgate, ← hrisk] at hflagged hclear
    exact ⟨hflagged, hclear⟩

theorem PrefixRound.failsClosedAt (h : PrefixRound w x) {k : ℕ} (hx : FailsClosedAt k x) :
    FailsClosedAt (k + 1) w := by
  have hgate : gatePeel (k + 1) w = gatePeel k x := congrArg finish (h.gateRounds k)
  have hrisk : riskFacts (k + 1) w = riskFacts k x := by
    rw [riskFacts, h.riskRounds k, riskFacts]
  refine ⟨?_, ?_⟩
  · rw [hgate, h.riskRounds k]
    exact hx.flagged
  · rw [hgate, hrisk]
    exact hx.clear

/-! ## Disagreement -/

theorem uncertain_not_split {chdir : Option Str} {i : ℕ} {words : List Str}
    (h : (envScanFrom chdir i words).optionsUncertain = true) :
    (envScanFrom chdir i words).hasSplitString = false := by
  fun_induction envScanFrom chdir i words with
  | case4 _ _ _ _ _ ih => exact ih h
  | case6 _ _ _ _ _ _ _ ih => exact ih h
  | case7 _ _ _ _ _ _ ih => exact ih h
  | case5 => rfl
  | case11 => rfl
  | _ => cases h

theorem envSplit_of_uncertain (h : envUncertain v = true) : isEnv v = true ∧ envSplit v = false := by
  rw [envUncertain, Bool.and_eq_true] at h
  refine ⟨h.1, ?_⟩
  rw [envSplit, envScan, uncertain_not_split h.2, Bool.and_false]

theorem peelTransparentPrefixes_env (h : isEnv v = true) : peelTransparentPrefixes v = some v :=
  peelTransparentPrefixes_self (notPrefix_of_isEnv h)

/-- An `env` in which the risk's loop sees nothing to stop at ends that loop. -/
theorem riskFacts_env (henv : isEnv v = true) (hwords : (fresh w).unwrap.words = v)
    (hgo : ((fresh w).unwrap.exhausted || (fresh w).unwrap.hasSplitString ||
      (fresh w).unwrap.hasChdir) = false) (k : ℕ) :
    (riskFacts (k + 1) w).execRisk = false := by
  have hsome : normalizeRiskRounds (k + 1) w = some v := by
    rw [riskRounds_succ, hgo, hwords, peelTransparentPrefixes_env henv]
    dsimp only
    rw [if_neg Bool.false_ne_true, if_pos rfl, ite_self]
  rw [riskFacts, hsome, Option.map_some, Option.getD_some, factsOf_env henv]

theorem not_agreeAt {k : ℕ} (hask : NeedsAsk (gatePeel k w) = true)
    (hrisk : (riskFacts k w).execRisk = false) : ¬ AgreeAt k w := by
  intro h
  rw [h.flagged hask] at hrisk
  cases hrisk

theorem unwrap_full (hwrap : Peels maxWrapperDepth 0 false w v)
    (hv : stripWrapperCommand v = none) : Quiet w v := by
  have hunwrap := unwrap_spent (p := fresh w) hwrap
  rw [hv] at hunwrap
  exact hunwrap

theorem gateRounds_full (hwrap : Peels maxWrapperDepth 0 false w v)
    (hv : stripWrapperCommand v = none) (ht : stripTransparentPrefix v = .notPrefix) (k : ℕ) :
    normalizeRounds (k + 1) (fresh w) = normalizeRounds k (fresh v) := by
  have hlen := hwrap.length_le
  have hmax : 0 < maxWrapperDepth := by decide
  rw [(unwrap_full hwrap hv).gateRounds, peelTransparentPrefixes_self ht]
  dsimp only
  rw [if_neg (by omega)]

theorem parts_disagree {k : ℕ} (h : Parts k w) : ¬ AgreeAt k w := by
  induction h with
  | @unread k m w v hm hwrap hv huncertain hchdir =>
    obtain ⟨henv, hsplit⟩ := envSplit_of_uncertain huncertain
    have hunwrap := unwrap_noted (p := fresh w) hwrap hm hv
    rw [huncertain, hsplit, hchdir] at hunwrap
    have hask : NeedsAsk (fresh w).unwrap = true := by
      rw [needsAsk_iff, hunwrap]
      exact .inr (.inr (.inl rfl))
    refine not_agreeAt (needsAsk_of_unwrap hask k) (riskFacts_env henv ?_ ?_ k)
    · rw [hunwrap]
    · rw [hunwrap]
      rfl
  | @uncovered k w v hwrap hv hflags =>
    have hunwrap := unwrap_full hwrap hv
    have henv : isEnv v = true := by
      unfold envSplit envUncertain envChdir at hflags
      simp only [Bool.and_eq_true] at hflags
      tauto
    have hask : NeedsAsk (fresh v).unwrap = true := by
      rw [needsAsk_iff, unwrap_noted (p := fresh v) (.refl v) (by decide) hv]
      simp only [Bool.false_or]
      tauto
    refine not_agreeAt ?_ (riskFacts_env henv ?_ ?_ (k + 1))
    · rw [gatePeel, gateRounds_full hwrap hv (notPrefix_of_isEnv henv)]
      exact needsAsk_of_unwrap hask k
    · unfold Quiet at hunwrap
      rw [hunwrap]
    · unfold Quiet at hunwrap
      rw [hunwrap]
      rfl
  | @spent w hs ht hfacts =>
    intro h
    have hgate : gatePeel 0 w = fresh w := finish_settled hs ht
    have hclear := h.clear (by rw [hgate]; rfl)
    rw [hgate] at hclear
    exact hfacts hclear.symm
  | round hround _ ih =>
    rw [hround.agreeAt_iff]
    exact ih

/-! ## Agreement -/

theorem failsClosed_ambiguous (hunwrap : Quiet w v) (hpeel : peelTransparentPrefixes v = none)
    (k : ℕ) : FailsClosedAt (k + 1) w := by
  have hask : NeedsAsk (gatePeel (k + 1) w) = true := by
    refine needsAsk_finish ?_
    rw [hunwrap.gateRounds, hpeel]
    exact needsAsk_ambiguous _
  refine ⟨fun _ => ?_, fun hclear => ?_⟩
  · rw [hunwrap.riskRounds, hpeel]
  · rw [hask] at hclear
    cases hclear

/-- Both loops end at a command that is no wrapper and no prefix. -/
theorem failsClosed_settled (hunwrap : Quiet w v) (ht : stripTransparentPrefix v = .notPrefix)
    {k : ℕ} (hgate : gatePeel (k + 1) w = fresh v) : FailsClosedAt (k + 1) w := by
  have hsome : normalizeRiskRounds (k + 1) w = some v := by
    rw [hunwrap.riskRounds, peelTransparentPrefixes_self ht]
    dsimp only
    rw [if_pos rfl, ite_self]
  refine ⟨fun hask => ?_, fun _ => ?_⟩
  · rw [hgate] at hask
    cases hask
  · rw [riskFacts, hsome, hgate]
    rfl

/-- The rest of a round behind wrappers that note nothing. -/
theorem failsClosed_quiet {k : ℕ} (hm : m ≤ maxWrapperDepth) (hwrap : Peels m 0 false w v)
    (hv : stripWrapperCommand v = none) (hquiet : Quiet w v)
    (hend : stripTransparentPrefix v = .notPrefix → gatePeel (k + 1) w = fresh v)
    (ih : ∀ {x : List Str}, ¬ Parts k x → FailsClosedAt k x) (h : ¬ Parts (k + 1) w) :
    FailsClosedAt (k + 1) w := by
  obtain ⟨hnone, -⟩ | ⟨n, x, hn, hpre, hx, hsome⟩ :=
    peelTransparentLoop_cases maxTransparentPrefixDepth v
  · exact failsClosed_ambiguous hquiet hnone k
  · obtain rfl | hpos := Nat.eq_zero_or_pos n
    · have hvx : v = x := by
        cases hpre
        rfl
      rw [← hvx] at hx
      exact failsClosed_settled hquiet hx (hend hx)
    · have hround : PrefixRound w x := ⟨⟨m, n, false, v, hm, hwrap, hv, hpos, hn, hpre⟩, hx⟩
      exact hround.failsClosedAt (ih fun hparts => h (.round hround hparts))

/-- An unpeelable command whose own facts are all clear keeps the gate's peel as it is. -/
theorem finish_rounds_clear (hv : stripWrapperCommand v = none)
    (ht : stripTransparentPrefix v = .notPrefix)
    (hclear : ¬ (envSplit v = true ∨ envUncertain v = true ∨ envChdir v = true)) (k : ℕ) :
    gatePeel k v = fresh v := by
  have hrounds : normalizeRounds k (fresh v) = fresh v := by
    cases k with
    | zero => rfl
    | succ k =>
      simp only [not_or, Bool.not_eq_true] at hclear
      obtain ⟨hsplit, huncertain, hchdir⟩ := hclear
      rw [normalizeRounds_end hv ht k (fresh v) rfl (clean_fresh v), peelResult, hsplit,
        huncertain, hchdir]
      rfl
  rw [gatePeel, hrounds]
  exact finish_settled hv ht

theorem failsClosed_short {k : ℕ} (hm : m < maxWrapperDepth) (hwrap : Peels m 0 c w v)
    (hv : stripWrapperCommand v = none)
    (ih : ∀ {x : List Str}, ¬ Parts k x → FailsClosedAt k x) (h : ¬ Parts (k + 1) w) :
    FailsClosedAt (k + 1) w := by
  have hunwrap := unwrap_noted (p := fresh w) hwrap hm hv
  simp only [Bool.false_or] at hunwrap
  by_cases hstop : (envSplit v || (c || envChdir v)) = true
  · apply failsClosed_of_stop
    rw [hunwrap]
    exact hstop
  · simp only [Bool.not_eq_true, Bool.or_eq_false_iff] at hstop
    obtain ⟨hsplit, rfl, hchdir⟩ := hstop
    by_cases huncertain : envUncertain v = true
    · exact absurd (.unread hm hwrap hv huncertain hchdir) h
    · have hclear : ¬ (envSplit v = true ∨ envUncertain v = true ∨ envChdir v = true) := by
        rw [hsplit, hchdir]
        simpa using huncertain
      rw [Bool.not_eq_true] at huncertain
      rw [hsplit, hchdir, huncertain] at hunwrap
      have hquiet : Quiet w v := hunwrap
      refine failsClosed_quiet hm.le hwrap hv hquiet (fun ht => ?_) ih h
      -- a round that peels only wrappers is followed by one that peels nothing
      have hrounds : normalizeRounds (k + 1) (fresh w) = fresh v ∨
          normalizeRounds (k + 1) (fresh w) = normalizeRounds k (fresh v) := by
        rw [hquiet.gateRounds, peelTransparentPrefixes_self ht]
        dsimp only
        split_ifs
        · exact .inl rfl
        · exact .inr rfl
      obtain hrounds | hrounds := hrounds
      · rw [gatePeel, hrounds]
        exact finish_settled hv ht
      · rw [gatePeel, hrounds]
        exact finish_rounds_clear hv ht hclear k

theorem failsClosed_full {k : ℕ} (hwrap : Peels maxWrapperDepth 0 c w v)
    (ih : ∀ {x : List Str}, ¬ Parts k x → FailsClosedAt k x) (h : ¬ Parts (k + 1) w) :
    FailsClosedAt (k + 1) w := by
  have hunwrap := unwrap_spent (p := fresh w) hwrap
  simp only [Bool.false_or] at hunwrap
  by_cases hstop : ((stripWrapperCommand v).isSome || c) = true
  · apply failsClosed_of_stop
    rw [hunwrap, Bool.or_false]
    exact hstop
  · simp only [Bool.not_eq_true, Bool.or_eq_false_iff, Option.isSome_eq_false_iff,
      Option.isNone_iff_eq_none] at hstop
    obtain ⟨hv, rfl⟩ := hstop
    refine failsClosed_quiet le_rfl hwrap hv (unwrap_full hwrap hv) (fun ht => ?_) ih h
    rw [gatePeel, gateRounds_full hwrap hv ht]
    cases k with
    | zero => exact finish_settled hv ht
    | succ k => exact finish_rounds_clear hv ht (fun hflags => h (.uncovered hwrap hv hflags)) _

theorem failsClosed_of_not_parts {k : ℕ} (h : ¬ Parts k w) : FailsClosedAt k w := by
  induction k generalizing w with
  | zero =>
    refine ⟨fun _ => rfl, fun hclear => ?_⟩
    by_cases hstill : stillPeelable w = true
    · rw [gatePeel, normalizeRounds, finish, hstill] at hclear
      cases hclear
    · rw [Bool.not_eq_true] at hstill
      obtain ⟨hs, ht⟩ := not_stillPeelable hstill
      have hgate : gatePeel 0 w = fresh w := finish_settled hs ht
      rw [hgate]
      by_contra hne
      exact h (.spent hs ht fun heq => hne heq.symm)
  | succ k ih =>
    obtain ⟨m, c, v, hwrap, hm, hv⟩ := exists_leading_wrappers maxWrapperDepth w
    obtain hlt | rfl := hm.lt_or_eq
    · exact failsClosed_short hlt hwrap (hv hlt) ih h
    · exact failsClosed_full hwrap ih h

/-! ## The facts of a segment -/

theorem scan_failClosed (h : normalizeForExecRisk w = none) (cwd : Str) :
    ambientScanPlanFromSegments [w] cwd = .failClosed := by
  rw [ambientScanPlanFromSegments, scanSegments, h]

theorem segmentExecFacts_eq (w : List Str) :
    segmentExecFacts w = riskFacts maxNormalizeRounds w := by
  rw [segmentExecFacts, riskFacts, normalizeForExecRisk]
  cases normalizeRiskRounds maxNormalizeRounds w <;> rfl

/-- Each round peels at least one prefix and at most eight wrappers, none of which changes the
directory. The loops part where such rounds come to an `env` that cannot be read, or that a full
run of wrappers uncovers, or where all of them are spent. -/
theorem peelersAgree_iff (w : List Str) : PeelersAgree w ↔ ¬ Parts maxNormalizeRounds w := by
  constructor
  · rintro ⟨hflagged, hclear⟩ hparts
    refine parts_disagree hparts ⟨fun hask => ?_, fun hask => ?_⟩
    · rw [← segmentExecFacts_eq]
      exact (hflagged hask).1
    · rw [← segmentExecFacts_eq]
      exact hclear hask
  · intro hparts
    obtain ⟨hflagged, hclear⟩ := failsClosed_of_not_parts hparts
    refine ⟨fun hask => ?_, fun hask => ?_⟩
    · have hnone : normalizeForExecRisk w = none := hflagged hask
      refine ⟨?_, scan_failClosed hnone⟩
      rw [segmentExecFacts, hnone]
      rfl
    · rw [segmentExecFacts_eq]
      exact hclear hask

/-- `env --ignore-signal git -c core.fsmonitor=x status`. -/
def unreadEnv : List Str := ["env", "--ignore-signal", "git", "-c", "core.fsmonitor=x",
  "status"].map String.toList

/-- The gate takes the options for unreadable, and the risk's loop finds no `git` behind them. -/
theorem peelers_part_at_unread_env : NeedsAsk (normalizeCommandWords unreadEnv) = true ∧
    segmentExecFacts unreadEnv = { execRisk := false, hasGit := false } ∧
    ¬ PeelersAgree unreadEnv := by
  have hask : NeedsAsk (normalizeCommandWords unreadEnv) = true := by decide +kernel
  have hfacts : segmentExecFacts unreadEnv = { execRisk := false, hasGit := false } := by
    decide +kernel
  refine ⟨hask, hfacts, fun hagree => ?_⟩
  have hrisk := (hagree.flagged hask).1
  rw [hfacts] at hrisk
  cases hrisk

end GrokBuild.Permission.ExecRisk
