import GrokBuild.Permission.PeelChain
import GrokBuild.Permission.WrapperPeel
import Mathlib.Logic.Relation

/-!
# The normal form of a command's words

Normalization runs in rounds, and each round has budgets of its own. When all the rounds are
spent, an `env` that the last one uncovered has not been scanned by any.
-/

namespace GrokBuild.Permission
open Text

/-! ## The layers of a command -/

section Layers

variable {w v x : List Str}

/-- Peeling one wrapper or transparent prefix. -/
def PeelsLayer (w v : List Str) : Prop :=
  stripWrapperCommand w = some v ∨ stripTransparentPrefix w = .peeled v

/-- `v` is a layer of `w`. -/
def Layer (w v : List Str) : Prop := Relation.ReflTransGen PeelsLayer w v

/-- Among the options that `env` reads is one that packs a command. -/
inductive PacksCommand : List Str → Prop
  | next {tok : Str} {rest : List Str} : classifyEnvToken tok = .splitStringNext →
      PacksCommand (tok :: rest)
  | glued {tok payload : Str} {rest : List Str} :
      classifyEnvToken tok = .splitStringGlued payload → PacksCommand (tok :: rest)
  | detect {tok : Str} {rest : List Str} : classifyEnvToken tok = .splitStringDetect →
      PacksCommand (tok :: rest)
  | skip {tok : Str} {rest : List Str} : classifyEnvToken tok = .skip → PacksCommand rest →
      PacksCommand (tok :: rest)
  | chdir {tok dir : Str} {rest : List Str} : classifyEnvToken tok = .chdirGlued dir →
      PacksCommand rest → PacksCommand (tok :: rest)
  | operand {tok operand : Str} {rest : List Str} {isChdir : Bool} :
      classifyEnvToken tok = .operandNext isChdir → PacksCommand rest →
      PacksCommand (tok :: operand :: rest)

theorem PacksCommand.of_scan {chdir : Option Str} {i : ℕ} {words : List Str}
    (h : (envScanFrom chdir i words).hasSplitString = true) : PacksCommand words := by
  fun_induction envScanFrom chdir i words with
  | case1 => cases h
  | case2 => cases h
  | case3 => cases h
  | case4 _ _ tok rest htok ih => exact .skip htok (ih h)
  | case5 => cases h
  | case6 _ _ tok isChdir htok operand rest ih => exact .operand htok (ih h)
  | case7 _ _ tok rest dir htok ih => exact .chdir htok (ih h)
  | case8 _ _ tok rest htok => exact .next htok
  | case9 _ _ tok rest payload htok => exact .glued htok
  | case10 _ _ tok rest htok => exact .detect htok
  | case11 => cases h

theorem PacksCommand.scan {words : List Str} (h : PacksCommand words) (chdir : Option Str) (i : ℕ) :
    (envScanFrom chdir i words).hasSplitString = true := by
  induction h generalizing chdir i with
  | next htok => rw [envScanFrom, htok]
  | glued htok => rw [envScanFrom, htok]
  | detect htok => rw [envScanFrom, htok]
  | skip htok _ ih =>
    rw [envScanFrom, htok]
    exact ih _ _
  | chdir htok _ ih =>
    rw [envScanFrom, htok]
    exact ih _ _
  | operand htok _ ih =>
    rw [envScanFrom.eq_def]
    dsimp only
    rw [htok]
    exact ih _ _

theorem envSplit_iff : envSplit w = true ↔ isEnv w = true ∧ PacksCommand w.tail := by
  rw [envSplit, Bool.and_eq_true]
  exact and_congr_right fun _ => ⟨PacksCommand.of_scan, fun h => h.scan _ _⟩

theorem Peels.layer {m n : ℕ} {c : Bool} (h : Peels m n c w x) : Layer w x := by
  induction h with
  | refl w => exact .refl
  | wrapper hs _ ih => exact .head (.inl hs) ih
  | transparent ht _ ih => exact .head (.inr ht) ih

/-- Below a layer that cannot be peeled there is only itself. -/
theorem Layer.eq_of_unpeelable (h : Layer w v) (hs : stripWrapperCommand w = none)
    (ht : stripTransparentPrefix w = .notPrefix) : v = w := by
  obtain h | ⟨u, hpeel, -⟩ := Relation.ReflTransGen.cases_head h
  · exact h.symm
  · obtain hpeel | hpeel := hpeel
    · rw [hs] at hpeel
      cases hpeel
    · rw [ht] at hpeel
      cases hpeel

theorem strip_eq_none_of_envSplit (h : envSplit w = true) : stripWrapperCommand w = none := by
  cases hs : stripWrapperCommand w with
  | none => rfl
  | some v =>
    rw [(env_flags_of_strip hs).1] at h
    cases h

theorem notPrefix_of_isEnv (h : isEnv w = true) : stripTransparentPrefix w = .notPrefix := by
  by_contra hne
  rw [isEnv_of_transparent hne] at h
  cases h

theorem isEnv_of_envSplit (h : envSplit w = true) : isEnv w = true := (Bool.and_eq_true _ _ ▸ h).1

end Layers

/-! ## One round -/

section Round

variable {w v x : List Str} {k m n : ℕ} {c ninth : Bool} {p : NormalizedCommandPeel}

/-- A round that may leave something to peel: it used up the wrapper budget, or it peeled transparent
prefixes. The flag tells whether one wrapper more was left. -/
inductive Round : Bool → List Str → List Str → Prop
  | full {n : ℕ} {c c' : Bool} {w v x : List Str} : Peels maxWrapperDepth 0 c w v →
      Peels 0 n c' v x → n ≤ maxTransparentPrefixDepth → stripTransparentPrefix x = .notPrefix →
      Round (stripWrapperCommand v).isSome w x
  | prefixes {m n : ℕ} {c c' : Bool} {w v x : List Str} : m < maxWrapperDepth →
      Peels m 0 c w v → 0 < n → n ≤ maxTransparentPrefixDepth → Peels 0 n c' v x →
      stripTransparentPrefix x = .notPrefix → Round false w x

/-- Rounds one after another; the flag tells whether one of them left a ninth wrapper. -/
inductive Rounds : ℕ → Bool → List Str → List Str → Prop
  | zero (w : List Str) : Rounds 0 false w w
  | succ {k : ℕ} {ninth ninth' : Bool} {w v x : List Str} : Round ninth w v → Rounds k ninth' v x →
      Rounds (k + 1) (ninth || ninth') w x

theorem exists_leading_wrappers (k : ℕ) (w : List Str) :
    ∃ m c v, Peels m 0 c w v ∧ m ≤ k ∧ (m < k → stripWrapperCommand v = none) := by
  induction k generalizing w with
  | zero => exact ⟨0, false, w, .refl w, Nat.le_refl 0, fun h => absurd h (Nat.lt_irrefl 0)⟩
  | succ k ih =>
    cases hs : stripWrapperCommand w with
    | none => exact ⟨0, false, w, .refl w, Nat.zero_le _, fun _ => hs⟩
    | some inner =>
      obtain ⟨m, c, v, hpeels, hm, hv⟩ := ih inner
      exact ⟨m + 1, _, v, .wrapper hs hpeels, Nat.succ_le_succ hm,
        fun h => hv (Nat.lt_of_succ_lt_succ h)⟩

/-- A run of wrappers that uses up the budget reports whether a wrapper is left. -/
theorem unwrapWrappersLoop_spent (h : Peels m 0 c w v) (q : CheckedWrapperPeel) (hq : q.words = w) :
    unwrapWrappersLoop m q = { q with
      words := v
      hasChdir := q.hasChdir || c
      exhausted := (stripWrapperCommand v).isSome } := by
  generalize hn : 0 = n at h
  induction h generalizing q with
  | refl w =>
    have hleft : (isWrapperCommand w && (stripWrapperCommand w).isSome) =
        (stripWrapperCommand w).isSome := by
      cases hs : stripWrapperCommand w with
      | none => exact Bool.and_false _
      | some inner => exact Bool.and_eq_true_iff.mpr ⟨isWrapperCommand_of_strip hs, rfl⟩
    subst hq
    rw [unwrapWrappersLoop, hleft, Bool.or_false]
  | @wrapper m n c w v u hs _ ih =>
    obtain ⟨hsplit, hunc⟩ := env_flags_of_strip hs
    rw [unwrapWrappersLoop, hq, hs]
    dsimp only
    rw [ih _ rfl hn]
    simp only [noteEnv_eq, hq, hsplit, hunc, Bool.or_false, Bool.or_assoc]
  | transparent _ _ _ => omega

theorem unwrap_spent (h : Peels maxWrapperDepth 0 c p.words v) :
    p.unwrap = { p with
      words := v
      hasChdir := p.hasChdir || c
      exhausted := p.exhausted || (stripWrapperCommand v).isSome } := by
  unfold NormalizedCommandPeel.unwrap unwrapWrappersChecked
  rw [unwrapWrappersLoop_spent h { words := p.words } rfl]
  simp only [Bool.false_or, Bool.or_false]

theorem unwrap_noted (h : Peels m 0 c p.words v) (hm : m < maxWrapperDepth)
    (hv : stripWrapperCommand v = none) :
    p.unwrap = { p with
      words := v
      hasChdir := p.hasChdir || (c || envChdir v)
      hasSplitString := p.hasSplitString || envSplit v
      envOptionsUncertain := p.envOptionsUncertain || envUncertain v } := by
  unfold NormalizedCommandPeel.unwrap unwrapWrappersChecked
  rw [unwrapWrappersLoop_of_peels h hv hm.le { words := p.words } rfl rfl, if_pos hm, noteEnv_eq]
  simp only [Bool.false_or, Bool.or_false]

theorem peelTransparentLoop_cases (k : ℕ) (v : List Str) :
    (peelTransparentLoop k v = none ∧ stripTransparentPrefix v ≠ .notPrefix) ∨
      ∃ n x, n ≤ k ∧ Peels 0 n false v x ∧ stripTransparentPrefix x = .notPrefix ∧
        peelTransparentLoop k v = some x := by
  induction k generalizing v with
  | zero =>
    cases ht : stripTransparentPrefix v with
    | notPrefix =>
      exact .inr ⟨0, v, Nat.le_refl 0, .refl v, ht, by rw [peelTransparentLoop, ht]⟩
    | peeled inner => exact .inl ⟨by rw [peelTransparentLoop, ht], nofun⟩
    | ambiguous => exact .inl ⟨by rw [peelTransparentLoop, ht], nofun⟩
  | succ k ih =>
    cases ht : stripTransparentPrefix v with
    | notPrefix =>
      exact .inr ⟨0, v, Nat.zero_le _, .refl v, ht, by rw [peelTransparentLoop, ht]⟩
    | peeled inner =>
      rw [peelTransparentLoop, ht]
      dsimp only
      obtain ⟨hnone, -⟩ | ⟨n, x, hn, hpeels, hx, hsome⟩ := ih inner
      · exact .inl ⟨hnone, nofun⟩
      · exact .inr ⟨n + 1, x, Nat.succ_le_succ hn, .transparent ht hpeels, hx, hsome⟩
    | ambiguous => exact .inl ⟨by rw [peelTransparentLoop, ht], nofun⟩

theorem Round.length_lt (h : Round ninth w x) : x.length < w.length := by
  have hmax : 0 < maxWrapperDepth := by decide
  cases h with
  | full hwrap hpre _ _ =>
    have hlen := hwrap.length_le
    have hlen' := hpre.length_le
    omega
  | prefixes _ hwrap hpos _ hpre _ =>
    have hlen := hwrap.length_le
    have hlen' := hpre.length_le
    omega

theorem Round.layer (h : Round ninth w x) : Layer w x := by
  cases h with
  | full hwrap hpre _ _ => exact hwrap.layer.trans hpre.layer
  | prefixes _ hwrap _ _ hpre _ => exact hwrap.layer.trans hpre.layer

theorem Rounds.layer (h : Rounds k ninth w x) : Layer w x := by
  induction h with
  | zero w => exact .refl
  | succ hround _ ih => exact hround.layer.trans ih

/-- No round has met anything that stops the peeling. -/
structure Running (p : NormalizedCommandPeel) : Prop where
  split : p.hasSplitString = false
  certain : p.envOptionsUncertain = false
  unambiguous : p.ambiguous = false

/-- A round that may leave something is followed by the remaining rounds. -/
theorem normalizeRounds_round (h : Round ninth p.words x) (hp : Running p) (k : ℕ) :
    ∃ q, normalizeRounds (k + 1) p = normalizeRounds k q ∧ q.words = x ∧ Running q ∧
      q.exhausted = (p.exhausted || ninth) := by
  have hlen := h.length_lt
  have hpeel {n : ℕ} {c : Bool} {v : List Str} (hpre : Peels 0 n c v x)
      (hn : n ≤ maxTransparentPrefixDepth) (hx : stripTransparentPrefix x = .notPrefix) :
      peelTransparentPrefixes v = some x := (peelTransparentLoop_of_peels hpre hn).1 hx
  generalize hw : p.words = w at h
  cases h with
  | full hwrap hpre hn hx =>
    subst hw
    exact ⟨_, normalizeRounds_continue (unwrap_spent hwrap) ⟨hp.split, hp.certain⟩ (hpeel hpre hn hx)
      hlen, rfl, ⟨hp.split, hp.certain, hp.unambiguous⟩, rfl⟩
  | @prefixes _ _ _ _ _ v _ hm hwrap hpos hn hpre hx =>
    subst hw
    have hne : stripTransparentPrefix v ≠ .notPrefix := by
      intro hnot
      obtain _ | _ | ⟨ht, -⟩ := hpre
      · exact absurd hpos (Nat.lt_irrefl 0)
      · rw [hnot] at ht
        cases ht
    have henv := isEnv_of_transparent hne
    have hunwrap := unwrap_noted hwrap hm (strip_eq_none_of_transparent hne)
    rw [envChdir, envSplit, envUncertain, henv] at hunwrap
    simp only [Bool.false_and, Bool.or_false] at hunwrap
    exact ⟨_, normalizeRounds_continue hunwrap ⟨hp.split, hp.certain⟩ (hpeel hpre hn hx) hlen,
      rfl, ⟨hp.split, hp.certain, hp.unambiguous⟩, (Bool.or_false _).symm⟩

theorem normalizeRounds_of_rounds (h : Rounds k ninth p.words x) (hp : Running p) :
    (normalizeRounds k p).words = x ∧ Running (normalizeRounds k p) ∧
      (normalizeRounds k p).exhausted = (p.exhausted || ninth) := by
  generalize hw : p.words = w at h
  induction h generalizing p with
  | zero w => exact ⟨hw, hp, (Bool.or_false _).symm⟩
  | succ hround _ ih =>
    subst hw
    obtain ⟨q, hq, hwords, hrunning, hexhausted⟩ := normalizeRounds_round hround hp _
    rw [hq, ← Bool.or_assoc, ← hexhausted]
    exact ih hrunning hwords

/-- What the rounds may end with. -/
inductive Outcome (k : ℕ) (w : List Str) (q : NormalizedCommandPeel) : Prop
  | noted (layer : Layer w q.words) (strip : stripWrapperCommand q.words = none)
      (transparent : stripTransparentPrefix q.words = .notPrefix)
      (unambiguous : q.ambiguous = false) (split : q.hasSplitString = envSplit q.words)
      (uncertain : q.envOptionsUncertain = envUncertain q.words)
  | ambiguous (ambiguous : q.ambiguous = true) (split : q.hasSplitString = false)
      (certain : q.envOptionsUncertain = false)
      (transparent : stripTransparentPrefix q.words ≠ .notPrefix)
  | spent (ninth : Bool) (rounds : Rounds k ninth w q.words)

/-- Where nothing is left to peel and nothing to flag, the rounds change nothing. -/
theorem normalizeRounds_settled (hs : stripWrapperCommand p.words = none)
    (ht : stripTransparentPrefix p.words = .notPrefix) (hsplit : envSplit p.words = false)
    (huncertain : envUncertain p.words = false) (hp : Running p) (k : ℕ) :
    (normalizeRounds k p).words = p.words ∧ Running (normalizeRounds k p) := by
  cases k with
  | zero => exact ⟨rfl, hp⟩
  | succ k =>
    have hunwrap := unwrap_noted (.refl p.words) (by decide) hs
    have hclear : ¬(false || false || (false || false)) = true := by decide
    rw [hsplit, huncertain, hp.split, hp.certain] at hunwrap
    rw [normalizeRounds_succ, hunwrap]
    dsimp only
    rw [if_neg hclear, peelTransparentPrefixes_self ht]
    dsimp only
    rw [if_pos rfl]
    exact ⟨rfl, rfl, rfl, hp.unambiguous⟩

theorem normalizeRounds_ambiguous_round {q : NormalizedCommandPeel} (hq : p.unwrap = q)
    (hsplit : q.hasSplitString = false) (huncertain : q.envOptionsUncertain = false)
    (hnone : peelTransparentPrefixes q.words = none)
    (hne : stripTransparentPrefix q.words ≠ .notPrefix) (k : ℕ) :
    Outcome (k + 1) p.words (normalizeRounds (k + 1) p) := by
  have hclear : ¬(q.hasSplitString || q.envOptionsUncertain) = true := by
    rw [hsplit, huncertain]
    decide
  rw [normalizeRounds_succ, hq, if_neg hclear, hnone]
  exact .ambiguous rfl hsplit huncertain hne

/-- The round that comes to a layer that cannot be peeled notes it, and peeling is over. -/
theorem normalizeRounds_last_round {m : ℕ} {c : Bool} {v : List Str} (hp : Running p)
    (hwrap : Peels m 0 c p.words v) (hm : m < maxWrapperDepth)
    (hv : stripWrapperCommand v = none) (ht : stripTransparentPrefix v = .notPrefix) (k : ℕ) :
    Outcome (k + 1) p.words (normalizeRounds (k + 1) p) := by
  have hunwrap := unwrap_noted hwrap hm hv
  rw [hp.split, hp.certain, Bool.false_or, Bool.false_or] at hunwrap
  rw [normalizeRounds_succ, hunwrap]
  dsimp only
  by_cases hflagged : (envSplit v || envUncertain v) = true
  · rw [if_pos hflagged]
    exact .noted hwrap.layer hv ht hp.unambiguous rfl rfl
  · rw [if_neg hflagged, peelTransparentPrefixes_self ht]
    dsimp only
    split_ifs
    · exact .noted hwrap.layer hv ht hp.unambiguous rfl rfl
    · rw [Bool.or_eq_true, not_or, Bool.not_eq_true, Bool.not_eq_true] at hflagged
      obtain ⟨hsplit, huncertain⟩ := hflagged
      rw [hsplit, huncertain]
      have hrunning : Running { p with
          words := v
          hasChdir := p.hasChdir || (c || envChdir v)
          hasSplitString := false
          envOptionsUncertain := false } := ⟨rfl, rfl, hp.unambiguous⟩
      obtain ⟨hwords, hend⟩ := normalizeRounds_settled (p := { p with
          words := v
          hasChdir := p.hasChdir || (c || envChdir v)
          hasSplitString := false
          envOptionsUncertain := false }) hv ht hsplit huncertain hrunning k
      refine .noted ?_ ?_ ?_ hend.unambiguous ?_ ?_
      all_goals rw [hwords]
      · exact hwrap.layer
      · exact hv
      · exact ht
      · rw [hend.split, hsplit]
      · rw [hend.certain, huncertain]

theorem normalizeRounds_outcome (hp : Running p) (k : ℕ) :
    Outcome k p.words (normalizeRounds k p) := by
  induction k generalizing p with
  | zero => exact .spent false (.zero _)
  | succ k ih =>
    obtain ⟨m, c, v, hwrap, hm, hv⟩ := exists_leading_wrappers maxWrapperDepth p.words
    have hnext {ninth : Bool} {x : List Str} (hround : Round ninth p.words x) :
        Outcome (k + 1) p.words (normalizeRounds (k + 1) p) := by
      obtain ⟨q, hq, rfl, hrunning, -⟩ := normalizeRounds_round hround hp k
      rw [hq]
      cases ih hrunning with
      | noted layer strip transparent unambiguous split uncertain =>
        exact .noted (hround.layer.trans layer) strip transparent unambiguous split uncertain
      | ambiguous ambiguous split certain transparent =>
        exact .ambiguous ambiguous split certain transparent
      | spent ninth rounds => exact .spent _ (.succ hround rounds)
    obtain hspent | hm := Nat.eq_or_lt_of_le hm
    · subst hspent
      have hunwrap := unwrap_spent hwrap
      obtain ⟨hnone, hne⟩ | ⟨n, x, hn, hpre, hx, -⟩ :=
        peelTransparentLoop_cases maxTransparentPrefixDepth v
      · exact normalizeRounds_ambiguous_round hunwrap hp.split hp.certain hnone hne k
      · exact hnext (.full hwrap hpre hn hx)
    · have hv := hv hm
      obtain ⟨hnone, hne⟩ | ⟨n, x, hn, hpre, hx, -⟩ :=
        peelTransparentLoop_cases maxTransparentPrefixDepth v
      · -- a prefix is not an `env`, so the round notes nothing
        have hunwrap := unwrap_noted hwrap hm hv
        rw [envChdir, envSplit, envUncertain, isEnv_of_transparent hne] at hunwrap
        simp only [Bool.false_and, Bool.or_false] at hunwrap
        exact normalizeRounds_ambiguous_round hunwrap hp.split hp.certain hnone hne k
      · obtain rfl | hpos := Nat.eq_zero_or_pos n
        · obtain ⟨-, -, rfl⟩ := hpre.eq_of_end rfl hv
          exact normalizeRounds_last_round hp hwrap hm hv hx k
        · exact hnext (.prefixes hm hwrap hpos hn hpre hx)

end Round

/-! ## The normal form -/

section NormalForm

variable {w x : List Str} {ninth : Bool}

/-- Nothing is left to peel, and normalizing again changes nothing. -/
structure IsNormalForm (u : List Str) : Prop where
  strip : stripWrapperCommand u = none
  transparent : stripTransparentPrefix u = .notPrefix
  fixed : (normalizeCommandWords u).words = u
  unflagged : (normalizeCommandWords u).failsClosed = false

structure ReachesNormalForm (w : List Str) : Prop where
  suffix : (normalizeCommandWords w).words <:+ w
  nonEmpty : w ≠ [] → (normalizeCommandWords w).words ≠ []
  normal : (normalizeCommandWords w).failsClosed = false →
    IsNormalForm (normalizeCommandWords w).words
  packNoted : ∀ layer, Layer w layer → Layer layer (normalizeCommandWords w).words →
    isEnv layer = true → PacksCommand layer.tail → (normalizeCommandWords w).hasSplitString = true

/-- All rounds are spent on coming to an `env` that packs its command, or to one whose options
cannot be read when no round left a ninth wrapper. -/
def UncoversEnvLast (w : List Str) : Prop :=
  ∃ ninth x, Rounds maxNormalizeRounds ninth w x ∧
    (envSplit x = true ∨ (envUncertain x = true ∧ ninth = false))

/-- The peel before the last look at what is left. -/
def roundsPeel (w : List Str) : NormalizedCommandPeel :=
  normalizeRounds maxNormalizeRounds { words := w }

theorem normalizeCommandWords_cases (w : List Str) :
    normalizeCommandWords w = roundsPeel w ∨
      (stillPeelable (roundsPeel w).words = true ∧
        normalizeCommandWords w = { roundsPeel w with exhausted := true }) := by
  unfold normalizeCommandWords
  dsimp only
  split_ifs with h
  · right
    exact ⟨(Bool.and_eq_true _ _ ▸ h).2, rfl⟩
  · left
    rfl

theorem normalizeCommandWords_rounds (w : List Str) :
    (normalizeCommandWords w).words = (roundsPeel w).words ∧
      (normalizeCommandWords w).hasSplitString = (roundsPeel w).hasSplitString ∧
      (normalizeCommandWords w).envOptionsUncertain = (roundsPeel w).envOptionsUncertain ∧
      (normalizeCommandWords w).ambiguous = (roundsPeel w).ambiguous := by
  obtain h | ⟨-, h⟩ := normalizeCommandWords_cases w <;> rw [h] <;> exact ⟨rfl, rfl, rfl, rfl⟩

theorem ne_nil_of_peeledUnlessEmpty {words : List Str} (h : peeledUnlessEmpty words = .peeled x) :
    x ≠ [] := by
  unfold peeledUnlessEmpty at h
  split at h
  · cases h
  · rename_i hne
    obtain rfl := TransparentStrip.peeled.inj h
    exact fun hnil => hne (List.isEmpty_iff.mpr hnil)

theorem ne_nil_of_stripExecArgs {args : List Str} (h : stripExecArgs args = .peeled x) : x ≠ [] := by
  fun_induction stripExecArgs args <;> grind [ne_nil_of_peeledUnlessEmpty]

theorem ne_nil_of_stripCommandArgs {args : List Str} (h : stripCommandArgs args = .peeled x) :
    x ≠ [] := by
  fun_induction stripCommandArgs args <;> grind [ne_nil_of_peeledUnlessEmpty]

theorem ne_nil_of_stripBuiltinArgs {args : List Str} (h : stripBuiltinArgs args = .peeled x) :
    x ≠ [] := by
  fun_cases stripBuiltinArgs args <;> grind [stripBuiltinArgs]

theorem ne_nil_of_peelsLayer (h : PeelsLayer w x) : x ≠ [] := by
  obtain h | h := h
  · unfold stripWrapperCommand at h
    split at h
    · cases h
    · dsimp only at h
      split_ifs at h <;> obtain ⟨rfl, hne⟩ := nonEmpty_eq_some h <;> exact hne
  · cases w with
    | nil => cases h
    | cons word args =>
      simp only [stripTransparentPrefix] at h
      split_ifs at h
      · exact ne_nil_of_stripExecArgs h
      · exact ne_nil_of_stripCommandArgs h
      · exact ne_nil_of_stripBuiltinArgs h

theorem Layer.ne_nil (h : Layer w x) (hw : w ≠ []) : x ≠ [] := by
  obtain rfl | ⟨v, -, hpeel⟩ := Relation.ReflTransGen.cases_tail h
  · exact hw
  · exact ne_nil_of_peelsLayer hpeel

theorem isNormalForm_of_end (hs : stripWrapperCommand x = none)
    (ht : stripTransparentPrefix x = .notPrefix) (hsplit : envSplit x = false)
    (huncertain : envUncertain x = false) : IsNormalForm x := by
  have hnorm := normalizeCommandWords_of_peels (.refl x) hs ht (Nat.zero_le _) (Nat.zero_le _)
  refine ⟨hs, ht, ?_, ?_⟩
  · rw [hnorm]
    rfl
  · rw [hnorm, NormalizedCommandPeel.failsClosed, peelResult, hsplit, huncertain]
    rfl

theorem roundsPeel_outcome (w : List Str) : Outcome maxNormalizeRounds w (roundsPeel w) :=
  normalizeRounds_outcome (p := { words := w }) ⟨rfl, rfl, rfl⟩ _

theorem ne_nil_normalize (hw : w ≠ []) : (normalizeCommandWords w).words ≠ [] := by
  rw [(normalizeCommandWords_rounds w).1]
  cases roundsPeel_outcome w with
  | noted layer _ _ _ _ _ => exact layer.ne_nil hw
  | ambiguous _ _ _ transparent =>
    intro hnil
    rw [hnil] at transparent
    exact transparent rfl
  | spent ninth rounds => exact rounds.layer.ne_nil hw

/-- An `env` that packs its command cannot be peeled, so it is the last layer. -/
theorem eq_of_packs {layer : List Str} (h : Layer layer x) (henv : isEnv layer = true)
    (hpacks : PacksCommand layer.tail) : x = layer ∧ envSplit layer = true := by
  have hsplit : envSplit layer = true := envSplit_iff.2 ⟨henv, hpacks⟩
  exact ⟨h.eq_of_unpeelable (strip_eq_none_of_envSplit hsplit) (notPrefix_of_isEnv henv), hsplit⟩

/-- With all the rounds spent, the peel carries no flag but that of a ninth wrapper. -/
theorem roundsPeel_spent (h : Rounds maxNormalizeRounds ninth w x) :
    (roundsPeel w).words = x ∧ Running (roundsPeel w) ∧ (roundsPeel w).exhausted = ninth := by
  have hrounds := normalizeRounds_of_rounds (p := { words := w }) h ⟨rfl, rfl, rfl⟩
  rw [Bool.false_or] at hrounds
  exact hrounds

theorem not_reachesNormalForm_of_uncovers (h : UncoversEnvLast w) : ¬ ReachesNormalForm w := by
  intro hreach
  obtain ⟨ninth, x, hrounds, hend⟩ := h
  obtain ⟨hwords, hrunning, hexhausted⟩ := roundsPeel_spent hrounds
  obtain ⟨hwords', hsplit', -, -⟩ := normalizeCommandWords_rounds w
  rw [hwords] at hwords'
  obtain hsplit | ⟨huncertain, rfl⟩ := hend
  · obtain ⟨henv, hpacks⟩ := envSplit_iff.1 hsplit
    have hnoted := hreach.packNoted x hrounds.layer (hwords' ▸ .refl) henv hpacks
    rw [hsplit', hrunning.split] at hnoted
    cases hnoted
  · have henv : isEnv x = true := (Bool.and_eq_true _ _ ▸ huncertain).1
    have hstrip : stripWrapperCommand x = none := by
      by_contra hne
      obtain ⟨v, hv⟩ := Option.ne_none_iff_exists'.mp hne
      rw [(env_flags_of_strip hv).2] at huncertain
      cases huncertain
    have htransparent := notPrefix_of_isEnv henv
    have hstill : stillPeelable x = false := by
      rw [stillPeelable, hstrip, htransparent]
      simp
    have hsame : normalizeCommandWords w = roundsPeel w := by
      obtain h | ⟨h, -⟩ := normalizeCommandWords_cases w
      · exact h
      · rw [hwords, hstill] at h
        cases h
    have hclear : (normalizeCommandWords w).failsClosed = false := by
      rw [hsame, NormalizedCommandPeel.failsClosed, hexhausted, hrunning.unambiguous,
        hrunning.certain, hrunning.split]
      rfl
    have hagain := (hreach.normal hclear).unflagged
    rw [hwords', normalizeCommandWords_of_peels (.refl x) hstrip htransparent (Nat.zero_le _)
      (Nat.zero_le _), NormalizedCommandPeel.failsClosed, peelResult, huncertain, Bool.or_true] at hagain
    cases hagain

theorem failsClosed_eq_false_iff (p : NormalizedCommandPeel) :
    p.failsClosed = false ↔ p.exhausted = false ∧ Running p := by
  simp only [NormalizedCommandPeel.failsClosed, Bool.or_eq_false_iff]
  constructor
  · rintro ⟨⟨⟨hexhausted, hambiguous⟩, hcertain⟩, hsplit⟩
    exact ⟨hexhausted, hsplit, hcertain, hambiguous⟩
  · rintro ⟨hexhausted, hsplit, hcertain, hambiguous⟩
    exact ⟨⟨⟨hexhausted, hambiguous⟩, hcertain⟩, hsplit⟩

theorem roundsPeel_of_unflagged (h : (normalizeCommandWords w).failsClosed = false) :
    (roundsPeel w).exhausted = false ∧ Running (roundsPeel w) ∧
      stillPeelable (roundsPeel w).words = false := by
  obtain ⟨hexhausted, hrunning⟩ := (failsClosed_eq_false_iff _).mp h
  have hsame : normalizeCommandWords w = roundsPeel w := by
    obtain h | ⟨-, h⟩ := normalizeCommandWords_cases w
    · exact h
    · rw [h] at hexhausted
      cases hexhausted
  rw [hsame] at hexhausted hrunning
  refine ⟨hexhausted, hrunning, ?_⟩
  by_contra hstill
  rw [Bool.not_eq_false] at hstill
  have hflagged : (normalizeCommandWords w).exhausted = true := by
    change (if !(roundsPeel w).ambiguous && !(roundsPeel w).hasSplitString &&
      !(roundsPeel w).envOptionsUncertain && stillPeelable (roundsPeel w).words then
        { roundsPeel w with exhausted := true } else roundsPeel w).exhausted = true
    rw [hrunning.unambiguous, hrunning.split, hrunning.certain, hstill]
    rfl
  rw [hsame, hexhausted] at hflagged
  cases hflagged

theorem not_stillPeelable (h : stillPeelable x = false) :
    stripWrapperCommand x = none ∧ stripTransparentPrefix x = .notPrefix := by
  rw [stillPeelable, Bool.or_eq_false_iff] at h
  refine ⟨?_, bne_eq_false_iff_eq.mp h.2⟩
  by_contra hne
  obtain ⟨v, hv⟩ := Option.ne_none_iff_exists'.mp hne
  rw [hv, isWrapperCommand_of_strip hv] at h
  cases h.1

theorem isNormalForm_of_unflagged (hnot : ¬ UncoversEnvLast w)
    (h : (normalizeCommandWords w).failsClosed = false) :
    IsNormalForm (normalizeCommandWords w).words := by
  obtain ⟨hexhausted, hrunning, hstill⟩ := roundsPeel_of_unflagged h
  obtain ⟨hstrip, htransparent⟩ := not_stillPeelable hstill
  rw [(normalizeCommandWords_rounds w).1]
  apply isNormalForm_of_end hstrip htransparent
  all_goals rw [← Bool.not_eq_true]
  all_goals intro hflag
  · cases roundsPeel_outcome w with
    | noted _ _ _ _ split _ =>
      rw [hflag, hrunning.split] at split
      cases split
    | ambiguous _ _ _ transparent => exact transparent htransparent
    | spent ninth rounds => exact hnot ⟨ninth, _, rounds, .inl hflag⟩
  · cases roundsPeel_outcome w with
    | noted _ _ _ _ _ uncertain =>
      rw [hflag, hrunning.certain] at uncertain
      cases uncertain
    | ambiguous _ _ _ transparent => exact transparent htransparent
    | spent ninth rounds =>
      have hninth := (roundsPeel_spent rounds).2.2
      exact hnot ⟨ninth, _, rounds, .inr ⟨hflag, hninth.symm.trans hexhausted⟩⟩

theorem reachesNormalForm_iff (w : List Str) : ReachesNormalForm w ↔ ¬ UncoversEnvLast w := by
  refine ⟨fun h huncovers => not_reachesNormalForm_of_uncovers huncovers h, fun hnot => ?_⟩
  obtain ⟨hwords, hsplit, -, -⟩ := normalizeCommandWords_rounds w
  refine ⟨normalizeCommandWords_suffix w, ne_nil_normalize, fun hclear => ?_,
    fun layer hlayer hbelow henv hpacks => ?_⟩
  · exact isNormalForm_of_unflagged hnot hclear
  · obtain ⟨hlast, hpacked⟩ := eq_of_packs hbelow henv hpacks
    rw [← hlast, hwords] at hpacked
    rw [hsplit]
    cases roundsPeel_outcome w with
    | noted _ _ _ _ split _ => rw [split, hpacked]
    | ambiguous _ _ _ transparent =>
      exact absurd (notPrefix_of_isEnv (isEnv_of_envSplit hpacked)) transparent
    | spent ninth rounds => exact absurd ⟨ninth, _, rounds, .inl hpacked⟩ hnot

end NormalForm

/-- Sixteen rounds of one wrapper and one prefix each, in front of an `env` that packs a command. -/
def buriedPack : List Str :=
  (List.replicate maxNormalizeRounds ["nice".toList, "command".toList]).flatten ++
    ["env".toList, "-S".toList, "rm -rf /".toList]

theorem buriedPack_unflagged : ¬ ReachesNormalForm buriedPack := by
  intro h
  have hclear : (normalizeCommandWords buriedPack).failsClosed = false := by decide +kernel
  have hwords : (normalizeCommandWords buriedPack).words =
      ["env".toList, "-S".toList, "rm -rf /".toList] := by decide +kernel
  have hagain := (h.normal hclear).unflagged
  rw [hwords] at hagain
  revert hagain
  decide +kernel

end GrokBuild.Permission
