import GrokBuild.Permission.CommandWords

/-!
# Normalization as a chain of peels

Within the budgets, the alternating loops of `normalize_command_words` follow the one chain of
single peels to its end. An added wrapper or transparent prefix therefore changes nothing but
the facts that it contributes itself.
-/

namespace GrokBuild.Permission
open Text

def isEnv (words : List Str) : Bool := decide (headName words = some "env".toList)

def envChdir (words : List Str) : Bool := isEnv words && (envScan words).chdir.isSome

def envSplit (words : List Str) : Bool := isEnv words && (envScan words).hasSplitString

def envUncertain (words : List Str) : Bool := isEnv words && (envScan words).optionsUncertain

/-- `u` is reached from `w` by `m` wrappers and `n` transparent prefixes; the flag tells whether
one of the wrappers changes the cwd. -/
inductive Peels : ℕ → ℕ → Bool → List Str → List Str → Prop
  | refl (w : List Str) : Peels 0 0 false w w
  | wrapper {m n : ℕ} {c : Bool} {w v u : List Str} :
      stripWrapperCommand w = some v → Peels m n c v u → Peels (m + 1) n (envChdir w || c) w u
  | transparent {m n : ℕ} {c : Bool} {w v u : List Str} :
      stripTransparentPrefix w = .peeled v → Peels m n c v u → Peels m (n + 1) c w u

/-- Nothing more can be peeled. -/
def Unpeelable (u : List Str) : Prop :=
  stripWrapperCommand u = none ∧ ∀ x, stripTransparentPrefix u ≠ .peeled x

/-- At most `MAX_WRAPPER_DEPTH` wrappers and `MAX_TRANSPARENT_PREFIX_DEPTH` prefixes in all. -/
def WithinPeelBudgets (w : List Str) : Prop :=
  ∃ m n c u, m ≤ maxWrapperDepth ∧ n ≤ maxTransparentPrefixDepth ∧ Peels m n c w u ∧ Unpeelable u

/-- One wrapper that leaves the cwd alone, or one transparent prefix. -/
def PeelsOnce (w v : List Str) : Prop :=
  (stripWrapperCommand w = some v ∧ envChdir w = false) ∨ stripTransparentPrefix w = .peeled v

theorem noteEnv_eq (p : CheckedWrapperPeel) :
    p.noteEnv = { p with
      hasChdir := p.hasChdir || envChdir p.words
      hasSplitString := p.hasSplitString || envSplit p.words
      envOptionsUncertain := p.envOptionsUncertain || envUncertain p.words } := by
  unfold CheckedWrapperPeel.noteEnv envChdir envSplit envUncertain isEnv
  split_ifs with h <;>
    simp only [h, decide_true, decide_false, Bool.true_and, Bool.false_and, Bool.or_false]

theorem headName_of_strip {w v : List Str} (h : stripWrapperCommand w = some v) :
    ∃ head, headName w = some head ∧
      ["timeout", "nice", "ionice", "chrt", "stdbuf", "env"].any (·.toList == head) = true := by
  unfold stripWrapperCommand at h
  split at h
  · cases h
  · rename_i head hhead
    refine ⟨head, hhead, ?_⟩
    dsimp only at h
    split_ifs at h with h1 h2 h3 h4 h5 h6
    all_goals simp_all

theorem notPrefix_of_strip {w v : List Str} (h : stripWrapperCommand w = some v) :
    stripTransparentPrefix w = .notPrefix := by
  obtain ⟨head, hhead, hany⟩ := headName_of_strip h
  cases w with
  | nil => rfl
  | cons word args =>
    have hbase : baseName word = head := by simpa [headName] using hhead
    simp only [stripTransparentPrefix, hbase]
    simp only [List.any_cons, List.any_nil, Bool.or_false, Bool.or_eq_true, beq_iff_eq] at hany
    rcases hany with rfl | rfl | rfl | rfl | rfl | rfl <;> simp

theorem strip_eq_none_of_transparent {w : List Str} (h : stripTransparentPrefix w ≠ .notPrefix) :
    stripWrapperCommand w = none := by
  cases hs : stripWrapperCommand w with
  | none => rfl
  | some v => exact absurd (notPrefix_of_strip hs) h

theorem isEnv_of_transparent {w : List Str} (h : stripTransparentPrefix w ≠ .notPrefix) :
    isEnv w = false := by
  cases w with
  | nil => rfl
  | cons word args =>
    by_contra henv
    have hbase : baseName word = "env".toList := by
      simpa [isEnv, headName] using henv
    apply h
    simp [stripTransparentPrefix, hbase]

theorem env_flags_of_strip {w v : List Str} (h : stripWrapperCommand w = some v) :
    envSplit w = false ∧ envUncertain w = false := by
  unfold stripWrapperCommand at h
  split at h
  · cases h
  · rename_i head hhead
    dsimp only at h
    unfold envSplit envUncertain isEnv
    rw [hhead]
    split_ifs at h with h1 h2 h3 h4 h5 h6 h7
    all_goals simp_all

theorem le_commandStart (chdir : Option Str) (i : ℕ) (words : List Str) :
    i ≤ (envScanFrom chdir i words).commandStart := by
  fun_induction envScanFrom chdir i words <;> grind

theorem length_strip {w v : List Str} (h : stripWrapperCommand w = some v) :
    v.length < w.length := by
  have hskip (f : Str → Bool) : (skipOptions f w.tail).length ≤ w.length - 1 := by
    simpa using (skipOptions_suffix f w.tail).length_le
  have hstart := le_commandStart none 1 w.tail
  have hne : w ≠ [] := by
    rintro rfl
    cases h
  have hpos : 0 < w.length := List.length_pos_iff.mpr hne
  unfold stripWrapperCommand at h
  split at h
  · cases h
  · dsimp only at h
    split_ifs at h <;> obtain ⟨rfl, -⟩ := nonEmpty_eq_some h
    · have := hskip timeoutTakesValue
      simp only [List.length_tail]
      omega
    · have := hskip niceTakesValue
      omega
    · have := hskip ioniceTakesValue
      omega
    · have := hskip fun _ => false
      simp only [List.length_tail]
      omega
    · have := hskip stdbufTakesValue
      omega
    · rw [List.length_drop]
      change 1 ≤ (envScan w).commandStart at hstart
      omega

theorem length_transparent {w v : List Str} (h : stripTransparentPrefix w = .peeled v) :
    v.length < w.length := by
  cases w with
  | nil => cases h
  | cons word args =>
    have hle : v.length ≤ args.length := by
      simp only [stripTransparentPrefix] at h
      split_ifs at h
      · exact (stripExecArgs_suffix h).length_le
      · exact (stripCommandArgs_suffix h).length_le
      · exact (stripBuiltinArgs_suffix h).length_le
    simp only [List.length_cons]
    omega

theorem Peels.length_le {m n : ℕ} {c : Bool} {w u : List Str} (h : Peels m n c w u) :
    u.length + m + n ≤ w.length := by
  induction h with
  | refl w => simp
  | wrapper hs _ ih =>
    have := length_strip hs
    omega
  | transparent ht _ ih =>
    have := length_transparent ht
    omega

/-- The leading wrappers of a chain. -/
theorem Peels.split_wrappers {m n : ℕ} {c : Bool} {w u : List Str} (h : Peels m n c w u)
    (hu : stripWrapperCommand u = none) :
    ∃ m₁ m₂ c₁ c₂ v, m = m₁ + m₂ ∧ c = (c₁ || c₂) ∧ Peels m₁ 0 c₁ w v ∧
      stripWrapperCommand v = none ∧ Peels m₂ n c₂ v u ∧
      ((v = u ∧ n = 0) ∨ 0 < n ∧ stripTransparentPrefix v ≠ .notPrefix) := by
  induction h with
  | refl w => exact ⟨0, 0, false, false, w, rfl, rfl, .refl w, hu, .refl w, .inl ⟨rfl, rfl⟩⟩
  | wrapper hs _ ih =>
    obtain ⟨m₁, m₂, c₁, c₂, v, rfl, rfl, hw, hv, hrest, hend⟩ := ih hu
    exact ⟨m₁ + 1, m₂, _, c₂, v, by omega, (Bool.or_assoc ..).symm, .wrapper hs hw, hv, hrest, hend⟩
  | @transparent m n c w v u ht hrest _ =>
    have hne : stripTransparentPrefix w ≠ .notPrefix := by simp [ht]
    exact ⟨0, _, false, _, _, (Nat.zero_add _).symm, rfl, .refl _, strip_eq_none_of_transparent hne,
      .transparent ht hrest, .inr ⟨Nat.succ_pos _, hne⟩⟩

/-- The leading transparent prefixes of a chain. -/
theorem Peels.split_prefixes {m n : ℕ} {c : Bool} {v u : List Str} (h : Peels m n c v u) :
    ∃ n₁ n₂ x, n = n₁ + n₂ ∧ Peels 0 n₁ false v x ∧ Peels m n₂ c x u ∧
      (x = u ∨ ∃ y, stripWrapperCommand x = some y) ∧
      (stripTransparentPrefix v ≠ .notPrefix → 0 < n → 0 < n₁) := by
  induction h with
  | refl w => exact ⟨0, 0, w, rfl, .refl w, .refl w, .inl rfl, fun _ hn => hn⟩
  | wrapper hs hrest _ =>
    exact ⟨0, _, _, (Nat.zero_add _).symm, .refl _, .wrapper hs hrest, .inr ⟨_, hs⟩,
      fun hne => absurd (notPrefix_of_strip hs) hne⟩
  | transparent ht _ ih =>
    obtain ⟨n₁, n₂, x, rfl, hp, hrest, hend, -⟩ := ih
    exact ⟨n₁ + 1, n₂, x, by omega, .transparent ht hp, hrest, hend, fun _ _ => Nat.succ_pos _⟩

theorem unwrapWrappersLoop_of_peels {m : ℕ} {c : Bool} {w v : List Str} (h : Peels m 0 c w v)
    (hv : stripWrapperCommand v = none) {k : ℕ} (hk : m ≤ k) (p : CheckedWrapperPeel)
    (hp : p.words = w) (hexh : p.exhausted = false) :
    unwrapWrappersLoop k p =
      if m < k then CheckedWrapperPeel.noteEnv { p with words := v, hasChdir := p.hasChdir || c }
      else { p with words := v, hasChdir := p.hasChdir || c } := by
  generalize hn : 0 = n at h
  induction h generalizing k p with
  | refl w =>
    have hself : { p with words := w, hasChdir := p.hasChdir || false } = p := by
      cases p
      simp_all
    rw [hself]
    cases k with
    | zero =>
      cases p
      simp_all [unwrapWrappersLoop]
    | succ k => simp [unwrapWrappersLoop, hp, hv]
  | @wrapper m n c w v u hs _ ih =>
    cases k with
    | zero => omega
    | succ k =>
      obtain ⟨hsplit, hunc⟩ := env_flags_of_strip hs
      rw [unwrapWrappersLoop, hp, hs]
      dsimp only
      rw [ih hv (by omega) _ rfl (by rw [noteEnv_eq]; exact hexh) hn]
      simp only [noteEnv_eq, hp, hsplit, hunc, Bool.or_false, Bool.or_assoc]
      split_ifs <;> first | rfl | omega
  | transparent _ _ _ => omega

theorem peelTransparentLoop_of_peels {n : ℕ} {v x : List Str} {c : Bool} (h : Peels 0 n c v x)
    {k : ℕ} (hk : n ≤ k) :
    (stripTransparentPrefix x = .notPrefix → peelTransparentLoop k v = some x) ∧
      (stripTransparentPrefix x = .ambiguous → peelTransparentLoop k v = none) := by
  generalize hm : 0 = m at h
  induction h generalizing k with
  | refl w => constructor <;> intro hx <;> cases k <;> simp [peelTransparentLoop, hx]
  | wrapper _ _ _ => omega
  | transparent ht _ ih =>
    cases k with
    | zero => omega
    | succ k =>
      have hloop := ih (k := k) (by omega) hm
      simpa [peelTransparentLoop, ht] using hloop

/-- No flag is set yet, apart from the cwd change. -/
def NormalizedCommandPeel.Clean (p : NormalizedCommandPeel) : Prop :=
  p.hasSplitString = false ∧ p.envOptionsUncertain = false ∧ p.exhausted = false ∧
    p.ambiguous = false

/-- The peel that stands at `u`, with the facts of an `env` that cannot be peeled. -/
def peelResult (hasChdir : Bool) (u : List Str) : NormalizedCommandPeel where
  words := u
  hasChdir := hasChdir || envChdir u
  hasSplitString := envSplit u
  envOptionsUncertain := envUncertain u

/-- One round's wrapper peel. The end of a run that uses up the budget is not yet noted. -/
theorem unwrap_of_peels {m : ℕ} {c : Bool} {v : List Str} (p : NormalizedCommandPeel)
    (h : Peels m 0 c p.words v) (hv : stripWrapperCommand v = none) (hm : m ≤ maxWrapperDepth)
    (hp : p.Clean) :
    p.unwrap = if m < maxWrapperDepth then peelResult (p.hasChdir || c) v
      else { words := v, hasChdir := p.hasChdir || c } := by
  obtain ⟨hs, hu, he, ha⟩ := hp
  unfold NormalizedCommandPeel.unwrap unwrapWrappersChecked
  rw [unwrapWrappersLoop_of_peels h hv hm { words := p.words } rfl rfl]
  split_ifs
  · simp [noteEnv_eq, peelResult, hs, hu, he, ha, Bool.or_assoc]
  · simp [hs, hu, he, ha]

theorem normalizeRounds_succ (k : ℕ) (p : NormalizedCommandPeel) :
    normalizeRounds (k + 1) p =
      if p.unwrap.hasSplitString || p.unwrap.envOptionsUncertain then p.unwrap
      else
        match peelTransparentPrefixes p.unwrap.words with
        | none => { p.unwrap with ambiguous := true }
        | some inner =>
          if inner.length = p.words.length then { p.unwrap with words := inner }
          else normalizeRounds k { p.unwrap with words := inner } := rfl

theorem peelTransparentPrefixes_self {u : List Str} (hu : stripTransparentPrefix u = .notPrefix) :
    peelTransparentPrefixes u = some u :=
  (peelTransparentLoop_of_peels (.refl u) (Nat.zero_le _)).1 hu

/-- At the end of a chain one more round notes the `env` that stands there, and stops. -/
theorem normalizeRounds_end {u : List Str} (hu : stripWrapperCommand u = none)
    (ht : stripTransparentPrefix u = .notPrefix) (k : ℕ) (p : NormalizedCommandPeel)
    (hw : p.words = u) (hp : p.Clean) :
    normalizeRounds (k + 1) p = peelResult p.hasChdir u := by
  have hunwrap : p.unwrap = peelResult p.hasChdir u := by
    rw [unwrap_of_peels p (v := u) (m := 0) (c := false) (hw ▸ .refl u) hu (Nat.zero_le _) hp]
    simp [maxWrapperDepth]
  rw [normalizeRounds_succ, hunwrap]
  split_ifs
  · rfl
  · change (match peelTransparentPrefixes u with | none => _ | some inner => _) = _
    rw [peelTransparentPrefixes_self ht]
    dsimp only
    rw [if_pos (by rw [hw])]
    rfl

theorem normalizeRounds_continue {k : ℕ} {p q : NormalizedCommandPeel} {x : List Str}
    (hq : p.unwrap = q) (hflags : q.hasSplitString = false ∧ q.envOptionsUncertain = false)
    (hx : peelTransparentPrefixes q.words = some x) (hlen : x.length < p.words.length) :
    normalizeRounds (k + 1) p = normalizeRounds k { q with words := x } := by
  rw [normalizeRounds_succ, hq, if_neg (by simp [hflags]), hx]
  exact if_neg hlen.ne

theorem Peels.eq_of_end {m n : ℕ} {c : Bool} {v u : List Str} (h : Peels m n c v u) (hn : n = 0)
    (hv : stripWrapperCommand v = none) : m = 0 ∧ c = false ∧ u = v := by
  cases h with
  | refl => exact ⟨rfl, rfl, rfl⟩
  | wrapper hs _ => simp [hv] at hs
  | transparent _ _ => omega

/-- A chain that ends with wrappers: the last round only notes its end. -/
theorem normalizeRounds_of_wrappers {m : ℕ} {c : Bool} {u : List Str} (p : NormalizedCommandPeel)
    (k : ℕ) (h : Peels m 0 c p.words u) (hu : stripWrapperCommand u = none)
    (ht : stripTransparentPrefix u = .notPrefix) (hm : m ≤ maxWrapperDepth) (hp : p.Clean) :
    normalizeRounds (k + 2) p = peelResult (p.hasChdir || c) u := by
  have hunwrap := unwrap_of_peels p h hu hm hp
  have hlen := h.length_le
  have hself := peelTransparentPrefixes_self ht
  by_cases hlt : m < maxWrapperDepth
  · rw [if_pos hlt] at hunwrap
    by_cases hflags : (envSplit u || envUncertain u) = true
    · rw [normalizeRounds_succ, hunwrap]
      exact if_pos hflags
    · simp only [Bool.or_eq_true, not_or, Bool.not_eq_true] at hflags
      rcases Nat.eq_zero_or_pos m with rfl | hpos
      · obtain ⟨-, rfl, hw⟩ := h.eq_of_end rfl (by
          cases h with
          | refl => exact hu)
        rw [normalizeRounds_end hu ht (k + 1) p hw.symm hp, Bool.or_false]
      · rw [normalizeRounds_continue hunwrap hflags hself (by omega),
          normalizeRounds_end hu ht k _ rfl ⟨hflags.1, hflags.2, rfl, rfl⟩]
        simp [peelResult]
  · rw [if_neg hlt] at hunwrap
    have hpos : 0 < m := by
      unfold maxWrapperDepth at hlt
      omega
    rw [normalizeRounds_continue hunwrap ⟨rfl, rfl⟩ hself (by omega),
      normalizeRounds_end hu ht k _ rfl ⟨rfl, rfl, rfl, rfl⟩]

/-- A transparent prefix stands after the leading wrappers, so this round notes nothing. -/
theorem unwrap_before_transparent {m : ℕ} {c : Bool} {v : List Str} (p : NormalizedCommandPeel)
    (h : Peels m 0 c p.words v) (hm : m ≤ maxWrapperDepth) (hp : p.Clean)
    (hpeel : stripTransparentPrefix v ≠ .notPrefix) :
    p.unwrap = { words := v, hasChdir := p.hasChdir || c } := by
  rw [unwrap_of_peels p h (strip_eq_none_of_transparent hpeel) hm hp]
  split_ifs
  · simp [peelResult, envChdir, envSplit, envUncertain, isEnv_of_transparent hpeel]
  · rfl

/-- Within the budgets the rounds follow the chain to its end. -/
theorem normalizeRounds_of_peels {n : ℕ} :
    ∀ {m : ℕ} {c : Bool} {u : List Str} (p : NormalizedCommandPeel) (k : ℕ),
      Peels m n c p.words u → stripWrapperCommand u = none →
      stripTransparentPrefix u = .notPrefix → m ≤ maxWrapperDepth →
      n ≤ maxTransparentPrefixDepth → n + 2 ≤ k → p.Clean →
      normalizeRounds k p = peelResult (p.hasChdir || c) u := by
  induction n using Nat.strong_induction_on with
  | _ n ih =>
    intro m c u p k h hu ht hm hn hk hp
    obtain ⟨k, rfl⟩ : ∃ j, k = j + 2 := ⟨k - 2, by omega⟩
    obtain ⟨m₁, m₂, c₁, c₂, v, rfl, rfl, hwrap, hv, hrest, hend⟩ := h.split_wrappers hu
    rcases hend with ⟨rfl, rfl⟩ | ⟨hpos, hpeel⟩
    · exact normalizeRounds_of_wrappers p k h hu ht hm hp
    · -- the round ends behind the next run of prefixes, and the rest has fewer of them
      obtain ⟨n₁, n₂, x, rfl, hpre, hrest', hx, hn₁⟩ := hrest.split_prefixes
      have hunwrap := unwrap_before_transparent p hwrap (by omega) hp hpeel
      have hxt : stripTransparentPrefix x = .notPrefix := by
        rcases hx with rfl | ⟨y, hy⟩
        · exact ht
        · exact notPrefix_of_strip hy
      have hpeelx : peelTransparentPrefixes v = some x :=
        (peelTransparentLoop_of_peels hpre (by omega)).1 hxt
      have hn₁ := hn₁ hpeel hpos
      have hlen₁ := hwrap.length_le
      have hlen₂ := hpre.length_le
      rw [normalizeRounds_continue hunwrap ⟨rfl, rfl⟩ hpeelx (by omega),
        ih n₂ (by omega) _ _ hrest' hu ht (by omega) (by omega) (by omega) ⟨rfl, rfl, rfl, rfl⟩]
      simp [Bool.or_assoc]

/-- A chain that ends in an ambiguous prefix is reported as ambiguous, and normalization stops
at a transparent prefix. -/
theorem normalizeRounds_ambiguous {n : ℕ} :
    ∀ {m : ℕ} {c : Bool} {u : List Str} (p : NormalizedCommandPeel) (k : ℕ),
      Peels m n c p.words u → stripTransparentPrefix u = .ambiguous → m ≤ maxWrapperDepth →
      n ≤ maxTransparentPrefixDepth → n + 1 ≤ k → p.Clean →
      (normalizeRounds k p).ambiguous = true ∧
        stripTransparentPrefix (normalizeRounds k p).words ≠ .notPrefix := by
  induction n using Nat.strong_induction_on with
  | _ n ih =>
    intro m c u p k h ht hm hn hk hp
    have hune : stripTransparentPrefix u ≠ .notPrefix := by simp [ht]
    obtain ⟨k, rfl⟩ : ∃ j, k = j + 1 := ⟨k - 1, by omega⟩
    obtain ⟨m₁, m₂, c₁, c₂, v, rfl, rfl, hwrap, hv, hrest, hend⟩ :=
      h.split_wrappers (strip_eq_none_of_transparent hune)
    have hpeel : stripTransparentPrefix v ≠ .notPrefix := by
      rcases hend with ⟨rfl, -⟩ | ⟨-, hpeel⟩
      · exact hune
      · exact hpeel
    have hunwrap := unwrap_before_transparent p hwrap (by omega) hp hpeel
    obtain ⟨n₁, n₂, x, rfl, hpre, hrest', hx, hn₁⟩ := hrest.split_prefixes
    rcases hx with rfl | ⟨y, hy⟩
    · have hnone : peelTransparentPrefixes v = none :=
        (peelTransparentLoop_of_peels hpre (by omega)).2 ht
      rw [normalizeRounds_succ, hunwrap]
      simp [hnone, hpeel]
    · have hpos : 0 < n₁ + n₂ := by
        rcases hend with ⟨rfl, hn0⟩ | ⟨hpos, -⟩
        · obtain ⟨rfl, rfl⟩ : n₁ = 0 ∧ n₂ = 0 := by omega
          obtain ⟨-, -, rfl⟩ := hpre.eq_of_end rfl hv
          simp [hv] at hy
        · exact hpos
      have hn₁ := hn₁ hpeel hpos
      have hpeelx : peelTransparentPrefixes v = some x :=
        (peelTransparentLoop_of_peels hpre (by omega)).1 (notPrefix_of_strip hy)
      have hlen₁ := hwrap.length_le
      have hlen₂ := hpre.length_le
      rw [normalizeRounds_continue hunwrap ⟨rfl, rfl⟩ hpeelx (by omega)]
      exact ih n₂ (by omega) _ _ hrest' ht (by omega) (by omega) (by omega) ⟨rfl, rfl, rfl, rfl⟩

theorem normalizeCommandWords_of_peels {m n : ℕ} {c : Bool} {w u : List Str}
    (h : Peels m n c w u) (hu : stripWrapperCommand u = none)
    (ht : stripTransparentPrefix u = .notPrefix) (hm : m ≤ maxWrapperDepth)
    (hn : n ≤ maxTransparentPrefixDepth) : normalizeCommandWords w = peelResult c u := by
  have hrounds : normalizeRounds maxNormalizeRounds { words := w } = peelResult c u := by
    refine (normalizeRounds_of_peels { words := w } _ h hu ht hm hn ?_ ⟨rfl, rfl, rfl, rfl⟩).trans ?_
    · unfold maxNormalizeRounds maxWrapperDepth
      omega
    · simp
  have hstill : stillPeelable u = false := by simp [stillPeelable, hu, ht]
  unfold normalizeCommandWords
  rw [hrounds]
  simp [peelResult, hstill]

theorem normalizeCommandWords_ambiguous {m n : ℕ} {c : Bool} {w u : List Str}
    (h : Peels m n c w u) (ht : stripTransparentPrefix u = .ambiguous) (hm : m ≤ maxWrapperDepth)
    (hn : n ≤ maxTransparentPrefixDepth) :
    (normalizeCommandWords w).ambiguous = true ∧
      stripTransparentPrefix (normalizeCommandWords w).words ≠ .notPrefix := by
  have hrounds := normalizeRounds_ambiguous { words := w } maxNormalizeRounds h ht hm hn
    (by unfold maxNormalizeRounds maxWrapperDepth; omega) ⟨rfl, rfl, rfl, rfl⟩
  unfold normalizeCommandWords
  simp only [hrounds.1, Bool.not_true, Bool.false_and, Bool.false_eq_true, if_false]
  exact ⟨trivial, hrounds.2⟩

theorem Peels.of_peelsOnce {m n : ℕ} {c : Bool} {w v u : List Str} (h : Peels m n c w u)
    (hu : Unpeelable u) (hw : PeelsOnce w v) :
    ∃ m' n', m' ≤ m ∧ n' ≤ n ∧ Peels m' n' c v u := by
  cases h with
  | refl =>
    rcases hw with ⟨hs, -⟩ | ht
    · simp [hu.1] at hs
    · exact absurd ht (hu.2 v)
  | @wrapper m n c _ v' _ hs hrest =>
    rcases hw with ⟨hs', hchdir⟩ | ht
    · obtain rfl : v' = v := Option.some.inj (hs.symm.trans hs')
      exact ⟨m, n, by omega, le_rfl, by simpa [hchdir] using hrest⟩
    · simp [notPrefix_of_strip hs] at ht
  | @transparent m n c _ v' _ ht hrest =>
    rcases hw with ⟨hs', -⟩ | ht'
    · simp [notPrefix_of_strip hs'] at ht
    · obtain rfl : v' = v := TransparentStrip.peeled.inj (ht.symm.trans ht')
      exact ⟨m, n, le_rfl, by omega, hrest⟩

/-- One more wrapper or prefix within the budgets leaves the normalized command as it was, or
both are ambiguous at a transparent prefix. -/
theorem normalizeCommandWords_peelsOnce {w v : List Str} (hw : PeelsOnce w v)
    (hb : WithinPeelBudgets w) :
    normalizeCommandWords w = normalizeCommandWords v ∨
      ((normalizeCommandWords w).ambiguous = true ∧ (normalizeCommandWords v).ambiguous = true ∧
        stripTransparentPrefix (normalizeCommandWords v).words ≠ .notPrefix) := by
  obtain ⟨m, n, c, u, hm, hn, h, hu⟩ := hb
  obtain ⟨m', n', hm', hn', h'⟩ := h.of_peelsOnce hu hw
  cases ht : stripTransparentPrefix u with
  | notPrefix =>
    left
    rw [normalizeCommandWords_of_peels h hu.1 ht hm hn,
      normalizeCommandWords_of_peels h' hu.1 ht (by omega) (by omega)]
  | peeled x => exact absurd ht (hu.2 x)
  | ambiguous =>
    right
    exact ⟨(normalizeCommandWords_ambiguous h ht hm hn).1,
      normalizeCommandWords_ambiguous h' ht (by omega) (by omega)⟩

end GrokBuild.Permission
