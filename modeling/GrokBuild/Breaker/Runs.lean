import Mathlib
import GrokBuild.Lib.StepRun
import GrokBuild.Breaker.CircuitBreaker

/-!
# Whole runs of the circuit breaker

A run is a sequence of calls under a clock that never goes back. Beside the breaker the
history keeps what no field of it remembers: the reading of the last trip and, for each
stay in `HalfOpen`, the millisecond readings at which it admitted a check.
-/

namespace GrokBuild.Breaker

open StepRun

/-! ## The failure counter of the window -/

namespace SlidingWindow

/-- The counter is the number of failures stored, and the window is within its cap. -/
structure Counted (w : SlidingWindow) : Prop where
  failures : w.failures = w.entries.countP (·.2)
  length : w.entries.length ≤ maxWindowEntries

theorem release_countP (entry : ℕ × Bool) (rest : List (ℕ × Bool))
    (hlen : (entry :: rest).length ≤ maxWindowEntries) :
    release ((entry :: rest).countP (·.2)) entry.2 = rest.countP (·.2) := by
  have hle : rest.countP (·.2) ≤ rest.length := List.countP_le_length
  simp only [List.length_cons, maxWindowEntries] at hlen
  cases hf : entry.2
  · simp [release, hf]
  · simp only [release, decrement, List.countP_cons, hf, if_true]
    omega

theorem Counted.makeRoom {w : SlidingWindow} (h : w.Counted) :
    w.makeRoom.failures = w.makeRoom.entries.countP (·.2) ∧
      w.makeRoom.entries.length < maxWindowEntries := by
  obtain ⟨entries, failures⟩ := w
  obtain ⟨hf, hlen⟩ := h
  simp only [SlidingWindow.makeRoom] at hf hlen ⊢
  by_cases hfull : maxWindowEntries ≤ entries.length
  · cases entries with
    | nil => simp [maxWindowEntries] at hfull
    | cons entry rest =>
      simp only [if_pos hfull, hf]
      refine ⟨release_countP entry rest hlen, ?_⟩
      simp only [List.length_cons] at hlen
      omega
  · simp only [if_neg hfull]
    exact ⟨hf, by omega⟩

theorem Counted.push {w : SlidingWindow} (h : w.Counted) (isFailure : Bool) (instant : ℕ) :
    (w.push isFailure instant).Counted := by
  obtain ⟨hf, hlen⟩ := h.makeRoom
  constructor
  · cases isFailure <;> simp [SlidingWindow.push, hf]
  · simp only [SlidingWindow.push, List.length_append, List.length_singleton]
    omega

theorem evictBefore_counted (cutoff : ℕ) (entries : List (ℕ × Bool))
    (hlen : entries.length ≤ maxWindowEntries) :
    (evictBefore cutoff entries (entries.countP (·.2))).Counted := by
  induction entries with
  | nil => exact ⟨rfl, hlen⟩
  | cons entry rest ih =>
    by_cases hold : entry.1 < cutoff
    · simp only [evictBefore, if_pos hold, release_countP entry rest hlen]
      exact ih (by simp only [List.length_cons] at hlen; omega)
    · simp only [evictBefore, if_neg hold]
      exact ⟨rfl, hlen⟩

theorem Counted.evict {w : SlidingWindow} (h : w.Counted) (window now : ℕ) :
    (w.evict window now).Counted := by
  unfold SlidingWindow.evict
  split_ifs
  · rw [h.failures]
    exact evictBefore_counted _ _ h.length
  · exact h

theorem clear_counted (w : SlidingWindow) : w.clear.Counted :=
  ⟨rfl, Nat.zero_le _⟩

end SlidingWindow

/-! ## Admissions under a lease -/

/-- A log of admission readings, newest first. Once `slots` of them are taken each further
one comes at least `lease` after all before it. -/
def Spaced (slots lease : ℕ) : List ℕ → Prop
  | [] => True
  | m :: earlier => (∀ m' ∈ earlier, m' ≤ m) ∧
      (slots ≤ earlier.length → ∀ m' ∈ earlier, m' + lease ≤ m) ∧ Spaced slots lease earlier

def within (x y : ℕ) (log : List ℕ) : List ℕ :=
  log.filter fun m => decide (x ≤ m) && decide (m ≤ y)

/-- An interval shorter than the lease holds no more admissions than there are slots. -/
theorem Spaced.length_within_le {slots lease : ℕ} (hslots : 1 ≤ slots) {log : List ℕ}
    (h : Spaced slots lease log) {x y : ℕ} (hxy : y < x + lease) :
    (within x y log).length ≤ slots := by
  induction log with
  | nil => simp [within]
  | cons m earlier ih =>
    by_cases hm : x ≤ m ∧ m ≤ y
    · by_cases hfull : slots ≤ earlier.length
      · -- the slots were taken, so every earlier admission lies before the interval
        have hnone : within x y earlier = [] := by
          apply List.filter_eq_nil_iff.mpr
          intro m' hm'
          have := h.2.1 hfull m' hm'
          simp only [Bool.and_eq_true, decide_eq_true_eq]
          omega
        have hone : within x y (m :: earlier) = m :: within x y earlier := by
          simp only [within, List.filter_cons, hm, decide_true, Bool.and_self, if_true]
        rw [hone, hnone]
        exact hslots
      · have hle : (within x y earlier).length ≤ earlier.length := List.length_filter_le _ _
        simp only [within, List.filter_cons, hm, decide_true, Bool.and_self, if_true,
          List.length_cons] at hle ⊢
        omega
    · have hskip : within x y (m :: earlier) = within x y earlier := by
        simp only [within, List.filter_cons, Bool.and_eq_true, decide_eq_true_eq, if_neg hm]
      rw [hskip]
      exact ih h.2.2

/-- Wrapped readings never show more time than has passed. -/
theorem mod_sub_mod_le {m n : ℕ} (h : m ≤ n) (k : ℕ) : n % k - m % k ≤ n - m := by
  rcases Nat.eq_zero_or_pos k with rfl | hk
  · simp
  · have hn := Nat.div_add_mod n k
    have hm := Nat.div_add_mod m k
    have hdiv : k * (m / k) ≤ k * (n / k) := Nat.mul_le_mul_left _ (Nat.div_le_div_right h)
    omega

/-- When the time shown since the newest admission is a lease, a lease has passed since
every admission. -/
theorem Spaced.lease_passed {slots lease claimed now : ℕ} {log : List ℕ}
    (h : Spaced slots lease log) (hclaimed : ∀ m ∈ log.head?, claimed = m % 2 ^ 64)
    (hrecent : ∀ m ∈ log, m ≤ now) (hlease : lease ≤ now % 2 ^ 64 - claimed) :
    ∀ m ∈ log, m + lease ≤ now := by
  cases log with
  | nil => simp
  | cons newest earlier =>
    have hnow : newest ≤ now := hrecent newest (List.mem_cons_self ..)
    have hshown := mod_sub_mod_le hnow (2 ^ 64)
    rw [← hclaimed newest rfl] at hshown
    intro m hm
    have hle : m ≤ newest := by
      rcases List.mem_cons.mp hm with rfl | hm
      · exact le_rfl
      · exact h.1 m hm
    omega

/-! ## The history of a run -/

structure History where
  breaker : CircuitBreaker
  now : ℕ
  lastTrip : ℕ
  admitted : List ℕ
  past : List (List ℕ)

inductive Call where
  | check (reading reading' : ℕ)
  | record (outcome : Outcome) (reading reading' : ℕ)
  | errorRate (reading : ℕ)

namespace History

def start (config : BreakerConfig) (baseline : ℕ) : History where
  breaker := .withClock config baseline
  now := baseline
  lastTrip := baseline
  admitted := []
  past := []

/-- Whole milliseconds since the baseline. -/
def millis (h : History) (reading : ℕ) : ℕ := (reading - h.breaker.baseline) / nanosPerMilli

def log (answer : Except BreakerOpen Unit) (m : ℕ) (admitted : List ℕ) : List ℕ :=
  match answer with
  | .ok () => m :: admitted
  | .error _ => admitted

def afterCheck (h : History) (reading reading' : ℕ) : History :=
  let answer := h.breaker.check reading reading'
  if answer.2.state = .halfOpen then
    if h.breaker.state = .halfOpen then
      { h with
        breaker := answer.2
        now := reading'
        admitted := log answer.1 (h.millis reading) h.admitted }
    else
      -- the check that ends the cool-down begins a new stay in `HalfOpen`
      { h with
        breaker := answer.2
        now := reading'
        admitted := log answer.1 (h.millis reading') []
        past := h.admitted :: h.past }
  else { h with breaker := answer.2, now := reading' }

def afterRecord (h : History) (outcome : Outcome) (reading reading' : ℕ) : History :=
  let b := h.breaker.record outcome reading reading'
  { h with
    breaker := b
    now := reading'
    lastTrip := if h.breaker.state ≠ .opened ∧ b.state = .opened then reading' else h.lastTrip }

def step (h : History) : Call → History
  | .check reading reading' => h.afterCheck reading reading'
  | .record outcome reading reading' => h.afterRecord outcome reading reading'
  | .errorRate reading =>
    { h with breaker := (h.breaker.errorRate reading).2, now := reading }

/-- The readings of a call come in order, and not before the last one made. -/
def ClockOrder (h : History) : Call → Prop
  | .check reading reading' => h.now ≤ reading ∧ reading ≤ reading'
  | .record _ reading reading' => h.now ≤ reading ∧ reading ≤ reading'
  | .errorRate reading => h.now ≤ reading

end History

/-! ## What a call keeps -/

/-- The probe counter and the claim time follow the log of the current stay in `HalfOpen`. -/
structure ProbeLog (b : CircuitBreaker) (log : List ℕ) : Prop where
  probes : b.halfOpenProbes = min log.length b.config.halfOpenMaxProbes
  claimed : ∀ m ∈ log.head?, b.probeClaimedAtMillis = m % 2 ^ 64
  spaced : Spaced b.config.halfOpenMaxProbes b.leaseMillis log

/-- What holds of a breaker by itself between any two calls. -/
structure Sound (b : CircuitBreaker) : Prop where
  slots : 1 ≤ b.config.halfOpenMaxProbes
  disabled : b.config.enabled = false → b.state = .closed
  mirror : b.isOpenFast = decide (b.state = .opened)
  noProbes : b.state ≠ .halfOpen → b.halfOpenProbes = 0
  counted : b.window.Counted

theorem withClock_sound (config : BreakerConfig) (reading : ℕ) :
    Sound (.withClock config reading) where
  slots := Nat.le_max_right _ _
  disabled := fun _ => rfl
  mirror := rfl
  noProbes := fun _ => rfl
  counted := ⟨rfl, Nat.zero_le _⟩

namespace CircuitBreaker

/-- The breaker as the exchange from `Open` to `HalfOpen` leaves it. -/
def coolDownOver (b : CircuitBreaker) : CircuitBreaker :=
  { b with state := .halfOpen, isOpenFast := false }.notify
    (.stateChange .opened .halfOpen "open_elapsed")

/-- A check probes, ends the cool-down and probes, or leaves the breaker as it is. -/
theorem check_cases (b : CircuitBreaker) (reading reading' : ℕ) :
    (b.state = .halfOpen ∧ b.check reading reading' = b.tryHalfOpenProbe reading) ∨
    (b.state = .opened ∧ b.config.enabled = true ∧
      b.config.openDuration ≤
        (b.elapsedMillis reading - b.openedAtMillis) * nanosPerMilli ∧
      b.check reading reading' = b.coolDownOver.tryHalfOpenProbe reading') ∨
    ((b.check reading reading').2 = b ∧
      (b.config.enabled = true → b.state ≠ .halfOpen) ∧
      (b.config.enabled = true → b.state = .opened →
        (b.check reading reading').1 ≠ .ok ())) := by
  unfold check
  cases hen : b.config.enabled
  · right; right
    simp
  cases hst : b.state
  · right; right
    simp
  · by_cases hel : b.config.openDuration ≤
        (b.elapsedMillis reading - b.openedAtMillis) * nanosPerMilli
    · right; left
      refine ⟨rfl, rfl, hel, ?_⟩
      simp only [if_true, checkOpen, if_pos hel, casState, hst, coolDownOver]
    · right; right
      simp only [if_true, checkOpen, if_neg hel]
      simp
  · left
    simp

/-- A probe touches only the probe counter, the claim time and the observer. -/
theorem tryHalfOpenProbe_frame (b : CircuitBreaker) (reading : ℕ) :
    ∃ probes claimed observed, (b.tryHalfOpenProbe reading).2 =
      { b with
        halfOpenProbes := probes, probeClaimedAtMillis := claimed, observed := observed } := by
  dsimp only [tryHalfOpenProbe, notify]
  split_ifs
  · exact ⟨_, _, _, rfl⟩
  · exact ⟨b.halfOpenProbes, _, _, rfl⟩
  · exact ⟨b.halfOpenProbes, b.probeClaimedAtMillis, _, rfl⟩

end CircuitBreaker

/-- A probe made no earlier than the logged ones keeps the log spaced. -/
theorem ProbeLog.tryHalfOpenProbe {b : CircuitBreaker} {log : List ℕ} {reading : ℕ}
    (h : ProbeLog b log)
    (hrecent : ∀ m ∈ log, m ≤ (reading - b.baseline) / nanosPerMilli) :
    ProbeLog (b.tryHalfOpenProbe reading).2
      (History.log (b.tryHalfOpenProbe reading).1
        ((reading - b.baseline) / nanosPerMilli) log) := by
  obtain ⟨hprobes, hclaimed, hspaced⟩ := h
  unfold CircuitBreaker.tryHalfOpenProbe
  by_cases hfree : b.halfOpenProbes < b.config.halfOpenMaxProbes
  · have hlen : log.length < b.config.halfOpenMaxProbes := by
      rw [hprobes] at hfree
      omega
    simp only [if_pos hfree, History.log, CircuitBreaker.notify]
    refine ⟨?_, ?_, hrecent, ?_, hspaced⟩
    · simp only [hprobes, List.length_cons]
      omega
    · intro m hm
      cases hm
      rfl
    · intro hfull
      simp only at hfull
      omega
  · have hlen : b.config.halfOpenMaxProbes ≤ log.length := by
      rw [hprobes] at hfree
      omega
    by_cases hlease : b.leaseMillis ≤ b.elapsedMillis reading - b.probeClaimedAtMillis
    · simp only [if_neg hfree, if_pos hlease, History.log, CircuitBreaker.notify]
      refine ⟨?_, ?_, hrecent, fun _ => ?_, hspaced⟩
      · simp only [hprobes, List.length_cons]
        omega
      · intro m hm
        cases hm
        rfl
      · exact hspaced.lease_passed hclaimed hrecent hlease
    · simp only [if_neg hfree, if_neg hlease, History.log, CircuitBreaker.notify]
      exact ⟨hprobes, hclaimed, hspaced⟩

namespace CircuitBreaker

theorem tryHalfOpenProbe_sound {b : CircuitBreaker} (h : Sound b) (hst : b.state = .halfOpen)
    (reading : ℕ) : Sound (b.tryHalfOpenProbe reading).2 := by
  obtain ⟨probes, claimed, observed, he⟩ := b.tryHalfOpenProbe_frame reading
  rw [he]
  exact ⟨h.slots, h.disabled, h.mirror, fun hne => absurd hst hne, h.counted⟩

theorem coolDownOver_sound {b : CircuitBreaker} (h : Sound b) (hen : b.config.enabled = true) :
    Sound b.coolDownOver where
  slots := h.slots
  disabled := fun hdis => by simp [coolDownOver, notify, hen] at hdis
  mirror := rfl
  noProbes := fun hne => absurd rfl hne
  counted := h.counted

theorem notify_sound {b : CircuitBreaker} (h : Sound b) (e : Event) : Sound (b.notify e) :=
  ⟨h.slots, h.disabled, h.mirror, h.noProbes, h.counted⟩

theorem notifyChange_sound {b : CircuitBreaker} (h : Sound b) (prev new : BreakerState)
    (reason : String) : Sound (b.notifyChange prev new reason) := by
  unfold notifyChange
  split_ifs
  · exact notify_sound h _
  · exact h

theorem sample_sound {b : CircuitBreaker} (h : Sound b) (isFailure : Bool) (now : ℕ) :
    Sound (b.sample isFailure now) :=
  ⟨h.slots, h.disabled, h.mirror, h.noProbes, (h.counted.push _ _).evict _ _⟩

theorem trip_sound {b : CircuitBreaker} (h : Sound b) (hen : b.config.enabled = true)
    (prev : BreakerState) (reason : String) (reading : ℕ) :
    Sound (b.trip prev reason reading) := by
  apply notifyChange_sound
  exact ⟨h.slots, fun hdis => by simp [hen] at hdis, rfl, fun _ => rfl, h.counted⟩

theorem close_sound {b : CircuitBreaker} (h : Sound b) (prev : BreakerState)
    (reason : String) : Sound (b.close prev reason) := by
  apply notifyChange_sound
  exact ⟨h.slots, fun _ => rfl, rfl, fun _ => rfl, SlidingWindow.clear_counted b.window⟩

theorem notifyChange_frame (b : CircuitBreaker) (prev new : BreakerState) (reason : String) :
    ∃ observed, b.notifyChange prev new reason = { b with observed := observed } := by
  unfold notifyChange
  split_ifs
  · exact ⟨_, rfl⟩
  · exact ⟨b.observed, rfl⟩

theorem trip_frame (b : CircuitBreaker) (prev : BreakerState) (reason : String)
    (reading : ℕ) :
    ∃ observed, b.trip prev reason reading =
      { b with
        state := .opened, openedAtMillis := b.elapsedMillis reading, halfOpenProbes := 0
        isOpenFast := true, observed := observed } :=
  notifyChange_frame _ prev .opened reason

theorem close_frame (b : CircuitBreaker) (prev : BreakerState) (reason : String) :
    ∃ observed, b.close prev reason =
      { b with
        state := .closed, window := b.window.clear, halfOpenProbes := 0
        isOpenFast := false, observed := observed } :=
  notifyChange_frame _ prev .closed reason

@[simp] theorem notifyChange_state (b : CircuitBreaker) (prev new : BreakerState)
    (reason : String) : (b.notifyChange prev new reason).state = b.state := by
  obtain ⟨observed, he⟩ := b.notifyChange_frame prev new reason
  rw [he]

@[simp] theorem sample_state (b : CircuitBreaker) (isFailure : Bool) (now : ℕ) :
    (b.sample isFailure now).state = b.state := rfl

/-- A record trips the breaker, closes it, or samples the outcome in the state it is in. -/
theorem record_cases (b : CircuitBreaker) (outcome : Outcome) (now reading : ℕ) :
    (∃ b' prev reason, (b' = b ∨ ∃ f, b' = b.sample f now) ∧ b.state ≠ .opened ∧
      b.config.enabled = true ∧
      b.record outcome now reading =
        (b'.trip prev reason reading).notify (.outcome outcome .opened)) ∨
    (∃ prev reason, b.state = .halfOpen ∧ b.record outcome now reading =
      (b.close prev reason).notify (.outcome outcome .closed)) ∨
    (∃ f, b.state ≠ .halfOpen ∧ b.record outcome now reading =
      (b.sample f now).notify (.outcome outcome b.state)) ∨
    (b.config.enabled = false ∧ b.record outcome now reading = b) := by
  unfold record
  cases hen : b.config.enabled
  · right; right; right
    simp
  simp only [if_true]
  cases hst : b.state
  · by_cases ht : (b.sample (decide (outcome = .failure)) now).shouldTrip
    · left
      refine ⟨b.sample (decide (outcome = .failure)) now, .closed, "trip", Or.inr ⟨_, rfl⟩,
        by simp, trivial, ?_⟩
      simp only [if_pos ht, trip, notifyChange_state]
    · right; right; left
      refine ⟨decide (outcome = .failure), by simp, ?_⟩
      simp only [if_neg ht, sample_state, hst]
  · right; right; left
    refine ⟨decide (outcome = .failure), by simp, ?_⟩
    simp only [sample_state, hst]
  · by_cases hf : outcome = .failure
    · left
      refine ⟨b, .halfOpen, "probe_failure", Or.inl rfl, by simp, trivial, ?_⟩
      simp only [hf, decide_true, if_true, trip, notifyChange_state]
    · right; left
      refine ⟨.halfOpen, "probe_success", rfl, ?_⟩
      simp only [hf, decide_false, Bool.false_eq_true, if_false, close, notifyChange_state]

theorem record_sound {b : CircuitBreaker} (h : Sound b) (outcome : Outcome)
    (now reading : ℕ) : Sound (b.record outcome now reading) := by
  rcases b.record_cases outcome now reading with
    ⟨b', prev, reason, hb', _, hen, he⟩ | ⟨prev, reason, _, he⟩ | ⟨f, _, he⟩ | ⟨_, he⟩
  · rw [he]
    apply notify_sound
    rcases hb' with rfl | ⟨f, rfl⟩
    · exact trip_sound h hen prev reason reading
    · exact trip_sound (sample_sound h f now) hen prev reason reading
  · rw [he]
    exact notify_sound (close_sound h prev reason) _
  · rw [he]
    exact notify_sound (sample_sound h f now) _
  · rw [he]
    exact h

end CircuitBreaker

/-! ## The invariant of a run -/

namespace History

/-- The configuration the breaker keeps, and the state of the history between two calls. -/
structure Inv (config : BreakerConfig) (baseline : ℕ) (h : History) : Prop where
  setting : h.breaker.config =
    { config with halfOpenMaxProbes := max config.halfOpenMaxProbes 1 }
  origin : h.breaker.baseline = baseline
  sound : Sound h.breaker
  openedAt : h.breaker.state = .opened →
    h.breaker.openedAtMillis = h.breaker.elapsedMillis h.lastTrip
  tripped : h.lastTrip ≤ h.now
  current : h.breaker.state = .halfOpen → ProbeLog h.breaker h.admitted
  recent : ∀ m ∈ h.admitted, m ≤ (h.now - baseline) / nanosPerMilli
  spaced : ∀ episode ∈ h.admitted :: h.past,
    Spaced (max config.halfOpenMaxProbes 1) (asMillis config.openDuration) episode

variable {config : BreakerConfig} {baseline : ℕ} {h : History}

theorem start_inv : Inv config baseline (start config baseline) where
  setting := rfl
  origin := rfl
  sound := withClock_sound config baseline
  openedAt := fun hst => by simp [start, CircuitBreaker.withClock] at hst
  tripped := le_rfl
  current := fun hst => by simp [start, CircuitBreaker.withClock] at hst
  recent := by simp [start]
  spaced := by simp [start, Spaced]

theorem millis_mono {reading reading' : ℕ} (hle : reading ≤ reading') (baseline : ℕ) :
    (reading - baseline) / nanosPerMilli ≤ (reading' - baseline) / nanosPerMilli :=
  Nat.div_le_div_right (Nat.sub_le_sub_right hle baseline)

theorem log_recent {log : List ℕ} {m now : ℕ} (answer : Except BreakerOpen Unit)
    (hlog : ∀ m ∈ log, m ≤ now) (hm : m ≤ now) : ∀ m' ∈ History.log answer m log, m' ≤ now := by
  cases answer with
  | error e => exact hlog
  | ok _ =>
    intro m' hm'
    rcases List.mem_cons.mp hm' with rfl | hm'
    · exact hm
    · exact hlog m' hm'

/-- A probe of a breaker in `HalfOpen`, whatever led it there. -/
theorem Inv.probed {b : CircuitBreaker} {log : List ℕ} {past : List (List ℕ)}
    {probe now lastTrip : ℕ}
    (hconfig : b.config = { config with halfOpenMaxProbes := max config.halfOpenMaxProbes 1 })
    (hbase : b.baseline = baseline) (hsound : Sound b) (hst : b.state = .halfOpen)
    (hlog : ProbeLog b log) (hrecent : ∀ m ∈ log, m ≤ (probe - baseline) / nanosPerMilli)
    (hnow : probe ≤ now) (htrip : lastTrip ≤ now)
    (hpast : ∀ episode ∈ past,
      Spaced (max config.halfOpenMaxProbes 1) (asMillis config.openDuration) episode) :
    Inv config baseline ⟨(b.tryHalfOpenProbe probe).2, now, lastTrip,
      History.log (b.tryHalfOpenProbe probe).1 ((probe - baseline) / nanosPerMilli) log, past⟩ := by
  obtain ⟨probes, claimed, observed, he⟩ := b.tryHalfOpenProbe_frame probe
  have hst' : (b.tryHalfOpenProbe probe).2.state = .halfOpen := by rw [he]; exact hst
  have hconfig' : (b.tryHalfOpenProbe probe).2.config = b.config := by rw [he]
  have hlog' := hbase ▸ hlog.tryHalfOpenProbe (by rw [hbase]; exact hrecent)
  constructor
  · exact hconfig'.trans hconfig
  · rw [he]
    exact hbase
  · exact CircuitBreaker.tryHalfOpenProbe_sound hsound hst probe
  · intro hop
    rw [hst'] at hop
    cases hop
  · exact htrip
  · intro _
    exact hlog'
  · exact log_recent _ (fun m hm => (hrecent m hm).trans (millis_mono hnow baseline))
      (millis_mono hnow baseline)
  · intro episode hep
    rcases List.mem_cons.mp hep with rfl | hep
    · have hspaced := hlog'.spaced
      rw [CircuitBreaker.leaseMillis, hconfig', hconfig] at hspaced
      exact hspaced
    · exact hpast episode hep

theorem Inv.afterCheck (hi : Inv config baseline h) {reading reading' : ℕ}
    (hr : h.now ≤ reading) (hr' : reading ≤ reading') :
    Inv config baseline (h.afterCheck reading reading') := by
  have hnow := hr.trans hr'
  have hrecent (r : ℕ) (hle : h.now ≤ r) :
      ∀ m ∈ h.admitted, m ≤ (r - baseline) / nanosPerMilli :=
    fun m hm => (hi.recent m hm).trans (millis_mono hle baseline)
  rcases h.breaker.check_cases reading reading' with
    ⟨hst, he⟩ | ⟨hst, hen, _, he⟩ | ⟨he, hne, _⟩
  · obtain ⟨probes, claimed, observed, hf⟩ := h.breaker.tryHalfOpenProbe_frame reading
    have hst' : (h.breaker.tryHalfOpenProbe reading).2.state = .halfOpen := by rw [hf]; exact hst
    simp only [History.afterCheck, he, if_pos hst', if_pos hst, millis, hi.origin]
    exact Inv.probed hi.setting hi.origin hi.sound hst (hi.current hst) (hrecent _ hr) hr'
      (hi.tripped.trans hnow) (fun e hep => hi.spaced e (List.mem_cons_of_mem _ hep))
  · -- the episode that begins here has an empty log and, in `Open`, no probe counted
    obtain ⟨probes, claimed, observed, hf⟩ :=
      h.breaker.coolDownOver.tryHalfOpenProbe_frame reading'
    have hst' : (h.breaker.coolDownOver.tryHalfOpenProbe reading').2.state = .halfOpen := by
      rw [hf]
      rfl
    have hstay : h.breaker.state ≠ .halfOpen := by rw [hst]; decide
    have hlog : ProbeLog h.breaker.coolDownOver [] :=
      ⟨(hi.sound.noProbes hstay).trans (Nat.zero_min _).symm, by simp, trivial⟩
    simp only [History.afterCheck, he, if_pos hst', if_neg hstay, millis, hi.origin]
    exact Inv.probed hi.setting hi.origin (CircuitBreaker.coolDownOver_sound hi.sound hen) rfl
      hlog (by simp) le_rfl (hi.tripped.trans hnow) hi.spaced
  · have hstay : h.breaker.state ≠ .halfOpen := by
      intro hst
      cases hen : h.breaker.config.enabled
      · rw [hi.sound.disabled hen] at hst
        cases hst
      · exact hne hen hst
    simp only [History.afterCheck, he, if_neg hstay]
    exact { hi with tripped := hi.tripped.trans hnow, recent := hrecent _ hnow }

theorem Inv.afterRecord (hi : Inv config baseline h) {reading reading' : ℕ}
    (hr : h.now ≤ reading) (hr' : reading ≤ reading') (outcome : Outcome) :
    Inv config baseline (h.afterRecord outcome reading reading') := by
  have hnow := hr.trans hr'
  have hsound := CircuitBreaker.record_sound hi.sound outcome reading reading'
  have hrecent : ∀ m ∈ h.admitted, m ≤ (reading' - baseline) / nanosPerMilli :=
    fun m hm => (hi.recent m hm).trans (millis_mono hnow baseline)
  dsimp only [History.afterRecord]
  rcases h.breaker.record_cases outcome reading reading' with
    ⟨b', prev, reason, hb', hst, hen, he⟩ | ⟨prev, reason, hst, he⟩ | ⟨f, hst, he⟩ | ⟨hdis, he⟩
  · obtain ⟨observed, hf⟩ := b'.trip_frame prev reason reading'
    have hst' : (h.breaker.record outcome reading reading').state = .opened := by
      rw [he, hf]
      rfl
    have hsame : b'.config = h.breaker.config ∧ b'.baseline = h.breaker.baseline := by
      rcases hb' with rfl | ⟨f, rfl⟩ <;> exact ⟨rfl, rfl⟩
    rw [if_pos ⟨hst, hst'⟩]
    refine ⟨?_, ?_, hsound, ?_, le_rfl, ?_, hrecent, hi.spaced⟩
    · rw [he, hf]
      exact hsame.1.trans hi.setting
    · rw [he, hf]
      exact hsame.2.trans hi.origin
    · intro _
      rw [he, hf]
      rfl
    · intro hhalf
      rw [hst'] at hhalf
      cases hhalf
  · obtain ⟨observed, hf⟩ := h.breaker.close_frame prev reason
    have hst' : (h.breaker.record outcome reading reading').state = .closed := by
      rw [he, hf]
      rfl
    rw [if_neg (by simp [hst'])]
    refine ⟨?_, ?_, hsound, ?_, hi.tripped.trans hnow, ?_, hrecent, hi.spaced⟩
    · rw [he, hf]
      exact hi.setting
    · rw [he, hf]
      exact hi.origin
    · intro hopen
      rw [hst'] at hopen
      cases hopen
    · intro hhalf
      rw [hst'] at hhalf
      cases hhalf
  · rw [he] at hsound ⊢
    have hstay : ¬ (h.breaker.state ≠ .opened ∧
        ((h.breaker.sample f reading).notify (.outcome outcome h.breaker.state)).state =
          .opened) := fun hc => hc.1 hc.2
    rw [if_neg hstay]
    exact ⟨hi.setting, hi.origin, hsound, hi.openedAt, hi.tripped.trans hnow,
      fun hhalf => absurd hhalf hst, hrecent, hi.spaced⟩
  · rw [he]
    have hstay : ¬ (h.breaker.state ≠ .opened ∧ h.breaker.state = .opened) :=
      fun hc => hc.1 hc.2
    rw [if_neg hstay]
    exact { hi with tripped := hi.tripped.trans hnow, recent := hrecent }

theorem Inv.step (hi : Inv config baseline h) (call : Call) (hclock : ClockOrder h call) :
    Inv config baseline (h.step call) := by
  cases call with
  | check reading reading' => exact hi.afterCheck hclock.1 hclock.2
  | record outcome reading reading' => exact hi.afterRecord hclock.1 hclock.2 outcome
  | errorRate reading =>
    have hnow : h.now ≤ reading := hclock
    exact { hi with
      sound := { hi.sound with counted := hi.sound.counted.evict _ _ }
      current := fun hst => ⟨(hi.current hst).probes, (hi.current hst).claimed,
        (hi.current hst).spaced⟩
      tripped := hi.tripped.trans hnow
      recent := fun m hm => (hi.recent m hm).trans (millis_mono hnow baseline) }

theorem run_inv (config : BreakerConfig) (baseline : ℕ) {calls : List Call}
    (hclock : Meets step ClockOrder (start config baseline) calls) :
    Inv config baseline (run step (start config baseline) calls) := by
  refine invariant_of_meets ?_ start_inv hclock
  intro h call hi hc
  exact Inv.step hi call hc

/-- Every run keeps, after each call: the fast mirror of `Open`; the probe counter, zero
outside `HalfOpen` and within its slots; a cool-down that no check passes before
`open_duration` of whole-millisecond readings; in every stay in `HalfOpen`, no more
admissions in an interval shorter than the lease than there are slots; and a failure
counter equal to the failures stored in a window within its cap. -/
theorem run_keeps_discipline (config : BreakerConfig) (baseline : ℕ) (calls : List Call)
    (hclock : Meets step ClockOrder (start config baseline) calls) :
    let h := run step (start config baseline) calls
    (h.breaker.isOpen = true ↔ h.breaker.state = .opened) ∧
    (h.breaker.state ≠ .halfOpen → h.breaker.halfOpenProbes = 0) ∧
    h.breaker.halfOpenProbes ≤ max config.halfOpenMaxProbes 1 ∧
    (∀ reading reading', h.now ≤ reading → reading ≤ reading' → h.breaker.state = .opened →
      (h.breaker.check reading reading').1 = .ok () →
      config.openDuration ≤ (h.millis reading - h.millis h.lastTrip) * nanosPerMilli) ∧
    (∀ episode ∈ h.admitted :: h.past, ∀ x y, y < x + asMillis config.openDuration →
      (within x y episode).length ≤ max config.halfOpenMaxProbes 1) ∧
    h.breaker.window.failures = h.breaker.window.entries.countP (·.2) ∧
    h.breaker.window.entries.length ≤ maxWindowEntries := by
  intro h
  have hi : Inv config baseline h := run_inv config baseline hclock
  refine ⟨?_, hi.sound.noProbes, ?_, ?_, ?_, hi.sound.counted.failures,
    hi.sound.counted.length⟩
  · rw [CircuitBreaker.isOpen, hi.sound.mirror, decide_eq_true_eq]
  · by_cases hst : h.breaker.state = .halfOpen
    · have hprobes := (hi.current hst).probes
      rw [hi.setting] at hprobes
      simp only at hprobes
      omega
    · rw [hi.sound.noProbes hst]
      exact Nat.zero_le _
  · intro reading reading' hr _ hst hok
    rcases h.breaker.check_cases reading reading' with ⟨hst', _⟩ | ⟨_, _, hel, _⟩ | ⟨_, _, hne⟩
    · rw [hst] at hst'
      cases hst'
    · rw [hi.setting, hi.openedAt hst] at hel
      refine hel.trans (Nat.mul_le_mul_right _ ?_)
      exact mod_sub_mod_le (millis_mono (hi.tripped.trans hr) _) _
    · have hen : h.breaker.config.enabled = true := by
        by_contra hdis
        rw [hi.sound.disabled (by simpa using hdis)] at hst
        cases hst
      exact absurd hok (hne hen hst)
  · intro episode hep x y hxy
    exact (hi.spaced episode hep).length_within_le (Nat.le_max_right _ _) hxy

/-- One failure trips; the breaker stays open for ten seconds. -/
def tenSeconds : BreakerConfig where
  windowDuration := 60000000000
  minSamples := 1
  errorRateReached := fun failures samples => decide (samples ≤ 2 * failures)
  openDuration := 10000000000
  halfOpenMaxProbes := 1
  enabled := true

/-- A trip 0.9 ms after the baseline, then the checks of a lost probe and of its lease. -/
def lostProbe : List Call :=
  [.record .failure 900000 900000, .check 10000000000 10000000000,
    .check 10000000001 10000000001, .check 20000000000 20000000000]

theorem lostProbe_discipline :
    Meets step ClockOrder (start tenSeconds 0) lostProbe ∧
    (run step (start tenSeconds 0) lostProbe).admitted = [20000, 10000] ∧
    (within 10001 20000 (run step (start tenSeconds 0) lostProbe).admitted).length ≤ 1 := by
  have hclock : Meets step ClockOrder (start tenSeconds 0) lostProbe := by
    simp only [Meets, lostProbe, ClockOrder]
    decide
  refine ⟨hclock, by decide, ?_⟩
  exact (run_keeps_discipline tenSeconds 0 lostProbe hclock).2.2.2.2.1 _
    (List.mem_cons_self ..) 10001 20000 (by decide)

/-- The trip's reading is rounded down, so the check at ten seconds is admitted 0.9 ms before
`open_duration` has passed since the trip. -/
theorem open_check_admitted_early :
    Meets step ClockOrder (start tenSeconds 0) (lostProbe.take 1) ∧
    (run step (start tenSeconds 0) (lostProbe.take 1)).breaker.state = .opened ∧
    (run step (start tenSeconds 0) (lostProbe.take 1)).lastTrip = 900000 ∧
    ((run step (start tenSeconds 0) (lostProbe.take 1)).breaker.check
      10000000000 10000000000).1 = .ok () ∧
    10000000000 - 900000 < tenSeconds.openDuration := by
  refine ⟨?_, ?_, ?_, ?_, ?_⟩
  · simp only [Meets, lostProbe, List.take, ClockOrder]
    decide
  · decide
  · decide
  · rfl
  · decide

end History

end GrokBuild.Breaker
