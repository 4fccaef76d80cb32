import Mathlib.Data.List.Basic
import Mathlib.Data.List.Chain
import Mathlib.Tactic

/-!
# The rate limiter of a monitor

A token bucket decides which events of a monitor are allowed, and a tracker counts the suppressed
ones and stops the monitor when the overload lasts. Instants are nanoseconds, and an event reads the
clock once. In any window the bucket allows its capacity, one event for each refill, and one more.
-/

namespace GrokBuild.Monitor

/-! ## Token bucket -/

/-- Nanoseconds in a millisecond. -/
def millis : ℕ := 10 ^ 6

def u32Max : ℕ := 2 ^ 32 - 1

def rateLimitRefillMs : ℕ := 2000

def autoKillThresholdMs : ℕ := 30000

structure TokenBucket where
  capacity : ℕ
  tokens : ℕ
  refillInterval : ℕ
  lastRefill : ℕ

namespace TokenBucket

def new (capacity refillIntervalMs now : ℕ) : TokenBucket :=
  ⟨capacity, capacity, refillIntervalMs * millis, now⟩

def refill (b : TokenBucket) (refills : ℕ) : TokenBucket :=
  if 0 < refills then
    { b with
      tokens := min (min (b.tokens + refills) u32Max) b.capacity
      lastRefill := b.lastRefill + b.refillInterval * refills }
  else b

/-- `none` where the code divides by an interval of no milliseconds. The number of refills is cut to
32 bits. -/
def tryConsume (b : TokenBucket) (now : ℕ) : Option (Bool × TokenBucket) :=
  if b.refillInterval / millis = 0 then none
  else
    let elapsed := now - b.lastRefill
    let refilled := b.refill (elapsed / millis / (b.refillInterval / millis) % 2 ^ 32)
    if 0 < refilled.tokens then some (true, { refilled with tokens := refilled.tokens - 1 })
    else some (false, refilled)

end TokenBucket

/-! ## Suppression -/

structure SuppressionTracker where
  suppressedCount : ℕ := 0
  lastSuppression : Option ℕ := none
  suppressionStart : Option ℕ := none
  killed : Bool := false
  killToolName : String := ""

/-- What the notice before the first event after suppressed ones is made of. -/
structure CatchUpNotice where
  count : ℕ
  killName : String

def CatchUpNotice.text (notice : CatchUpNotice) : String :=
  "[" ++ toString notice.count ++ " events suppressed -- output rate too high. Consider using " ++
    notice.killName ++ " to restart this monitor with a more selective filter.]"

/-- What the last message of a monitor is made of. -/
structure KillMessage where
  count : ℕ
  secs : ℕ

def KillMessage.text (message : KillMessage) : String :=
  "[Monitor stopped -- your script produced too much output (" ++ toString message.count ++
    " events suppressed over " ++ toString message.secs ++
    "s). Write a new monitor command that filters more aggressively -- pipe through " ++
    "grep --line-buffered, awk, or a wrapper script that only emits the specific events you need.]"

inductive RateLimitOutcome where
  | allowed (catchUpNotice : Option CatchUpNotice)
  | suppressed
  | autoKill (message : KillMessage)

/-- How long after its last suppressed event a burst has subsided. -/
def quietSpan : ℕ := rateLimitRefillMs * 3 * millis

namespace SuppressionTracker

variable (s : SuppressionTracker)

def withKillToolName (name : String) : SuppressionTracker := { s with killToolName := name }

def killName : String :=
  if s.killToolName.isEmpty then "kill_command_or_subagent" else s.killToolName

/-- An event that the bucket has a token for. The start of the overload is only looked at when there
is something to catch up on. -/
def processAvailable (now : ℕ) : RateLimitOutcome × SuppressionTracker :=
  if 0 < s.suppressedCount then
    (.allowed (some ⟨s.suppressedCount, s.killName⟩),
      { s with
        suppressedCount := 0
        suppressionStart :=
          if s.lastSuppression.any fun last => quietSpan < now - last then none
          else s.suppressionStart })
  else (.allowed none, s)

def processUnavailable (now : ℕ) : RateLimitOutcome × SuppressionTracker :=
  let start := s.suppressionStart.getD now
  let counted := { s with
    suppressedCount := s.suppressedCount + 1
    lastSuppression := some now
    suppressionStart := some start }
  let elapsed := now - start
  if autoKillThresholdMs * millis < elapsed then
    (.autoKill ⟨counted.suppressedCount, elapsed / 10 ^ 9⟩, { counted with killed := true })
  else (.suppressed, counted)

def process (tokenAvailable : Bool) (now : ℕ) : RateLimitOutcome × SuppressionTracker :=
  if s.killed then (.suppressed, s)
  else if tokenAvailable then s.processAvailable now
  else s.processUnavailable now

end SuppressionTracker

structure MonitorRateLimiter where
  bucket : TokenBucket
  suppression : SuppressionTracker

namespace MonitorRateLimiter

def new (capacity refillIntervalMs now : ℕ) (killToolName : String) : MonitorRateLimiter :=
  ⟨.new capacity refillIntervalMs now, SuppressionTracker.withKillToolName {} killToolName⟩

def processEvent (m : MonitorRateLimiter) (now : ℕ) :
    Option (Bool × RateLimitOutcome × MonitorRateLimiter) :=
  (m.bucket.tryConsume now).map fun (available, bucket) =>
    let (outcome, suppression) := m.suppression.process available now
    (available, outcome, ⟨bucket, suppression⟩)

end MonitorRateLimiter

/-! ## Runs -/

/-- An event with the verdict of the bucket on it. -/
structure Processed where
  time : ℕ
  available : Bool
  outcome : RateLimitOutcome

/-- Events at instants that never go back, from a limiter made at `start`; `last` is the instant of
the latest one. -/
inductive MonitorRun (capacity refillIntervalMs start : ℕ) (killToolName : String) :
    List Processed → MonitorRateLimiter → ℕ → Prop
  | new : MonitorRun capacity refillIntervalMs start killToolName []
      (.new capacity refillIntervalMs start killToolName) start
  | event {trace : List Processed} {m m' : MonitorRateLimiter} {last now : ℕ} {available : Bool}
      {outcome : RateLimitOutcome}
      (h : MonitorRun capacity refillIntervalMs start killToolName trace m last)
      (hlast : last ≤ now) (hstep : m.processEvent now = some (available, outcome, m')) :
      MonitorRun capacity refillIntervalMs start killToolName
        (trace ++ [⟨now, available, outcome⟩]) m' now

/-- The events one after another, as a program. -/
def processEvents (m : MonitorRateLimiter) : List ℕ → Option (List Processed × MonitorRateLimiter)
  | [] => some ([], m)
  | now :: rest => do
    let (available, outcome, m') ← m.processEvent now
    let (trace, final) ← processEvents m' rest
    pure (⟨now, available, outcome⟩ :: trace, final)

variable {capacity refillIntervalMs start last now : ℕ} {killToolName : String}
  {trace : List Processed} {m m' : MonitorRateLimiter} {b b' : TokenBucket}
  {available : Bool} {outcome : RateLimitOutcome}

/-! ## The rate -/

/-- One event at the bucket: what it refills and what it takes. -/
structure Consumed (b b' : TokenBucket) (now : ℕ) (available : Bool) (refills : ℕ) : Prop where
  count : refills = (now - b.lastRefill) / b.refillInterval % 2 ^ 32
  positive : 0 < b.refillInterval
  interval : b'.refillInterval = b.refillInterval
  capacity : b'.capacity = b.capacity
  refilled : b'.lastRefill = b.lastRefill + b.refillInterval * refills
  tokens : b'.tokens + available.toNat ≤ b.tokens + refills
  bounded : b.tokens ≤ b.capacity → b'.tokens + available.toNat ≤ b.capacity

theorem consumed_of_tryConsume (hmillis : millis ∣ b.refillInterval)
    (h : b.tryConsume now = some (available, b')) :
    ∃ refills, Consumed b b' now available refills := by
  unfold TokenBucket.tryConsume at h
  split_ifs at h with hzero
  obtain ⟨intervalMs, hinterval⟩ := hmillis
  have hpos : 0 < millis := by decide
  have hdiv : b.refillInterval / millis = intervalMs := by
    rw [hinterval]
    exact Nat.mul_div_cancel_left _ hpos
  have hquot : (now - b.lastRefill) / millis / (b.refillInterval / millis) =
      (now - b.lastRefill) / b.refillInterval := by
    rw [Nat.div_div_eq_div_mul, hdiv, ← hinterval]
  have hpositive : 0 < b.refillInterval := by
    rw [hinterval]
    rw [hdiv] at hzero
    exact Nat.mul_pos hpos (Nat.pos_of_ne_zero hzero)
  dsimp only at h
  rw [hquot] at h
  generalize hrefills : (now - b.lastRefill) / b.refillInterval % 2 ^ 32 = refills at h
  have hrefill : (b.refill refills).refillInterval = b.refillInterval ∧
      (b.refill refills).capacity = b.capacity ∧
      (b.refill refills).lastRefill = b.lastRefill + b.refillInterval * refills ∧
      (b.refill refills).tokens ≤ b.tokens + refills ∧
      (b.tokens ≤ b.capacity → (b.refill refills).tokens ≤ b.capacity) := by
    unfold TokenBucket.refill
    split_ifs with hsome
    · exact ⟨rfl, rfl, rfl, (Nat.min_le_left ..).trans (Nat.min_le_left ..),
        fun _ => Nat.min_le_right ..⟩
    · obtain rfl : refills = 0 := by omega
      exact ⟨rfl, rfl, rfl, Nat.le_refl _, id⟩
  obtain ⟨hinterval', hcapacity, hlast, htokens, hbounded⟩ := hrefill
  split_ifs at h with htoken
  · obtain ⟨rfl, rfl⟩ := Prod.mk.inj (Option.some.inj h)
    refine ⟨refills, hrefills.symm, hpositive, hinterval', hcapacity, hlast, ?_, fun hle => ?_⟩
    · show (b.refill refills).tokens - 1 + 1 ≤ _
      omega
    · show (b.refill refills).tokens - 1 + 1 ≤ _
      have := hbounded hle
      omega
  · obtain ⟨rfl, rfl⟩ := Prod.mk.inj (Option.some.inj h)
    exact ⟨refills, hrefills.symm, hpositive, hinterval', hcapacity, hlast, htokens, hbounded⟩

/-- Refills come at whole intervals after the start, and those the 32 bits cut off are lost for
good. -/
structure Credited (start now : ℕ) (b : TokenBucket) : Prop where
  millis : Monitor.millis ∣ b.refillInterval
  bounded : b.tokens ≤ b.capacity
  behind : ∃ credits lost, b.lastRefill = start + b.refillInterval * credits ∧
    (now - start) / b.refillInterval = credits + 2 ^ 32 * lost

/-- An event refills no more than the intervals that ended since the event before. -/
theorem Credited.step {refills : ℕ} (h : Credited start last b) (hstart : start ≤ last)
    (hlast : last ≤ now) (hstep : Consumed b b' now available refills) :
    Credited start now b' ∧
      (last - start) / b.refillInterval + refills ≤ (now - start) / b.refillInterval := by
  obtain ⟨hmillis, hbounded, credits, lost, hbehind, hlost⟩ := h
  have hmono : (last - start) / b.refillInterval ≤ (now - start) / b.refillInterval :=
    Nat.div_le_div_right (by omega)
  have hquot : (now - b.lastRefill) / b.refillInterval =
      (now - start) / b.refillInterval - credits := by
    rw [hbehind, ← Nat.sub_sub, Nat.sub_mul_div]
  have hcount := hstep.count
  rw [hquot] at hcount
  generalize hnow : (now - start) / b.refillInterval = ended at *
  generalize (last - start) / b.refillInterval = endedBefore at *
  -- What is lost so far is a multiple of 2 ^ 32, so it does not show in the count.
  have hsplit : ended - credits = ended - endedBefore + 2 ^ 32 * lost := by omega
  have hle : refills ≤ ended - endedBefore := by
    rw [hcount, hsplit, Nat.add_mul_mod_self_left]
    exact Nat.mod_le _ _
  refine ⟨⟨?_, ?_, credits + refills, (ended - credits) / 2 ^ 32, ?_, ?_⟩, by omega⟩
  · rw [hstep.interval]
    exact hmillis
  · have := hstep.bounded hbounded
    rw [hstep.capacity]
    omega
  · rw [hstep.refilled, hstep.interval, hbehind, Nat.mul_add, Nat.add_assoc]
  · rw [hstep.interval, hnow]
    have hdiv := Nat.mod_add_div (ended - credits) (2 ^ 32)
    omega

theorem processEvent_consumed (h : m.processEvent now = some (available, outcome, m')) :
    m.bucket.tryConsume now = some (available, m'.bucket) ∧
      m.suppression.process available now = (outcome, m'.suppression) := by
  rw [MonitorRateLimiter.processEvent, Option.map_eq_some_iff] at h
  obtain ⟨⟨verdict, bucket⟩, hconsume, heq⟩ := h
  obtain ⟨rfl, hrest⟩ := Prod.mk.inj heq
  obtain ⟨houtcome, rfl⟩ := Prod.mk.inj hrest
  exact ⟨hconsume, Prod.ext houtcome rfl⟩

theorem MonitorRun.credited
    (h : MonitorRun capacity refillIntervalMs start killToolName trace m last) :
    Credited start last m.bucket ∧ start ≤ last ∧ m.bucket.capacity = capacity ∧
      m.bucket.refillInterval = refillIntervalMs * millis := by
  induction h with
  | new =>
    refine ⟨⟨Nat.dvd_mul_left _ _, Nat.le_refl _, 0, 0, ?_, ?_⟩, Nat.le_refl _, rfl, rfl⟩
    · rw [Nat.mul_zero, Nat.add_zero]
      rfl
    · rw [Nat.sub_self, Nat.zero_div, Nat.mul_zero]
  | event _ hlast hstep ih =>
    obtain ⟨hcredited, hstart, hcapacity, hinterval⟩ := ih
    obtain ⟨hconsume, -⟩ := processEvent_consumed hstep
    obtain ⟨refills, hconsumed⟩ := consumed_of_tryConsume hcredited.millis hconsume
    exact ⟨(hcredited.step hstart hlast hconsumed).1, hstart.trans hlast,
      hconsumed.capacity.trans hcapacity, hconsumed.interval.trans hinterval⟩

def RateLimitOutcome.isAllowed : RateLimitOutcome → Bool
  | .allowed _ => true
  | _ => false

/-- The events that are allowed from an instant on. -/
def allowedFrom (since : ℕ) (trace : List Processed) : ℕ :=
  trace.countP fun e => e.outcome.isAllowed && decide (since ≤ e.time)

/-- The events that are allowed in a window. -/
def allowedWithin (since span : ℕ) (trace : List Processed) : ℕ :=
  trace.countP fun e =>
    e.outcome.isAllowed && decide (since ≤ e.time) && decide (e.time ≤ since + span)

theorem isAllowed_process {s s' : SuppressionTracker}
    (h : s.process available now = (outcome, s')) : outcome.isAllowed.toNat ≤ available.toNat := by
  unfold SuppressionTracker.process at h
  split_ifs at h with hkilled havailable
  · obtain ⟨rfl, -⟩ := Prod.mk.inj h
    exact Nat.zero_le _
  · rw [havailable]
    exact Bool.toNat_le _
  · unfold SuppressionTracker.processUnavailable at h
    dsimp only at h
    split_ifs at h
    · obtain ⟨rfl, -⟩ := Prod.mk.inj h
      exact Nat.zero_le _
    · obtain ⟨rfl, -⟩ := Prod.mk.inj h
      exact Nat.zero_le _

/-- What was allowed since the first event at or behind an instant, and the tokens that are left,
stay within the capacity and what was refilled since. -/
theorem MonitorRun.allowedFrom_le
    (h : MonitorRun capacity refillIntervalMs start killToolName trace m last) (since : ℕ) :
    (∀ e ∈ trace, e.time < since) ∨ ∃ first, since ≤ first ∧ first ≤ last ∧ start ≤ first ∧
      allowedFrom since trace + m.bucket.tokens + (first - start) / m.bucket.refillInterval ≤
        capacity + (last - start) / m.bucket.refillInterval := by
  induction h with
  | new => exact .inl nofun
  | @event trace m m' last now available outcome h hlast hstep ih =>
    obtain ⟨hcredited, hstart, hcapacity, -⟩ := h.credited
    obtain ⟨hconsume, hprocess⟩ := processEvent_consumed hstep
    obtain ⟨refills, hconsumed⟩ := consumed_of_tryConsume hcredited.millis hconsume
    have hcredit := (hcredited.step hstart hlast hconsumed).2
    have hallowed := isAllowed_process hprocess
    have hcount : ∀ since, allowedFrom since (trace ++ [⟨now, available, outcome⟩]) ≤
        allowedFrom since trace + outcome.isAllowed.toNat := by
      intro since
      rw [allowedFrom, allowedFrom, List.countP_append, List.countP_singleton]
      cases outcome.isAllowed
      · exact Nat.le_refl _
      · rw [Bool.true_and]
        split_ifs
        · exact Nat.le_refl _
        · exact Nat.le_add_right _ _
    rw [hconsumed.interval]
    obtain hbefore | ⟨first, hsince, hfirst, hstart', hle⟩ := ih
    · by_cases hnow : now < since
      · left
        intro e he
        rw [List.mem_append, List.mem_singleton] at he
        obtain hold | rfl := he
        · exact hbefore e hold
        · exact hnow
      · refine .inr ⟨now, Nat.le_of_not_lt hnow, Nat.le_refl _, hstart.trans hlast, ?_⟩
        have hnone : allowedFrom since trace = 0 := by
          rw [allowedFrom, List.countP_eq_zero]
          intro e he
          have := hbefore e he
          simp only [Bool.and_eq_true, decide_eq_true_eq, not_and]
          omega
        have hsome := hcount since
        have hbounded := hconsumed.bounded hcredited.bounded
        rw [hcapacity] at hbounded
        omega
    · refine .inr ⟨first, hsince, hfirst.trans hlast, hstart', ?_⟩
      have hsome := hcount since
      have htokens := hconsumed.tokens
      omega

/-- In any window, the capacity and one event for each refill interval in it, and one more. -/
def RateBounded (capacity refillIntervalMs : ℕ) (trace : List Processed) : Prop :=
  ∀ since span, allowedWithin since span trace ≤ capacity + span / (refillIntervalMs * millis) + 1

theorem div_sub_le_succ {i j : ℕ} (interval : ℕ) (h : i ≤ j) :
    j / interval ≤ i / interval + (j - i) / interval + 1 := by
  rcases Nat.eq_zero_or_pos interval with rfl | hpos
  · rw [Nat.div_zero]
    exact Nat.zero_le _
  · have hsplit := Nat.add_div (a := i) (b := j - i) hpos
    rw [Nat.add_sub_cancel' h] at hsplit
    rw [hsplit]
    split_ifs
    · exact Nat.le_refl _
    · exact Nat.le_succ _

theorem MonitorRun.rateBounded
    (h : MonitorRun capacity refillIntervalMs start killToolName trace m last) :
    RateBounded capacity refillIntervalMs trace := by
  induction h with
  | new => exact fun _ _ => Nat.zero_le _
  | @event trace m m' last now available outcome h hlast hstep ih =>
    intro since span
    have hrun := h.event hlast hstep
    by_cases hnow : now ≤ since + span
    · have hle : allowedWithin since span (trace ++ [⟨now, available, outcome⟩]) ≤
          allowedFrom since (trace ++ [⟨now, available, outcome⟩]) :=
        List.countP_mono_left fun e _ he => (Bool.and_eq_true _ _ ▸ he).1
      obtain ⟨-, -, -, hinterval⟩ := hrun.credited
      obtain hbefore | ⟨first, hsince, hfirst, hstart, htokens⟩ := hrun.allowedFrom_le since
      · have hnone : allowedFrom since (trace ++ [⟨now, available, outcome⟩]) = 0 := by
          rw [allowedFrom, List.countP_eq_zero]
          intro e he
          have := hbefore e he
          simp only [Bool.and_eq_true, decide_eq_true_eq, not_and]
          omega
        rw [hnone] at hle
        exact hle.trans (Nat.zero_le _)
      · rw [hinterval] at htokens
        have hspan : (now - start - (first - start)) / (refillIntervalMs * millis) ≤
            span / (refillIntervalMs * millis) := Nat.div_le_div_right (by omega)
        have hdiv := div_sub_le_succ (i := first - start) (j := now - start)
          (refillIntervalMs * millis) (by omega)
        omega
    · rw [allowedWithin, List.countP_append, List.countP_singleton, if_neg, Nat.add_zero]
      · exact ih since span
      · rw [decide_eq_false hnow, Bool.and_false]
        exact Bool.false_ne_true

end GrokBuild.Monitor
