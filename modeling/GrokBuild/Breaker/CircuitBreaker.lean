import Mathlib

/-!
# The circuit breaker

The sliding window of samples and the three-state breaker over it, as one thread drives
them. An instant is a number of nanoseconds after the earliest representable one, a
duration a number of nanoseconds. A call that reads the clock takes its readings as
arguments, in the order in which it makes them.
-/

namespace GrokBuild.Breaker

def maxWindowEntries : ℕ := 10000

structure SlidingWindow where
  entries : List (ℕ × Bool)
  failures : ℕ

namespace SlidingWindow

def new : SlidingWindow := ⟨[], 0⟩

/-- The `usize` decrement of the failure counter; below zero it wraps. -/
def decrement (n : ℕ) : ℕ := (n + (2 ^ 64 - 1)) % 2 ^ 64

def release (failures : ℕ) (wasFailure : Bool) : ℕ :=
  if wasFailure then decrement failures else failures

def makeRoom (w : SlidingWindow) : SlidingWindow :=
  if maxWindowEntries ≤ w.entries.length then
    match w.entries with
    | [] => w
    | (_, wasFailure) :: rest => ⟨rest, release w.failures wasFailure⟩
  else w

def push (w : SlidingWindow) (isFailure : Bool) (instant : ℕ) : SlidingWindow :=
  let w := w.makeRoom
  ⟨w.entries ++ [(instant, isFailure)], if isFailure then w.failures + 1 else w.failures⟩

def evictBefore (cutoff : ℕ) : List (ℕ × Bool) → ℕ → SlidingWindow
  | [], failures => ⟨[], failures⟩
  | (ts, wasFailure) :: rest, failures =>
    if ts < cutoff then evictBefore cutoff rest (release failures wasFailure)
    else ⟨(ts, wasFailure) :: rest, failures⟩

/-- A window that reaches back before the earliest representable instant evicts nothing. -/
def evict (w : SlidingWindow) (window now : ℕ) : SlidingWindow :=
  if window ≤ now then evictBefore (now - window) w.entries w.failures else w

def sampleCount (w : SlidingWindow) : ℕ := w.entries.length

def clear (_ : SlidingWindow) : SlidingWindow := ⟨[], 0⟩

end SlidingWindow

/-- `opened` is the source's `Open`. -/
inductive BreakerState where
  | closed
  | opened
  | halfOpen
  deriving DecidableEq, Repr

inductive Outcome where
  | success
  | failure
  deriving DecidableEq, Repr

structure BreakerOpen where
  retryAfter : ℕ
  deriving DecidableEq, Repr

/-- `errorRateReached failures samples` stands for the floating-point comparison
`error_rate() >= error_rate_threshold`, the rate of an empty window being `0.0`. -/
structure BreakerConfig where
  windowDuration : ℕ
  minSamples : ℕ
  errorRateReached : ℕ → ℕ → Bool
  openDuration : ℕ
  halfOpenMaxProbes : ℕ
  enabled : Bool

inductive Event where
  | stateChange (old new : BreakerState) (reason : String)
  | outcome (outcome : Outcome) (state : BreakerState)
  | probeAdmission (admitted : Bool)
  deriving DecidableEq, Repr

structure CircuitBreaker where
  config : BreakerConfig
  state : BreakerState
  baseline : ℕ
  openedAtMillis : ℕ
  halfOpenProbes : ℕ
  probeClaimedAtMillis : ℕ
  isOpenFast : Bool
  window : SlidingWindow
  observed : List Event

def nanosPerMilli : ℕ := 1000000

/-- `Duration::as_millis() as u64`. -/
def asMillis (duration : ℕ) : ℕ := duration / nanosPerMilli % 2 ^ 64

def halfOpenProbeBackoff : ℕ := 50 * nanosPerMilli

namespace CircuitBreaker

def withClock (config : BreakerConfig) (reading : ℕ) : CircuitBreaker where
  config := { config with halfOpenMaxProbes := max config.halfOpenMaxProbes 1 }
  state := .closed
  baseline := reading
  openedAtMillis := 0
  halfOpenProbes := 0
  probeClaimedAtMillis := 0
  isOpenFast := false
  window := .new
  observed := []

def isOpen (b : CircuitBreaker) : Bool := b.isOpenFast

def notify (b : CircuitBreaker) (e : Event) : CircuitBreaker :=
  { b with observed := b.observed ++ [e] }

def notifyChange (b : CircuitBreaker) (prev new : BreakerState) (reason : String) :
    CircuitBreaker :=
  if prev ≠ new then b.notify (.stateChange prev new reason) else b

def elapsedMillis (b : CircuitBreaker) (reading : ℕ) : ℕ :=
  asMillis (reading - b.baseline)

def leaseMillis (b : CircuitBreaker) : ℕ := asMillis b.config.openDuration

/-- A refused slot leaves the probe counter as it found it, and the exchange of the claim
time, which only another thread can spoil, succeeds. -/
def tryHalfOpenProbe (b : CircuitBreaker) (reading : ℕ) :
    Except BreakerOpen Unit × CircuitBreaker :=
  let now := b.elapsedMillis reading
  if b.halfOpenProbes < b.config.halfOpenMaxProbes then
    (.ok (), { b with
      halfOpenProbes := b.halfOpenProbes + 1
      probeClaimedAtMillis := now }.notify (.probeAdmission true))
  else if b.leaseMillis ≤ now - b.probeClaimedAtMillis then
    (.ok (), { b with probeClaimedAtMillis := now }.notify (.probeAdmission true))
  else
    (.error ⟨min halfOpenProbeBackoff b.config.openDuration⟩, b.notify (.probeAdmission false))

def casState (b : CircuitBreaker) (old new : BreakerState) : Bool × CircuitBreaker :=
  if b.state = old then (true, { b with state := new }) else (false, b)

def checkOpen (b : CircuitBreaker) (reading reading' : ℕ) :
    Except BreakerOpen Unit × CircuitBreaker :=
  let elapsed := (b.elapsedMillis reading - b.openedAtMillis) * nanosPerMilli
  if b.config.openDuration ≤ elapsed then
    match b.casState .opened .halfOpen with
    | (true, b) =>
      { b with isOpenFast := false }.notify (.stateChange .opened .halfOpen "open_elapsed")
        |>.tryHalfOpenProbe reading'
    | (false, b) =>
      -- the exchange was lost: the answer follows the state that won
      match b.state with
      | .closed => (.ok (), b)
      | .halfOpen => b.tryHalfOpenProbe reading'
      | .opened =>
        let elapsed := (b.elapsedMillis reading' - b.openedAtMillis) * nanosPerMilli
        (.error ⟨b.config.openDuration - elapsed⟩, b)
  else (.error ⟨b.config.openDuration - elapsed⟩, b)

def check (b : CircuitBreaker) (reading reading' : ℕ) :
    Except BreakerOpen Unit × CircuitBreaker :=
  if b.config.enabled then
    match b.state with
    | .closed => (.ok (), b)
    | .opened => b.checkOpen reading reading'
    | .halfOpen => b.tryHalfOpenProbe reading
  else (.ok (), b)

def trip (b : CircuitBreaker) (prev : BreakerState) (reason : String) (reading : ℕ) :
    CircuitBreaker :=
  { b with
    state := .opened
    openedAtMillis := b.elapsedMillis reading
    halfOpenProbes := 0
    isOpenFast := true }.notifyChange prev .opened reason

def close (b : CircuitBreaker) (prev : BreakerState) (reason : String) : CircuitBreaker :=
  { b with
    state := .closed
    window := b.window.clear
    halfOpenProbes := 0
    isOpenFast := false }.notifyChange prev .closed reason

def sample (b : CircuitBreaker) (isFailure : Bool) (now : ℕ) : CircuitBreaker :=
  { b with window := (b.window.push isFailure now).evict b.config.windowDuration now }

def shouldTrip (b : CircuitBreaker) : Bool :=
  decide (b.config.minSamples ≤ b.window.sampleCount) &&
    b.config.errorRateReached b.window.failures b.window.entries.length

def record (b : CircuitBreaker) (outcome : Outcome) (now reading : ℕ) : CircuitBreaker :=
  if b.config.enabled then
    let isFailure := decide (outcome = .failure)
    let b := match b.state with
      | .closed =>
        let b' := b.sample isFailure now
        if b'.shouldTrip then b'.trip .closed "trip" reading else b'
      | .halfOpen =>
        if isFailure then b.trip .halfOpen "probe_failure" reading
        else b.close .halfOpen "probe_success"
      | .opened => b.sample isFailure now
    b.notify (.outcome outcome b.state)
  else b

/-- The window that the reported rate is computed from. -/
def errorRate (b : CircuitBreaker) (now : ℕ) : (ℕ × ℕ) × CircuitBreaker :=
  let window := b.window.evict b.config.windowDuration now
  ((window.failures, window.entries.length), { b with window })

end CircuitBreaker

end GrokBuild.Breaker
