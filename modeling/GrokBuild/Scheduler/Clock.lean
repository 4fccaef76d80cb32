import Mathlib.Data.List.Basic
import Mathlib.Data.List.Pairwise
import Mathlib.Tactic

/-!
# The scheduler's version clock

A version is a generation (a UUID drawn when the clock is made or its revisions run out) and
a 64-bit revision. A transition is prepared before the work it describes and committed after
it: the reservation fixes the versions ahead of time, and a commit asserts that the clock has
not moved since. An assertion that fails is `none`.

`uuid n` is the `n`-th UUID drawn; the count of draws is passed along.
-/

namespace GrokBuild.Scheduler

/-- `u64::MAX + 1`. -/
def revisionLimit : ℕ := 2 ^ 64

/-- `MAX_SCHEDULER_TRANSITIONS`. -/
def maxSchedulerTransitions : ℕ := 50

structure SchedulerVersion (G : Type) where
  generation : G
  revision : ℕ
deriving DecidableEq, Repr

structure GenerationRollover (G : Type) where
  oldGeneration : G
  newGeneration : G
deriving DecidableEq, Repr

structure SchedulerReservation (G : Type) where
  source : SchedulerVersion G
  generation : G
  nextRevision : ℕ
  remaining : ℕ
  rollover : Option (GenerationRollover G)
deriving DecidableEq, Repr

structure SchedulerCommit (G : Type) where
  version : SchedulerVersion G
  rollover : Option (GenerationRollover G)
deriving DecidableEq, Repr

variable {G : Type}

/-- `SchedulerReservation::version_at`. -/
def SchedulerReservation.versionAt (r : SchedulerReservation G) (offset : ℕ) :
    Option (SchedulerVersion G) :=
  if offset < r.remaining ∧ r.nextRevision + offset < revisionLimit then
    some ⟨r.generation, r.nextRevision + offset⟩
  else none

/-- `SchedulerReservation::commit_next`: the commit, the reservation left and the clock. -/
def SchedulerReservation.commitNext [DecidableEq G] (r : SchedulerReservation G)
    (clock : SchedulerVersion G) :
    Option (SchedulerCommit G × SchedulerReservation G × SchedulerVersion G) := do
  guard (0 < r.remaining)
  guard (0 < r.nextRevision)
  let expectedSource : SchedulerVersion G :=
    match r.rollover with
    | none => ⟨r.generation, r.nextRevision - 1⟩
    | some _ => r.source
  guard (clock = expectedSource)
  let version ← r.versionAt 0
  let left := { r with rollover := none, remaining := r.remaining - 1 }
  if 0 < left.remaining then
    -- `checked_add(1).expect("preflighted revision")`
    guard (r.nextRevision + 1 < revisionLimit)
    return (⟨version, r.rollover⟩, { left with nextRevision := r.nextRevision + 1 }, version)
  else
    return (⟨version, r.rollover⟩, left, version)

/-- `SchedulerClock::new`, with the count of UUIDs drawn after it. -/
def newClock (uuid : ℕ → G) (draws : ℕ) : SchedulerVersion G × ℕ :=
  (⟨uuid draws, 0⟩, draws + 1)

/-- `SchedulerClock::prepare_transition`, with the count of UUIDs drawn after it. -/
def prepareTransition (uuid : ℕ → G) (draws : ℕ) (clock : SchedulerVersion G) (count : ℕ) :
    Option (SchedulerReservation G × ℕ) :=
  if 0 < count ∧ count ≤ maxSchedulerTransitions then
    if clock.revision + count < revisionLimit then
      some (⟨clock, clock.generation, clock.revision + 1, count, none⟩, draws)
    else
      some (⟨clock, uuid draws, 1, count, some ⟨clock.generation, uuid draws⟩⟩, draws + 1)
  else none

/-! ## The order of versions -/

/-- `v` was reached before `w`: in an earlier generation, or at a lower revision of one. -/
def Before (uuid : ℕ → G) (v w : SchedulerVersion G) : Prop :=
  ∃ i j, v.generation = uuid i ∧ w.generation = uuid j ∧
    (i < j ∨ i = j ∧ v.revision < w.revision)

variable {uuid : ℕ → G} {u v w : SchedulerVersion G}

theorem Before.trans (hu : Function.Injective uuid) (h : Before uuid u v)
    (h' : Before uuid v w) : Before uuid u w := by
  obtain ⟨i, j, hi, hj, hij⟩ := h
  obtain ⟨j', k, hj', hk, hjk⟩ := h'
  have hjj : j = j' := hu (hj.symm.trans hj')
  subst hjj
  exact ⟨i, k, hi, hk, by omega⟩

theorem Before.ne (hu : Function.Injective uuid) (h : Before uuid v w) : v ≠ w := by
  rintro rfl
  obtain ⟨i, j, hi, hj, hij⟩ := h
  have hij' : i = j := hu (hi.symm.trans hj)
  omega

/-- Within a generation the order is that of the revisions. -/
theorem Before.revision_lt (hu : Function.Injective uuid) (h : Before uuid v w)
    (hg : v.generation = w.generation) : v.revision < w.revision := by
  obtain ⟨i, j, hi, hj, hij⟩ := h
  have hij' : i = j := hu (hi.symm.trans (hg.trans hj))
  omega

/-- The clock shows a revision that fits, of a generation already drawn. -/
structure ClockOk (uuid : ℕ → G) (draws : ℕ) (clock : SchedulerVersion G) : Prop where
  revision_lt : clock.revision < revisionLimit
  drawn : ∃ k, k < draws ∧ clock.generation = uuid k

theorem ClockOk.mono {draws draws' : ℕ} {clock : SchedulerVersion G}
    (h : ClockOk uuid draws clock) (hd : draws ≤ draws') : ClockOk uuid draws' clock where
  revision_lt := h.revision_lt
  drawn := by
    obtain ⟨k, hk, hg⟩ := h.drawn
    exact ⟨k, by omega, hg⟩

end GrokBuild.Scheduler
