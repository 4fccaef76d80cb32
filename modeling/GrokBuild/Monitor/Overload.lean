import Mathlib
import GrokBuild.Monitor.RateLimiter

/-!
# Overload of a monitor

The notices and the kill message account for every event suppressed up to the kill. The start of an
overload is only cleared at a notice, so a monitor is killed for an overload that lasted if after
every suppressed event either the next one comes soon or the first event is allowed late.
-/

namespace GrokBuild.Monitor

variable {capacity refillIntervalMs start last now : ℕ} {killToolName : String}
  {trace : List Processed} {m m' : MonitorRateLimiter} {s s' : SuppressionTracker}
  {available : Bool} {outcome : RateLimitOutcome}

/-! ## What an event does -/

/-- An event at the tracker. -/
inductive Tracked (s : SuppressionTracker) (now : ℕ) :
    Bool → RateLimitOutcome → SuppressionTracker → Prop
  | discarded {available : Bool} (hkilled : s.killed = true) : Tracked s now available .suppressed s
  | passed (hkilled : s.killed = false) (hcount : s.suppressedCount = 0) :
      Tracked s now true (.allowed none) s
  | caughtUp (hkilled : s.killed = false) (hcount : 0 < s.suppressedCount) :
      Tracked s now true (.allowed (some ⟨s.suppressedCount, s.killName⟩))
        { s with
          suppressedCount := 0
          suppressionStart :=
            if s.lastSuppression.any fun last => quietSpan < now - last then none
            else s.suppressionStart }
  | suppressed (hkilled : s.killed = false)
      (hshort : now - s.suppressionStart.getD now ≤ autoKillThresholdMs * millis) :
      Tracked s now false .suppressed
        { s with
          suppressedCount := s.suppressedCount + 1
          lastSuppression := some now
          suppressionStart := some (s.suppressionStart.getD now) }
  | stopped (hkilled : s.killed = false)
      (hlong : autoKillThresholdMs * millis < now - s.suppressionStart.getD now) :
      Tracked s now false
        (.autoKill ⟨s.suppressedCount + 1, (now - s.suppressionStart.getD now) / 10 ^ 9⟩)
        { s with
          suppressedCount := s.suppressedCount + 1
          lastSuppression := some now
          suppressionStart := some (s.suppressionStart.getD now)
          killed := true }

theorem tracked_of_process (h : s.process available now = (outcome, s')) :
    Tracked s now available outcome s' := by
  unfold SuppressionTracker.process at h
  split_ifs at h with hkilled havailable
  · obtain ⟨rfl, rfl⟩ := Prod.mk.inj h
    exact .discarded hkilled
  · rw [Bool.not_eq_true] at hkilled
    subst havailable
    unfold SuppressionTracker.processAvailable at h
    by_cases hcount : 0 < s.suppressedCount
    · rw [if_pos hcount] at h
      obtain ⟨rfl, rfl⟩ := Prod.mk.inj h
      exact .caughtUp hkilled hcount
    · rw [if_neg hcount] at h
      obtain ⟨rfl, rfl⟩ := Prod.mk.inj h
      exact .passed hkilled (Nat.eq_zero_of_not_pos hcount)
  · rw [Bool.not_eq_true] at hkilled havailable
    subst havailable
    unfold SuppressionTracker.processUnavailable at h
    dsimp only at h
    split_ifs at h with hlong
    · obtain ⟨rfl, rfl⟩ := Prod.mk.inj h
      exact .stopped hkilled hlong
    · obtain ⟨rfl, rfl⟩ := Prod.mk.inj h
      exact .suppressed hkilled (Nat.le_of_not_lt hlong)

/-! ## Accounting -/

namespace RateLimitOutcome

/-- The number of suppressed events that the outcome tells of. -/
def announced : RateLimitOutcome → ℕ
  | .allowed (some notice) => notice.count
  | .allowed none => 0
  | .suppressed => 0
  | .autoKill message => message.count

def isSuppressed : RateLimitOutcome → Bool
  | .allowed _ => false
  | .suppressed => true
  | .autoKill _ => true

def isKill : RateLimitOutcome → Bool
  | .autoKill _ => true
  | _ => false

end RateLimitOutcome

/-- The events up to the kill and with it. Later ones are discarded. -/
def untilKill : List Processed → List Processed
  | [] => []
  | e :: rest => if e.outcome.isKill then [e] else e :: untilKill rest

theorem untilKill_of_alive (h : ∀ e ∈ trace, e.outcome.isKill = false) (rest : List Processed) :
    untilKill (trace ++ rest) = trace ++ untilKill rest := by
  induction trace with
  | nil => rfl
  | cons e trace ih =>
    rw [List.cons_append, untilKill, h e List.mem_cons_self, if_neg Bool.false_ne_true,
      ih fun e he => h e (List.mem_cons_of_mem _ he), List.cons_append]

theorem untilKill_of_killed (h : ∃ e ∈ trace, e.outcome.isKill = true) (rest : List Processed) :
    untilKill (trace ++ rest) = untilKill trace := by
  induction trace with
  | nil =>
    obtain ⟨e, he, -⟩ := h
    cases he
  | cons e trace ih =>
    rw [List.cons_append, untilKill, untilKill]
    split_ifs with hkill
    · rfl
    · obtain ⟨k, hk, hkilled⟩ := h
      obtain rfl | hmem := List.mem_cons.mp hk
      · exact absurd hkilled hkill
      · rw [ih ⟨k, hmem, hkilled⟩]

def announcedSum (trace : List Processed) : ℕ := (trace.map fun e => e.outcome.announced).sum

def suppressedTotal (trace : List Processed) : ℕ := trace.countP fun e => e.outcome.isSuppressed

/-- What is announced, and what is still to be announced while the monitor is alive, is what was
suppressed. -/
def Accounted (trace : List Processed) (m : MonitorRateLimiter) : Prop :=
  announcedSum trace + (if m.suppression.killed then 0 else m.suppression.suppressedCount) =
    suppressedTotal (untilKill trace)

theorem announcedSum_append (trace : List Processed) (e : Processed) :
    announcedSum (trace ++ [e]) = announcedSum trace + e.outcome.announced := by
  rw [announcedSum, List.map_append, List.map_singleton, List.sum_append, List.sum_singleton,
    announcedSum]

theorem suppressedTotal_append (trace : List Processed) (e : Processed) :
    suppressedTotal (trace ++ [e]) = suppressedTotal trace + e.outcome.isSuppressed.toNat := by
  rw [suppressedTotal, List.countP_append, List.countP_singleton, suppressedTotal]
  cases e.outcome.isSuppressed
  · rfl
  · rfl

theorem MonitorRun.killed_iff
    (h : MonitorRun capacity refillIntervalMs start killToolName trace m last) :
    m.suppression.killed = true ↔ ∃ e ∈ trace, e.outcome.isKill = true := by
  induction h with
  | new => exact ⟨nofun, fun ⟨_, he, _⟩ => nomatch he⟩
  | @event trace m m' last now available outcome h hlast hstep ih =>
    have htracked := tracked_of_process (processEvent_consumed hstep).2
    have hsplit : (∃ e ∈ trace ++ [(⟨now, available, outcome⟩ : Processed)],
        e.outcome.isKill = true) ↔ m.suppression.killed = true ∨ outcome.isKill = true := by
      rw [ih]
      constructor
      · rintro ⟨e, he, hkill⟩
        rw [List.mem_append, List.mem_singleton] at he
        obtain hold | rfl := he
        · exact .inl ⟨e, hold, hkill⟩
        · exact .inr hkill
      · rintro (⟨e, he, hkill⟩ | hkill)
        · exact ⟨e, List.mem_append_left _ he, hkill⟩
        · exact ⟨_, List.mem_append_right _ (List.mem_singleton_self _), hkill⟩
    rw [hsplit]
    generalize m'.suppression = after at htracked
    cases htracked with
    | discarded hkilled => exact iff_of_true hkilled (.inl hkilled)
    | passed hkilled _ => exact by simp [hkilled, RateLimitOutcome.isKill]
    | caughtUp hkilled _ => exact by simp [hkilled, RateLimitOutcome.isKill]
    | suppressed hkilled _ => exact by simp [hkilled, RateLimitOutcome.isKill]
    | stopped => exact iff_of_true rfl (.inr rfl)

theorem MonitorRun.alive
    (h : MonitorRun capacity refillIntervalMs start killToolName trace m last)
    (halive : m.suppression.killed = false) : ∀ e ∈ trace, e.outcome.isKill = false := by
  intro e he
  by_contra hkill
  rw [Bool.not_eq_false] at hkill
  rw [h.killed_iff.mpr ⟨e, he, hkill⟩] at halive
  cases halive

theorem untilKill_singleton (e : Processed) : untilKill [e] = [e] := by
  rw [untilKill, untilKill]
  split_ifs
  · rfl
  · rfl

/-- While the monitor is alive every event counts. -/
theorem MonitorRun.untilKill_event {e : Processed}
    (h : MonitorRun capacity refillIntervalMs start killToolName trace m last)
    (halive : m.suppression.killed = false) :
    untilKill trace = trace ∧ untilKill (trace ++ [e]) = trace ++ [e] := by
  have hold := untilKill_of_alive (h.alive halive) []
  have hnew := untilKill_of_alive (h.alive halive) [e]
  rw [untilKill, List.append_nil] at hold
  rw [untilKill_singleton] at hnew
  exact ⟨hold, hnew⟩

theorem Tracked.accounted (h : Tracked s now available outcome s') (halive : s.killed = false) :
    outcome.announced + (if s'.killed then 0 else s'.suppressedCount) =
      s.suppressedCount + outcome.isSuppressed.toNat := by
  cases h with
  | discarded hkilled =>
    rw [halive] at hkilled
    cases hkilled
  | passed _ _ =>
    rw [halive]
    exact Nat.zero_add _
  | caughtUp _ _ =>
    dsimp only
    rw [halive]
    rfl
  | suppressed _ _ =>
    dsimp only
    rw [halive]
    exact Nat.zero_add _
  | stopped _ _ => rfl

theorem MonitorRun.accounted
    (h : MonitorRun capacity refillIntervalMs start killToolName trace m last) :
    Accounted trace m := by
  induction h with
  | new => rfl
  | @event trace m m' last now available outcome h hlast hstep ih =>
    have htracked := tracked_of_process (processEvent_consumed hstep).2
    unfold Accounted at ih ⊢
    rw [announcedSum_append]
    by_cases hkilled : m.suppression.killed = true
    · rw [untilKill_of_killed (h.killed_iff.mp hkilled)]
      rw [if_pos hkilled] at ih
      have hdiscarded : outcome = .suppressed ∧ m'.suppression = m.suppression := by
        have hprocess := (processEvent_consumed hstep).2
        rw [SuppressionTracker.process, if_pos hkilled] at hprocess
        obtain ⟨houtcome, hsame⟩ := Prod.mk.inj hprocess
        exact ⟨houtcome.symm, hsame.symm⟩
      rw [hdiscarded.1, hdiscarded.2, if_pos hkilled]
      exact ih
    · rw [Bool.not_eq_true] at hkilled
      obtain ⟨hold, hnew⟩ := h.untilKill_event hkilled (e := ⟨now, available, outcome⟩)
      have hstep' := htracked.accounted hkilled
      rw [hnew, suppressedTotal_append]
      rw [hold, hkilled, if_neg Bool.false_ne_true] at ih
      dsimp only
      omega

/-! ## The start of an overload -/

def verdicts (trace : List Processed) : List (ℕ × Bool) := trace.map fun e => (e.time, e.available)

/-- Of the events after a suppressed one at `l`, the next suppressed one comes soon, or the first is
allowed late, when its notice clears the start. -/
def recovers (l : ℕ) (rest : List (ℕ × Bool)) : Bool :=
  match rest.dropWhile Prod.snd with
  | [] => true
  | next :: _ =>
    decide (next.1 ≤ l + quietSpan) ||
      match rest with
      | [] => false
      | first :: _ => first.2 && decide (l + quietSpan < first.1)

/-- After every suppressed event the overload goes on or has ended late. -/
def subsides : List (ℕ × Bool) → Bool
  | [] => true
  | (time, available) :: rest => (available || recovers time rest) && subsides rest

variable {l : ℕ} {before allowed events : List (ℕ × Bool)} {e : ℕ × Bool}

theorem recovers_of_append (h : recovers l (events ++ [e]) = true) : recovers l events = true := by
  unfold recovers at h ⊢
  cases hdrop : events.dropWhile Prod.snd with
  | nil => rfl
  | cons next rest =>
    rw [List.dropWhile_append, hdrop] at h
    cases events with
    | nil => cases hdrop
    | cons first events => exact h

theorem subsides_of_append (h : subsides (events ++ [e]) = true) : subsides events = true := by
  induction events with
  | nil => rfl
  | cons first events ih =>
    rw [List.cons_append, subsides, Bool.and_eq_true, Bool.or_eq_true] at h
    rw [subsides, Bool.and_eq_true, Bool.or_eq_true]
    exact ⟨h.1.imp_right recovers_of_append, ih h.2⟩

theorem subsides_right (h : subsides (before ++ events) = true) : subsides events = true := by
  induction before with
  | nil => exact h
  | cons first before ih =>
    rw [List.cons_append, subsides, Bool.and_eq_true] at h
    exact ih h.2

/-- The next suppressed event comes soon, if none of the events between is a late first one. -/
theorem soon_of_subsides {t : ℕ}
    (h : subsides (before ++ (l, false) :: allowed ++ [(t, false)]) = true)
    (hallowed : ∀ e ∈ allowed, e.2 = true)
    (hearly : ∀ e, allowed.head? = some e → e.1 ≤ l + quietSpan) : t ≤ l + quietSpan := by
  rw [List.append_assoc] at h
  have htail := subsides_right h
  rw [List.cons_append, subsides, Bool.and_eq_true, Bool.false_or] at htail
  unfold recovers at htail
  have hdrop : (allowed ++ [(t, false)]).dropWhile Prod.snd = [(t, false)] := by
    rw [List.dropWhile_append_of_pos hallowed]
    rfl
  rw [hdrop] at htail
  obtain ⟨hsoon, -⟩ := htail
  cases allowed with
  | nil => simpa using hsoon
  | cons first allowed =>
    have hfirst := hearly first rfl
    simp only [List.cons_append, Bool.or_eq_true, decide_eq_true_eq, Bool.and_eq_true] at hsoon
    omega

def suppressionTimes (trace : List Processed) : List ℕ :=
  (trace.filter fun e => e.outcome.isSuppressed).map Processed.time

/-- The suppressed events, from the start that the threshold is measured from, are never further apart
than three refill intervals, and go on for longer than the threshold. -/
def KilledForOverload (trace : List Processed) (m : MonitorRateLimiter) : Prop :=
  m.suppression.killed = true → ∃ began earlier later killedAt,
    m.suppression.suppressionStart = some began ∧
    suppressionTimes (untilKill trace) = earlier ++ began :: later ∧
    (began :: later).getLast? = some killedAt ∧ began + autoKillThresholdMs * millis < killedAt ∧
    (began :: later).IsChain fun a b => b ≤ a + quietSpan

/-- A live tracker on the events so far. -/
structure Overload (trace : List Processed) (s : SuppressionTracker) : Prop where
  started : ∀ began, s.suppressionStart = some began → ∃ earlier later,
    suppressionTimes trace = earlier ++ began :: later ∧
    (began :: later).getLast? = s.lastSuppression ∧
    (began :: later).IsChain fun a b => b ≤ a + quietSpan
  tail : ∀ l, s.lastSuppression = some l → ∃ before allowed,
    verdicts trace = before ++ (l, false) :: allowed ∧ (∀ e ∈ allowed, e.2 = true) ∧
    (s.suppressedCount = 0 ↔ allowed ≠ []) ∧
    (s.suppressionStart.isSome = true → ∀ e, allowed.head? = some e → e.1 ≤ l + quietSpan)
  fresh : s.lastSuppression = none → s.suppressionStart = none ∧ s.suppressedCount = 0

theorem suppressionTimes_append (trace : List Processed) (e : Processed) :
    suppressionTimes (trace ++ [e]) =
      suppressionTimes trace ++ if e.outcome.isSuppressed then [e.time] else [] := by
  rw [suppressionTimes, List.filter_append, List.map_append, suppressionTimes]
  cases hsuppressed : e.outcome.isSuppressed
  · simp [hsuppressed]
  · simp [hsuppressed]

theorem verdicts_append (trace : List Processed) (e : Processed) :
    verdicts (trace ++ [e]) = verdicts trace ++ [(e.time, e.available)] := by
  rw [verdicts, List.map_append, List.map_singleton, verdicts]

/-- What is suppressed while the monitor is alive goes on from the start. -/
theorem Overload.suppressed (h : Overload trace s)
    (hsub : subsides (verdicts trace ++ [(now, false)]) = true) :
    ∃ earlier later, suppressionTimes trace ++ [now] =
        earlier ++ s.suppressionStart.getD now :: later ∧
      (s.suppressionStart.getD now :: later).getLast? = some now ∧
      (s.suppressionStart.getD now :: later).IsChain fun a b => b ≤ a + quietSpan := by
  cases hstart : s.suppressionStart with
  | none => exact ⟨suppressionTimes trace, [], rfl, rfl, List.isChain_singleton _⟩
  | some began =>
    obtain ⟨earlier, later, htimes, hlast, hchain⟩ := h.started began hstart
    rw [Option.getD_some]
    refine ⟨earlier, later ++ [now], ?_, ?_, ?_⟩
    · rw [htimes, List.append_assoc, List.cons_append]
    · rw [← List.cons_append, List.getLast?_concat]
    · rw [← List.cons_append]
      refine hchain.append (List.isChain_singleton _) fun l hl t ht => ?_
      obtain rfl : now = t := by simpa using ht
      obtain ⟨before, allowed, hverdicts, hallowed, -, hearly⟩ := h.tail l (hlast.symm.trans hl)
      rw [hverdicts] at hsub
      exact soon_of_subsides hsub hallowed (hearly (by rw [hstart]; rfl))

theorem MonitorRun.overload
    (h : MonitorRun capacity refillIntervalMs start killToolName trace m last)
    (hsub : subsides (verdicts trace) = true) (halive : m.suppression.killed = false) :
    Overload trace m.suppression := by
  induction h with
  | new => exact ⟨nofun, nofun, fun _ => ⟨rfl, rfl⟩⟩
  | @event trace m m' last now available outcome h hlast hstep ih =>
    have htracked := tracked_of_process (processEvent_consumed hstep).2
    rw [verdicts_append] at hsub
    replace ih := ih (subsides_of_append hsub)
    generalize m'.suppression = after at htracked halive ⊢
    cases htracked with
    | discarded hkilled =>
      rw [hkilled] at halive
      cases halive
    | passed hkilled hcount =>
      replace ih := ih hkilled
      refine ⟨?_, fun l hl => ?_, ih.fresh⟩
      · rw [suppressionTimes_append]
        simpa [RateLimitOutcome.isSuppressed] using ih.started
      · obtain ⟨before, allowed, hverdicts, hallowed, hnonempty, hearly⟩ := ih.tail l hl
        have hne := hnonempty.mp hcount
        refine ⟨before, allowed ++ [(now, true)], ?_, fun e he => ?_, ?_, fun hsome e he => ?_⟩
        · rw [verdicts_append, hverdicts, List.append_assoc, List.cons_append]
        · rw [List.mem_append, List.mem_singleton] at he
          obtain hold | rfl := he
          · exact hallowed e hold
          · rfl
        · exact iff_of_true hcount (by simp)
        · rw [List.head?_append_of_ne_nil _ hne] at he
          exact hearly hsome e he
    | caughtUp hkilled hcount =>
      replace ih := ih hkilled
      refine ⟨fun began hbegan => ?_, fun l hl => ?_, fun hnone => ?_⟩
      · dsimp only at hbegan
        rw [suppressionTimes_append]
        split_ifs at hbegan
        simpa [RateLimitOutcome.isSuppressed] using ih.started began hbegan
      · dsimp only at hl
        obtain ⟨before, allowed, hverdicts, -, hnonempty, -⟩ := ih.tail l hl
        obtain rfl : allowed = [] := by
          by_contra hne
          exact absurd (hnonempty.mpr hne) hcount.ne'
        refine ⟨before, [(now, true)], ?_, fun e he => ?_, ?_, fun hsome e he => ?_⟩
        · rw [verdicts_append, hverdicts, List.append_assoc]
          rfl
        · rw [List.mem_singleton.mp he]
        · exact iff_of_true rfl (List.cons_ne_nil _ _)
        · obtain rfl := Option.some.inj he
          dsimp only at hsome ⊢
          rw [hl, Option.any_some] at hsome
          by_contra hlate
          rw [if_pos (decide_eq_true (by omega))] at hsome
          cases hsome
      · exact absurd (ih.fresh hnone).2 hcount.ne'
    | suppressed hkilled hshort =>
      replace ih := ih hkilled
      obtain ⟨earlier, later, htimes, hlast', hchain⟩ := ih.suppressed hsub
      refine ⟨fun began hbegan => ?_, fun l hl => ?_, nofun⟩
      · obtain rfl := Option.some.inj hbegan
        rw [suppressionTimes_append]
        exact ⟨earlier, later, htimes, hlast', hchain⟩
      · obtain rfl := Option.some.inj hl
        refine ⟨verdicts trace, [], verdicts_append _ _, nofun, ?_, nofun⟩
        exact iff_of_false (Nat.succ_ne_zero _) (fun hne => hne rfl)
    | stopped => cases halive

theorem MonitorRun.killedForOverload
    (h : MonitorRun capacity refillIntervalMs start killToolName trace m last)
    (hsub : subsides (verdicts trace) = true) : KilledForOverload trace m := by
  induction h with
  | new => exact nofun
  | @event trace m m' last now available outcome h hlast hstep ih =>
    have htracked := tracked_of_process (processEvent_consumed hstep).2
    rw [verdicts_append] at hsub
    replace ih := ih (subsides_of_append hsub)
    unfold KilledForOverload at ih ⊢
    by_cases hkilled : m.suppression.killed = true
    · rw [untilKill_of_killed (h.killed_iff.mp hkilled)]
      have hprocess := (processEvent_consumed hstep).2
      rw [SuppressionTracker.process, if_pos hkilled] at hprocess
      rw [← (Prod.mk.inj hprocess).2]
      exact ih
    · rw [Bool.not_eq_true] at hkilled
      rw [(h.untilKill_event hkilled).2]
      have hoverload := h.overload (subsides_of_append hsub) hkilled
      generalize m'.suppression = after at htracked ⊢
      intro hstopped
      cases htracked with
      | stopped _ hlong =>
        obtain ⟨earlier, later, htimes, hlast', hchain⟩ := hoverload.suppressed hsub
        refine ⟨_, earlier, later, now, rfl, ?_, hlast', by omega, hchain⟩
        rw [suppressionTimes_append]
        exact htimes
      | discarded => rw [hkilled] at hstopped; cases hstopped
      | passed => rw [hkilled] at hstopped; cases hstopped
      | caughtUp => rw [hkilled] at hstopped; cases hstopped
      | suppressed => rw [hkilled] at hstopped; cases hstopped

/-- The rate is bounded, every suppressed event is accounted for, and the monitor is killed only for
an overload that went on. -/
structure WellLimited (capacity refillIntervalMs : ℕ) (trace : List Processed)
    (m : MonitorRateLimiter) : Prop where
  rate : RateBounded capacity refillIntervalMs trace
  accounted : Accounted trace m
  killed : KilledForOverload trace m

theorem monitor_wellLimited (capacity refillIntervalMs start last : ℕ) (killToolName : String)
    (trace : List Processed) (m : MonitorRateLimiter)
    (h : MonitorRun capacity refillIntervalMs start killToolName trace m last)
    (hsub : subsides (verdicts trace) = true) : WellLimited capacity refillIntervalMs trace m :=
  ⟨h.rateBounded, h.accounted, h.killedForOverload hsub⟩

/-! ## A short burst and a long pause -/

/-- Of the events of a list, all at once. -/
theorem MonitorRun.processEvents {times : List ℕ} {rest : List Processed}
    (h : MonitorRun capacity refillIntervalMs start killToolName trace m last)
    (hsorted : (last :: times).IsChain (· ≤ ·)) (hrun : processEvents m times = some (rest, m')) :
    ∃ last', MonitorRun capacity refillIntervalMs start killToolName (trace ++ rest) m' last' := by
  induction times generalizing trace m last rest with
  | nil =>
    obtain ⟨rfl, rfl⟩ := Prod.mk.inj (Option.some.inj hrun)
    rw [List.append_nil]
    exact ⟨last, h⟩
  | cons now times ih =>
    rw [Monitor.processEvents] at hrun
    obtain ⟨⟨available, outcome, next⟩, hstep, hrun⟩ := Option.bind_eq_some_iff.mp hrun
    obtain ⟨⟨rest', final⟩, hrest, heq⟩ := Option.bind_eq_some_iff.mp hrun
    obtain ⟨rfl, rfl⟩ := Prod.mk.inj (Option.some.inj heq)
    rw [List.isChain_cons_cons] at hsorted
    obtain ⟨last', hfinal⟩ := ih (h.event hsorted.1 hstep) hsorted.2 hrest
    rw [List.append_assoc] at hfinal
    exact ⟨last', hfinal⟩

/-- Two events every two seconds, of which one is suppressed. -/
def steadyOverload : List ℕ := (List.range 17).flatMap fun i => List.replicate 2 (i * 2000 * millis)

theorem monitor_wellLimited_steady : ∃ (trace : List Processed) (m : MonitorRateLimiter),
    m.suppression.killed = true ∧ WellLimited 1 rateLimitRefillMs trace m := by
  have hany : (processEvents (.new 1 rateLimitRefillMs 0 "") steadyOverload).any (fun out =>
      out.2.suppression.killed && subsides (verdicts out.1)) = true := by
    decide +kernel
  rw [Option.any_eq_true] at hany
  obtain ⟨⟨trace, m⟩, hrun, hkilled⟩ := hany
  rw [Bool.and_eq_true] at hkilled
  have hnew : MonitorRun 1 rateLimitRefillMs 0 "" [] (.new 1 rateLimitRefillMs 0 "") 0 := .new
  obtain ⟨last, h⟩ := hnew.processEvents (by decide +kernel) hrun
  exact ⟨trace, m, hkilled.1, monitor_wellLimited 1 rateLimitRefillMs 0 last "" trace m h hkilled.2⟩

/-- Eleven events at once, one a little more than a refill later, and eleven after an hour. -/
def pausedBurst : List ℕ :=
  List.replicate 11 0 ++ [2001 * millis] ++ List.replicate 11 (3600000 * millis)

theorem pausedBurst_killed :
    (processEvents (.new 10 rateLimitRefillMs 0 "") pausedBurst).any (fun (trace, m) =>
      m.suppression.killed && m.suppression.suppressionStart == some 0 &&
        suppressionTimes (untilKill trace) == [0, 3600000 * millis]) = true := by
  decide +kernel

/-- After an hour of quiet the monitor is killed at the first suppressed event. -/
theorem monitor_not_wellLimited :
    ¬ ∀ (capacity refillIntervalMs start last : ℕ) (killToolName : String) (trace : List Processed)
      (m : MonitorRateLimiter),
      MonitorRun capacity refillIntervalMs start killToolName trace m last →
        WellLimited capacity refillIntervalMs trace m := by
  intro hall
  have hany := pausedBurst_killed
  rw [Option.any_eq_true] at hany
  obtain ⟨⟨trace, m⟩, hrun, hkilled⟩ := hany
  rw [Bool.and_eq_true, Bool.and_eq_true, beq_iff_eq, beq_iff_eq] at hkilled
  obtain ⟨⟨hkilled, hstart⟩, htimes⟩ := hkilled
  have hnew : MonitorRun 10 rateLimitRefillMs 0 "" [] (.new 10 rateLimitRefillMs 0 "") 0 := .new
  obtain ⟨last, h⟩ := hnew.processEvents (by decide +kernel) hrun
  obtain ⟨began, earlier, later, killedAt, hbegan, hsplit, -, -, hchain⟩ :=
    (hall _ _ _ _ _ _ _ h).killed hkilled
  obtain rfl := Option.some.inj (hstart.symm.trans hbegan)
  rw [List.nil_append, htimes] at hsplit
  -- The start is the first of the two suppressed events, so no event stands before it.
  cases earlier with
  | nil =>
    obtain ⟨-, rfl⟩ := List.cons.inj hsplit
    exact absurd (List.isChain_cons_cons.mp hchain).1 (by decide)
  | cons first earlier =>
    have hlen := congrArg List.length hsplit
    rw [List.length_append, List.length_cons, List.length_cons] at hlen
    obtain rfl : earlier = [] := by
      apply List.eq_nil_of_length_eq_zero
      simp at hlen
      omega
    have hsecond := (List.cons.inj (List.cons.inj hsplit).2).1
    exact absurd hsecond (by decide)

end GrokBuild.Monitor
