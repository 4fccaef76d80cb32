import GrokBuild.Lib.StepRun
import GrokBuild.PlanMode.Tracker

/-!
# What the model believes about plan mode

The last signal in the conversation against the state of the tracker. A step that takes plan
mode away without a signal and without an exit reminder, while the last signal says active,
leaves the model in a plan mode that has ended.
-/

namespace GrokBuild.PlanMode

open GrokBuild.StepRun

/-! ## The tracker -/

/-- Only an active plan mode has a buffered activation, only an inactive one an exit reminder. -/
structure PlanModeTracker.Sound (t : PlanModeTracker) : Prop where
  buffered : t.pendingActivation ≠ none → t.state = .active
  exit_inactive : t.pendingExitReminder = true → t.state = .inactive

namespace PlanModeTracker

variable {t : PlanModeTracker}

theorem Sound.enterPending (h : t.Sound) : t.enterPending.1.Sound := by
  unfold PlanModeTracker.enterPending
  split
  · rename_i hs
    exact ⟨fun hb => absurd (h.buffered hb) (by simp [hs]), by simp⟩
  · rename_i hs
    exact ⟨fun _ => rfl, by simp⟩
  · exact h

theorem Sound.activate (h : t.Sound) : t.activate.1.Sound := by
  unfold PlanModeTracker.activate
  split
  · exact h
  · rename_i hs
    have hs : t.state = .pending := not_not.mp hs
    exact ⟨fun _ => rfl, fun he => absurd (h.exit_inactive he) (by simp [hs])⟩

theorem Sound.activateMidTurn (h : t.Sound) (text : Reminder) : (t.activateMidTurn text).1.Sound := by
  unfold PlanModeTracker.activateMidTurn
  split
  · exact h
  · rename_i hs
    have hs : t.state = .pending := not_not.mp hs
    exact ⟨fun _ => rfl, fun he => absurd (h.exit_inactive he) (by simp [hs])⟩

theorem Sound.activateFromTool (h : t.Sound) : t.activateFromTool.1.Sound := by
  unfold PlanModeTracker.activateFromTool
  split
  · exact h
  · exact ⟨fun _ => rfl, by simp⟩

theorem Sound.deactivateApproved (h : t.Sound) : t.deactivateApproved.1.Sound := by
  unfold PlanModeTracker.deactivateApproved
  split
  · exact h
  · exact ⟨by simp, fun _ => rfl⟩

theorem Sound.userExit (h : t.Sound) (turnInFlight : Bool) : (t.userExit turnInFlight).Sound := by
  unfold PlanModeTracker.userExit
  dsimp only
  split
  · exact ⟨by simp, fun _ => rfl⟩
  · exact ⟨by simp, fun _ => rfl⟩
  · rename_i hstate _
    split
    · exact ⟨by simp, fun he => absurd (hstate.symm.trans (h.exit_inactive he)) (by simp)⟩
    · exact ⟨by simp, fun _ => rfl⟩
  · exact ⟨by simp, fun he => h.exit_inactive he⟩

theorem Sound.completeDeferredExit (h : t.Sound) : t.completeDeferredExit.Sound := by
  unfold PlanModeTracker.completeDeferredExit
  split
  · exact h
  · rename_i hs
    have hs : t.state = .exitPending := not_not.mp hs
    exact ⟨fun hb => absurd (h.buffered hb) (by simp [hs]), fun _ => rfl⟩

theorem Sound.resetAfterCompaction (h : t.Sound) : t.resetAfterCompaction.Sound := by
  unfold PlanModeTracker.resetAfterCompaction
  split
  · exact ⟨by simp, h.exit_inactive⟩
  · exact h

theorem Sound.fromSnapshot (h : t.Sound) : (fromSnapshot t.snapshot).Sound := by
  refine ⟨by simp [PlanModeTracker.fromSnapshot], ?_⟩
  unfold PlanModeTracker.fromSnapshot snapshot
  intro he
  cases hs : t.state with
  | inactive => simp
  | pending => simp
  | exitPending => simp
  | active =>
    simp only [hs] at he
    have := h.exit_inactive he
    simp_all

end PlanModeTracker

/-! ## The session -/

namespace Session

variable {s : Session} {renders : Reminder → Bool}

/-- The tracker is sound, and an exit is deferred only to the end of a running turn. -/
structure Coherent (s : Session) : Prop where
  sound : s.tracker.Sound
  deferred : s.tracker.state = .exitPending → s.turnInFlight = true

/-- A model that believes in an ended plan mode has its exit reminder coming. -/
def Informed (s : Session) : Prop :=
  s.believesActive = true → s.tracker.state = .inactive → s.tracker.pendingExitReminder = true

/-- Toggled off now, plan mode would end without an exit reminder. -/
def EndsSilently (s : Session) : Prop :=
  s.tracker.state = .pending ∨ s.tracker.pendingActivation ≠ none

instance (s : Session) : Decidable s.EndsSilently := inferInstanceAs (Decidable (_ ∨ _))

/-- No step ends plan mode silently while the last signal says active: no toggle or prompt of
another mode and no restore while it is pending or its activation is buffered, and no resumed
approval that leaves it. A turn's reminders render. -/
def Announces (s : Session) : Op → Prop
  | .sessionMode mode _ => mode ≠ .plan → s.EndsSilently → s.believesActive = false
  | .prompt synthetic mode renders =>
    s.turnInFlight = false →
      (synthetic = false → mode ≠ .plan → s.EndsSilently → s.believesActive = false) ∧
        ∀ text, renders text = true
  | .resumeApproval outcome =>
    s.tracker.awaitingPlanApproval = true → outcome ≠ .cancelled → s.tracker.state = .active →
      s.believesActive = false
  | .restore => s.tracker.state = .pending → s.believesActive = false
  | _ => True

@[simp] theorem believesActive_push (s : Session) (signal : Signal) :
    (s.push signal).believesActive = signal.saysActive := by
  simp [believesActive, push]

/-- The toggle that turns plan mode off. -/
theorem userExit_state (t : PlanModeTracker) (turnInFlight : Bool) :
    (t.userExit turnInFlight).state = .inactive →
      t.state = .inactive ∨ t.state = .pending ∨ t.pendingActivation ≠ none ∨
        (t.userExit turnInFlight).pendingExitReminder = true := by
  unfold PlanModeTracker.userExit
  dsimp only
  split
  · rename_i buffered hb hs
    simp [hb]
  · rename_i hs
    simp [hs]
  · split
    · simp
    · simp
  · rename_i hpending hactive
    intro hs
    exact .inl hs

theorem userExit_exitPending {t : PlanModeTracker} {turnInFlight : Bool}
    (h : (t.userExit turnInFlight).state = .exitPending) :
    t.state = .exitPending ∨ turnInFlight = true := by
  unfold PlanModeTracker.userExit at h
  dsimp only at h
  split at h
  · cases h
  · cases h
  · split at h
    · rename_i hflight
      exact .inr hflight
    · cases h
  · exact .inl h

/-- Ending plan mode by a toggle leaves an informed model informed, unless it ends
silently. -/
theorem Informed.userExit (h : s.Informed) (turnInFlight : Bool)
    (hsilent : s.EndsSilently → s.believesActive = false) :
    Informed { s with tracker := s.tracker.userExit turnInFlight } := by
  intro hb hs
  have hb' : s.believesActive = true := hb
  rcases userExit_state s.tracker turnInFlight hs with hi | hp | ha | he
  · -- toggling an inactive plan mode off changes no reminder
    have hreminder := h hb' hi
    simp [PlanModeTracker.userExit, hi, hreminder]
  · rw [hsilent (.inl hp)] at hb'
    cases hb'
  · rw [hsilent (.inr ha)] at hb'
    cases hb'
  · exact he

theorem enterPending_ne_inactive (t : PlanModeTracker) : t.enterPending.1.state ≠ .inactive := by
  unfold PlanModeTracker.enterPending
  cases hs : t.state <;> simp [hs]

theorem enterPending_exitPending {t : PlanModeTracker}
    : t.enterPending.1.state ≠ .exitPending := by
  unfold PlanModeTracker.enterPending
  cases hs : t.state <;> simp [hs]

/-! ## A turn's reminders -/

/-- Once the reminders of a turn are in, the last signal says active exactly when plan mode
is. -/
theorem injectPlanModeReminders_spec (hc : s.tracker.Sound) (hs : s.tracker.state ≠ .exitPending)
    (hi : s.Informed) (hr : ∀ text, renders text = true) :
    (injectPlanModeReminders renders s).tracker.Sound ∧
      (injectPlanModeReminders renders s).tracker.state ≠ .exitPending ∧
      ((injectPlanModeReminders renders s).believesActive = true ↔
        (injectPlanModeReminders renders s).tracker.state = .active) := by
  have hexit (hne : s.tracker.state ≠ .inactive) : s.tracker.pendingExitReminder = false := by
    by_contra he
    exact hne (hc.exit_inactive (by simpa using he))
  cases hstate : s.tracker.state with
  | exitPending => exact absurd hstate hs
  | pending =>
    have hnone : s.tracker.pendingActivation = none := by
      by_contra hb
      rw [hc.buffered hb] at hstate
      cases hstate
    have hfalse := hexit (by simp [hstate])
    have hsays : (Signal.reminder (planActivationTemplate s.tracker.isReentry)).saysActive = true := by
      unfold planActivationTemplate
      split <;> rfl
    have hinject : injectPlanModeReminders renders s =
        { s.push (.reminder (planActivationTemplate s.tracker.isReentry)) with
          tracker := s.tracker.activate.1.recordReminderInjected } := by
      simp [injectPlanModeReminders, injectActivation, hstate, pushReminder, hr, injectExit,
        PlanModeTracker.activate, PlanModeTracker.recordReminderInjected, hfalse, push]
    rw [hinject]
    refine ⟨⟨?_, ?_⟩, ?_, ?_⟩
    · simp [PlanModeTracker.activate, PlanModeTracker.recordReminderInjected, hstate, hnone]
    · simp [PlanModeTracker.activate, PlanModeTracker.recordReminderInjected, hstate, hfalse]
    · simp [PlanModeTracker.activate, PlanModeTracker.recordReminderInjected, hstate]
    · simp [PlanModeTracker.activate, PlanModeTracker.recordReminderInjected, hstate, believesActive,
        push, hsays]
  | active =>
    have hfalse := hexit (by simp [hstate])
    set text := if s.tracker.shouldUseFullReminder then Reminder.full else .sparse with htext
    have hsays : (Signal.reminder text).saysActive = true := by
      rw [htext]
      split <;> rfl
    have hinject : injectPlanModeReminders renders s =
        { s.push (.reminder text) with tracker := s.tracker.recordReminderInjected } := by
      simp [injectPlanModeReminders, injectActivation, injectPerTurn, PlanModeTracker.isActive,
        hstate, pushReminder, hr, injectExit, PlanModeTracker.recordReminderInjected, hfalse, push,
        htext]
    rw [hinject]
    refine ⟨⟨fun _ => hstate, ?_⟩, ?_, ?_⟩
    · simp [PlanModeTracker.recordReminderInjected, hfalse]
    · simp [PlanModeTracker.recordReminderInjected, hstate]
    · simp [PlanModeTracker.recordReminderInjected, hstate, believesActive, push, hsays]
  | inactive =>
    have hnone : s.tracker.pendingActivation = none := by
      by_contra hb
      rw [hc.buffered hb] at hstate
      cases hstate
    have hinject : injectPlanModeReminders renders s = injectExit renders s := by
      simp [injectPlanModeReminders, injectActivation, injectPerTurn, PlanModeTracker.isActive,
        hstate]
    rw [hinject]
    cases he : s.tracker.pendingExitReminder with
    | true =>
      have hexited : injectExit renders s =
          { s.push (.reminder .exit) with tracker := s.tracker.clearPendingExitReminder } := by
        simp [injectExit, he, hr, push]
      rw [hexited]
      refine ⟨⟨fun hb => absurd hnone hb, by simp [PlanModeTracker.clearPendingExitReminder]⟩, ?_, ?_⟩
      · simp [PlanModeTracker.clearPendingExitReminder, hstate]
      · simp [PlanModeTracker.clearPendingExitReminder, hstate, believesActive, push,
          Signal.saysActive]
    | false =>
      have hbelief : s.believesActive = false := by
        by_contra hb
        have := hi (by simpa using hb) hstate
        rw [he] at this
        cases this
      simp [injectExit, he, hstate, hbelief, hc]

/-! ## One step -/

theorem Coherent.push (h : s.Coherent) (signal : Signal) : (s.push signal).Coherent :=
  ⟨h.sound, h.deferred⟩

theorem Coherent.withTracker (h : s.Coherent) {t : PlanModeTracker} (ht : t.Sound)
    (he : t.state = .exitPending → s.tracker.state = .exitPending) :
    Coherent { s with tracker := t } :=
  ⟨ht, fun hs => h.deferred (he hs)⟩

theorem Coherent.record (h : s.Coherent) :
    Coherent { s with tracker := s.tracker.recordReminderInjected } :=
  h.withTracker ⟨h.sound.buffered, h.sound.exit_inactive⟩ id

theorem Coherent.pushReminder (h : s.Coherent) (text : Reminder) :
    (pushReminder renders s text).1.Coherent := by
  unfold Session.pushReminder
  split
  · exact (h.push _).record
  · exact h

theorem Coherent.activate (h : s.Coherent) : Coherent { s with tracker := s.tracker.activate.1 } := by
  apply h.withTracker h.sound.activate
  unfold PlanModeTracker.activate
  split
  · exact id
  · simp

theorem Coherent.injectActivation (h : s.Coherent) : (injectActivation renders s).1.Coherent := by
  unfold Session.injectActivation
  split
  · exact h.activate.pushReminder _
  · exact h

theorem Coherent.injectPerTurn (h : s.Coherent) : (injectPerTurn renders s).Coherent := by
  unfold Session.injectPerTurn
  split
  · exact h.pushReminder _
  · exact h

theorem Coherent.injectExit (h : s.Coherent) : (injectExit renders s).Coherent := by
  have hclear {s : Session} (h : s.Coherent) :
      Coherent { s with tracker := s.tracker.clearPendingExitReminder } :=
    h.withTracker ⟨h.sound.buffered, by simp [PlanModeTracker.clearPendingExitReminder]⟩ id
  unfold Session.injectExit
  split
  · dsimp only
    split
    · exact hclear (h.push _)
    · exact hclear h
  · exact h

theorem Coherent.injectPlanModeReminders (h : s.Coherent) :
    (injectPlanModeReminders renders s).Coherent := by
  have hact : (Session.injectActivation renders s).1.Coherent := h.injectActivation
  unfold Session.injectPlanModeReminders
  split
  · rename_i s' heq
    rw [heq] at hact
    exact hact.injectExit
  · rename_i s' heq
    rw [heq] at hact
    exact hact.injectPerTurn.injectExit

theorem Coherent.enterPending (h : s.Coherent) :
    Coherent { s with tracker := s.tracker.enterPending.1 } :=
  h.withTracker h.sound.enterPending fun hs => absurd hs enterPending_exitPending

theorem Coherent.deactivateApproved (h : s.Coherent) : s.leavePlanModeToDefault.Coherent := by
  apply h.withTracker h.sound.deactivateApproved
  unfold PlanModeTracker.deactivateApproved
  split
  · exact id
  · simp

/-- What an approved exit does to the tracker. -/
theorem planModeExited_cases (s : Session) (queueOnApprovedExit : Bool) :
    (s.tracker.state ≠ .active ∧ s.planModeExited queueOnApprovedExit = s) ∨
      (s.tracker.state = .active ∧
        (s.planModeExited queueOnApprovedExit).tracker.state = .inactive ∧
        (s.planModeExited queueOnApprovedExit).tracker.pendingActivation = none ∧
        (queueOnApprovedExit = true →
          (s.planModeExited queueOnApprovedExit).tracker.pendingExitReminder = true)) := by
  by_cases hs : s.tracker.state = .active
  · right
    cases queueOnApprovedExit <;>
      simp [planModeExited, PlanModeTracker.deactivateApproved, hs, PlanModeTracker.queueExitReminder]
  · left
    simp [planModeExited, PlanModeTracker.deactivateApproved, hs]

theorem Coherent.planModeExited (h : s.Coherent) (queueOnApprovedExit : Bool) :
    (s.planModeExited queueOnApprovedExit).Coherent := by
  rcases planModeExited_cases s queueOnApprovedExit with ⟨-, heq⟩ | ⟨-, hinactive, hnone, -⟩
  · rw [heq]
    exact h
  · refine ⟨⟨fun hb => absurd hnone hb, fun _ => hinactive⟩, fun he => ?_⟩
    rw [hinactive] at he
    cases he

theorem Coherent.approvalAnswered (h : s.Coherent) : s.approvalAnswered.Coherent :=
  h.withTracker ⟨h.sound.buffered, h.sound.exit_inactive⟩ id

theorem Coherent.userExit (h : s.Coherent) {turnInFlight : Bool}
    (hflight : turnInFlight = true → s.turnInFlight = true) :
    Coherent { s with tracker := s.tracker.userExit turnInFlight } := by
  refine ⟨h.sound.userExit turnInFlight, fun hs => ?_⟩
  rcases userExit_exitPending hs with he | hf
  · exact h.deferred he
  · exact hflight hf

theorem Coherent.activateMidTurn (h : s.Coherent) : (activatePlanModeMidTurn renders s).Coherent := by
  unfold activatePlanModeMidTurn
  split
  · rename_i hs
    dsimp only
    split
    · apply h.withTracker (h.sound.activateMidTurn _)
      simp [PlanModeTracker.activateMidTurn, hs]
    · exact h.activate
  · exact h

theorem Coherent.handleSessionMode (h : s.Coherent) (mode : PromptMode) :
    (handleSessionMode renders s mode).Coherent := by
  cases mode with
  | plan =>
    unfold Session.handleSessionMode
    dsimp only
    split
    · exact h.enterPending.activateMidTurn
    · exact h.enterPending
  | agent =>
    unfold Session.handleSessionMode
    dsimp only
    split
    · exact h.userExit id
    · exact h
  | ask =>
    unfold Session.handleSessionMode
    dsimp only
    split
    · exact h.userExit id
    · exact h

theorem Coherent.reconcile (h : s.Coherent) (mode : PromptMode) :
    (s.reconcilePlanModeWithPrompt mode).Coherent := by
  cases mode with
  | plan => exact h.enterPending
  | agent =>
    unfold reconcilePlanModeWithPrompt
    dsimp only
    split
    · exact h.userExit (by simp)
    · exact h
  | ask =>
    unfold reconcilePlanModeWithPrompt
    dsimp only
    split
    · exact h.userExit (by simp)
    · exact h

/-- Every step keeps a session coherent. -/
theorem Coherent.step (h : s.Coherent) (op : Op) : (s.step op).Coherent := by
  cases op with
  | sessionMode mode renders => exact h.handleSessionMode mode
  | prompt synthetic mode renders =>
    simp only [Session.step, handlePrompt]
    split
    · exact h
    · have hstarted : Coherent { s with turnInFlight := true } := ⟨h.sound, fun _ => rfl⟩
      apply Coherent.injectPlanModeReminders
      split
      · exact hstarted
      · exact hstarted.reconcile mode
  | flush =>
    simp only [Session.step, flushPendingActivation]
    split
    · rename_i tracker text heq
      obtain rfl : { s.tracker with pendingActivation := none } = tracker := congrArg Prod.fst heq
      have htaken : Coherent { s.push (.reminder text) with
          tracker := { s.tracker with pendingActivation := none } } :=
        (h.push _).withTracker ⟨fun hb => absurd rfl hb, h.sound.exit_inactive⟩ id
      exact htaken.record
    · exact h
  | enterTool =>
    apply (h.push .entered).withTracker h.sound.activateFromTool
    unfold PlanModeTracker.activateFromTool
    split
    · exact id
    · simp
  | requestApproval => exact h.withTracker ⟨h.sound.buffered, h.sound.exit_inactive⟩ id
  | exitTool outcome queueOnApprovedExit =>
    simp only [Session.step, exitTool]
    have hanswered := h.approvalAnswered
    split
    · split
      · exact hanswered.planModeExited _
      · exact (hanswered.planModeExited _).push _
    · exact hanswered.deactivateApproved.push _
    · exact hanswered
  | resumeApproval outcome =>
    simp only [Session.step, resumePlanApproval]
    split
    · split
      · exact h.approvalAnswered
      · exact h.approvalAnswered.deactivateApproved
    · exact h
  | turnEnd =>
    refine ⟨h.sound.completeDeferredExit, ?_⟩
    simp only [Session.step, turnEnd, PlanModeTracker.completeDeferredExit]
    split
    · rename_i hs
      exact fun he => absurd he hs
    · simp
  | compaction =>
    apply h.withTracker h.sound.resetAfterCompaction
    unfold PlanModeTracker.resetAfterCompaction
    split <;> exact id
  | restore =>
    refine ⟨h.sound.fromSnapshot, ?_⟩
    simp only [Session.step, restore, PlanModeTracker.fromSnapshot, PlanModeTracker.snapshot]
    cases s.tracker.state <;> simp

theorem Informed.of_ne_inactive (h : s.tracker.state ≠ .inactive) : s.Informed :=
  fun _ hs => absurd hs h

theorem Informed.of_not_believes (h : s.believesActive = false) : s.Informed := by
  intro hb
  rw [h] at hb
  cases hb

theorem deactivateApproved_cases (t : PlanModeTracker) :
    (t.state ≠ .active ∧ t.deactivateApproved.1 = t) ∨
      (t.state = .active ∧ t.deactivateApproved.1.state = .inactive) := by
  unfold PlanModeTracker.deactivateApproved
  split
  · rename_i hs
    exact .inl ⟨hs, rfl⟩
  · rename_i hs
    exact .inr ⟨not_not.mp hs, rfl⟩

theorem Informed.handleSessionMode (h : s.Informed) (mode : PromptMode)
    (hsilent : mode ≠ .plan → s.EndsSilently → s.believesActive = false) :
    (handleSessionMode renders s mode).Informed := by
  have hoff (hmode : mode ≠ .plan) : Informed
      (if s.tracker.state ≠ .inactive then { s with tracker := s.tracker.userExit s.turnInFlight }
        else s) := by
    split
    · exact h.userExit _ (hsilent hmode)
    · exact h
  cases mode with
  | plan =>
    apply Informed.of_ne_inactive
    have hne := enterPending_ne_inactive s.tracker
    unfold Session.handleSessionMode
    dsimp only
    split
    · unfold activatePlanModeMidTurn
      split
      · rename_i hpending
        dsimp only at hpending ⊢
        split
        · simp [PlanModeTracker.activateMidTurn, hpending]
        · simp [PlanModeTracker.activate, hpending]
      · exact hne
    · exact hne
  | agent => exact hoff (by simp)
  | ask => exact hoff (by simp)

theorem Informed.reconcile (h : s.Informed) (mode : PromptMode)
    (hsilent : mode ≠ .plan → s.EndsSilently → s.believesActive = false) :
    (s.reconcilePlanModeWithPrompt mode).Informed := by
  have hoff (hmode : mode ≠ .plan) : Informed
      (if s.tracker.state ≠ .inactive then { s with tracker := s.tracker.userExit false }
        else s) := by
    split
    · exact h.userExit _ (hsilent hmode)
    · exact h
  cases mode with
  | plan => exact Informed.of_ne_inactive (enterPending_ne_inactive s.tracker)
  | agent => exact hoff (by simp)
  | ask => exact hoff (by simp)

theorem reconcile_ne_exitPending (h : s.tracker.state ≠ .exitPending) (mode : PromptMode) :
    (s.reconcilePlanModeWithPrompt mode).tracker.state ≠ .exitPending := by
  have hoff : (if s.tracker.state ≠ .inactive then { s with tracker := s.tracker.userExit false }
      else s).tracker.state ≠ .exitPending := by
    split
    · intro he
      rcases userExit_exitPending he with he | hflight
      · exact h he
      · cases hflight
    · exact h
  cases mode with
  | plan => exact enterPending_exitPending
  | agent => exact hoff
  | ask => exact hoff

/-- A prompt that starts a turn. -/
theorem handlePrompt_spec (hc : s.Coherent) (hi : s.Informed) (hidle : s.turnInFlight = false)
    {synthetic : Bool} {mode : PromptMode}
    (hann : s.Announces (.prompt synthetic mode renders)) :
    (handlePrompt renders s synthetic mode).believesActive = true ↔
      (handlePrompt renders s synthetic mode).tracker.state = .active := by
  obtain ⟨hsilent, hr⟩ := hann hidle
  have hnot : s.tracker.state ≠ .exitPending := by
    intro he
    rw [hc.deferred he] at hidle
    cases hidle
  have hstarted : Coherent { s with turnInFlight := true } := ⟨hc.sound, fun _ => rfl⟩
  simp only [handlePrompt, hidle, Bool.false_eq_true, if_false]
  cases synthetic with
  | true => exact (injectPlanModeReminders_spec (s := { s with turnInFlight := true }) hc.sound hnot hi hr).2.2
  | false =>
    simp only [Bool.false_eq_true, if_false]
    apply (injectPlanModeReminders_spec _ _ _ hr).2.2
    · exact (hstarted.reconcile mode).sound
    · exact reconcile_ne_exitPending (s := { s with turnInFlight := true }) hnot mode
    · exact Informed.reconcile (s := { s with turnInFlight := true }) hi mode (hsilent rfl)

/-- A step that announces itself leaves an informed model informed. -/
theorem Informed.step (hc : s.Coherent) (h : s.Informed) (op : Op) (hann : s.Announces op) :
    (s.step op).Informed := by
  cases op with
  | sessionMode mode renders => exact h.handleSessionMode mode hann
  | prompt synthetic mode renders =>
    cases hidle : s.turnInFlight with
    | true =>
      simp only [Session.step, handlePrompt, hidle, if_true]
      exact h
    | false =>
      intro hb hs
      have hactive := (handlePrompt_spec hc h hidle hann).mp hb
      rw [Session.step] at hs
      rw [hactive] at hs
      cases hs
  | flush =>
    simp only [Session.step, flushPendingActivation]
    split
    · rename_i tracker text heq
      obtain rfl : { s.tracker with pendingActivation := none } = tracker := congrArg Prod.fst heq
      have htext : s.tracker.pendingActivation.map PendingActivation.text = some text :=
        congrArg Prod.snd heq
      have hactive : s.tracker.state = .active := by
        apply hc.sound.buffered
        intro hnone
        rw [hnone] at htext
        cases htext
      apply Informed.of_ne_inactive
      simp [PlanModeTracker.recordReminderInjected, hactive]
    · exact h
  | enterTool =>
    apply Informed.of_ne_inactive
    simp only [Session.step, enterTool, PlanModeTracker.activateFromTool]
    split
    · rename_i hs
      exact hs
    · simp
  | requestApproval => exact h
  | exitTool outcome queueOnApprovedExit =>
    simp only [Session.step, exitTool]
    split
    · split
      · rename_i hqueue
        rcases planModeExited_cases s.approvalAnswered queueOnApprovedExit with
          ⟨-, heq⟩ | ⟨-, -, -, hexit⟩
        · rw [heq]
          exact h
        · exact fun _ _ => hexit hqueue
      · exact Informed.of_not_believes (by simp [Signal.saysActive])
    · exact Informed.of_not_believes (by simp [Signal.saysActive])
    · exact h
  | resumeApproval outcome =>
    simp only [Session.step, resumePlanApproval]
    split
    · rename_i hawait
      split
      · exact h
      · rename_i hne
        rcases deactivateApproved_cases s.approvalAnswered.tracker with ⟨-, heq⟩ | ⟨hactive, -⟩
        · rw [leavePlanModeToDefault, heq]
          exact h
        · exact Informed.of_not_believes (hann hawait hne hactive)
    · exact h
  | turnEnd =>
    intro hb hs
    simp only [Session.step, turnEnd, PlanModeTracker.completeDeferredExit] at hs ⊢
    split
    · rename_i hne
      rw [if_pos hne] at hs
      exact h hb hs
    · rfl
  | compaction =>
    simp only [Session.step, PlanModeTracker.resetAfterCompaction]
    split
    · exact h
    · exact h
  | restore =>
    intro hb hs
    cases hstate : s.tracker.state with
    | inactive =>
      have := h hb hstate
      simpa [Session.step, restore, PlanModeTracker.fromSnapshot, PlanModeTracker.snapshot, hstate]
    | pending =>
      have hbelief : s.believesActive = true := hb
      rw [hann hstate] at hbelief
      cases hbelief
    | active =>
      simp [Session.step, restore, PlanModeTracker.fromSnapshot, PlanModeTracker.snapshot, hstate] at hs
    | exitPending =>
      simp [Session.step, restore, PlanModeTracker.fromSnapshot, PlanModeTracker.snapshot, hstate]

/-! ## Runs -/

theorem coherent_new : Coherent .new :=
  ⟨⟨fun h => absurd rfl h, fun h => by (cases h)⟩, fun h => by (cases h)⟩

theorem coherent_run (ops : List Op) : (run step .new ops).Coherent :=
  invariant (P := Coherent) (fun _ op h => h.step op) coherent_new ops

theorem informed_run {ops : List Op} (h : Meets step Announces .new ops) :
    (run step .new ops).Informed := by
  have hboth : (run step .new ops).Coherent ∧ (run step .new ops).Informed :=
    invariant_of_meets (P := fun s => s.Coherent ∧ s.Informed)
      (fun s op hs hop => ⟨hs.1.step op, Informed.step hs.1 hs.2 op hop⟩)
      ⟨coherent_new, fun hb => by (cases hb)⟩ h
  exact hboth.2

/-- In every run an activation is buffered only while plan mode is active. In every run whose
steps do not end plan mode silently, a model that believes in it when it is not engaged has an
exit reminder coming or an activation, and once the reminders of a turn are in, the model
believes in plan mode exactly when it is active. -/
theorem belief_follows_tracker (ops : List Op) :
    ((run step .new ops).tracker.pendingActivation ≠ none →
      (run step .new ops).tracker.state = .active) ∧
    (Meets step Announces .new ops →
      ((run step .new ops).believesActive = true →
        (run step .new ops).tracker.state ≠ .active →
        (run step .new ops).tracker.state ≠ .exitPending →
          (run step .new ops).tracker.pendingExitReminder = true ∨
            (run step .new ops).tracker.state = .pending) ∧
      ∀ before synthetic mode renders, ops = before ++ [.prompt synthetic mode renders] →
        (run step .new before).turnInFlight = false →
          ((run step .new ops).believesActive = true ↔
            (run step .new ops).tracker.state = .active)) := by
  refine ⟨(coherent_run ops).sound.buffered, fun hmeets => ⟨?_, ?_⟩⟩
  · intro hb hactive hexit
    have hinformed := informed_run hmeets hb
    cases hs : (run step .new ops).tracker.state with
    | active => exact absurd hs hactive
    | exitPending => exact absurd hs hexit
    | pending => exact .inr rfl
    | inactive => exact .inl (hinformed hs)
  · intro before synthetic mode renders hops hidle
    rw [hops] at hmeets ⊢
    obtain ⟨hbefore, hprompt⟩ := meets_append.mp hmeets
    rw [run_append, run_cons, run_nil]
    exact handlePrompt_spec (coherent_run before) (informed_run hbefore) hidle hprompt.1

/-- Off, on and off again between two turns: the next turn starts with plan mode inactive and
no exit reminder, after a reminder that it is active. -/
theorem toggled_twice_unannounced :
    let s := run step .new
      [.prompt false .plan fun _ => true, .turnEnd, .sessionMode .agent fun _ => true,
        .sessionMode .plan fun _ => true, .sessionMode .agent fun _ => true,
        .prompt false .agent fun _ => true]
    s.believesActive = true ∧ s.tracker.state = .inactive ∧ s.tracker.pendingExitReminder = false := by
  decide

end Session

end GrokBuild.PlanMode
