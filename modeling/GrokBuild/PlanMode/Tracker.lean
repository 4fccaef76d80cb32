import Mathlib.Data.Nat.Notation

/-!
# Plan mode

`plan_mode.rs` and the handlers of a session that drive it: the state machine of plan mode,
the reminders that are put into the conversation for it, and the entry points that move it.
-/

namespace GrokBuild.PlanMode

inductive PlanModeState where
  | inactive
  | pending
  | active
  | exitPending
deriving DecidableEq, Repr

inductive PromptMode where
  | agent
  | ask
  | plan
deriving DecidableEq, Repr

/-- The reminder templates. -/
inductive Reminder where
  | full
  | sparse
  | reentry
  | exit
deriving DecidableEq, Repr

/-- A buffered mid-turn activation reminder, and what to restore if it is withdrawn. -/
structure PendingActivation where
  text : Reminder
  priorWasPreviouslyActive : Bool
deriving DecidableEq, Repr

structure PlanModeTracker where
  state : PlanModeState
  wasPreviouslyActive : Bool
  reminderCount : ℕ
  pendingExitReminder : Bool
  awaitingPlanApproval : Bool
  pendingActivation : Option PendingActivation
deriving DecidableEq, Repr

structure PlanModeSnapshot where
  state : PlanModeState
  wasPreviouslyActive : Bool
  reminderCount : ℕ
  pendingExitReminder : Bool
  awaitingPlanApproval : Bool
deriving DecidableEq, Repr

namespace PlanModeTracker

def new : PlanModeTracker := ⟨.inactive, false, 0, false, false, none⟩

/-- The transient states are collapsed. -/
def fromSnapshot (snapshot : PlanModeSnapshot) : PlanModeTracker :=
  { state :=
      match snapshot.state with
      | .pending | .exitPending => .inactive
      | state => state
    wasPreviouslyActive := snapshot.wasPreviouslyActive
    reminderCount := snapshot.reminderCount
    pendingExitReminder :=
      match snapshot.state with
      | .exitPending => true
      | _ => snapshot.pendingExitReminder
    awaitingPlanApproval := snapshot.awaitingPlanApproval
    pendingActivation := none }

variable (t : PlanModeTracker)

def snapshot : PlanModeSnapshot :=
  ⟨t.state, t.wasPreviouslyActive, t.reminderCount, t.pendingExitReminder, t.awaitingPlanApproval⟩

def isActive : Bool := t.state = .active

def shouldUseFullReminder : Bool := t.reminderCount % 2 = 0

def isReentry : Bool := t.wasPreviouslyActive && t.state = .pending

def setAwaitingPlanApproval (awaiting : Bool) : PlanModeTracker :=
  { t with awaitingPlanApproval := awaiting }

/-- Client toggled plan mode on; whether the state changed. -/
def enterPending : PlanModeTracker × Bool :=
  match t.state with
  | .inactive => ({ t with state := .pending, pendingExitReminder := false }, true)
  | .exitPending => ({ t with state := .active, pendingExitReminder := false }, true)
  | _ => (t, false)

/-- First user prompt while pending. -/
def activate : PlanModeTracker × Bool :=
  if t.state ≠ .pending then (t, false)
  else ({ t with state := .active, wasPreviouslyActive := true, reminderCount := 0 }, true)

/-- Mid-turn toggle: activate and buffer the rendered reminder. -/
def activateMidTurn (rendered : Reminder) : PlanModeTracker × Bool :=
  if t.state ≠ .pending then (t, false)
  else
    ({ t with
        state := .active
        wasPreviouslyActive := true
        reminderCount := 0
        pendingActivation := some ⟨rendered, t.wasPreviouslyActive⟩ }, true)

def takePendingActivation : PlanModeTracker × Option Reminder :=
  ({ t with pendingActivation := none }, t.pendingActivation.map PendingActivation.text)

/-- The agent called the enter tool. -/
def activateFromTool : PlanModeTracker × Bool :=
  if t.state ≠ .inactive then (t, false)
  else
    ({ t with
        state := .active
        wasPreviouslyActive := true
        reminderCount := 0
        pendingExitReminder := false }, true)

/-- The caller has to give the model its exit signal. -/
def deactivateApproved : PlanModeTracker × Bool :=
  if t.state ≠ .active then (t, false)
  else
    ({ t with
        state := .inactive
        reminderCount := 0
        awaitingPlanApproval := false
        pendingActivation := none }, true)

/-- Client toggled plan mode off. A buffered activation is withdrawn and rolled back. -/
def userExit (turnInFlight : Bool) : PlanModeTracker :=
  let withdrawn := { t with awaitingPlanApproval := false, pendingActivation := none }
  match t.pendingActivation, t.state with
  | some buffered, .active =>
    { withdrawn with state := .inactive, wasPreviouslyActive := buffered.priorWasPreviouslyActive }
  | _, .pending => { withdrawn with state := .inactive }
  | _, .active =>
    if turnInFlight then { withdrawn with state := .exitPending }
    else { withdrawn with state := .inactive, pendingExitReminder := true }
  | _, _ => withdrawn

def completeDeferredExit : PlanModeTracker :=
  if t.state ≠ .exitPending then t
  else { t with state := .inactive, pendingExitReminder := true }

def queueExitReminder : PlanModeTracker := { t with pendingExitReminder := true }

def recordReminderInjected : PlanModeTracker := { t with reminderCount := t.reminderCount + 1 }

def clearPendingExitReminder : PlanModeTracker := { t with pendingExitReminder := false }

def resetAfterCompaction : PlanModeTracker :=
  if t.state = .active then { t with reminderCount := 0, pendingActivation := none } else t

end PlanModeTracker

/-! ## The session -/

/-- What tells the model about plan mode: a reminder, or a tool result that states the entry
or the exit. -/
inductive Signal where
  | reminder (text : Reminder)
  | entered
  | exited
deriving DecidableEq, Repr

/-- The signal says that plan mode is active. -/
def Signal.saysActive : Signal → Bool
  | .reminder .exit => false
  | .reminder _ => true
  | .entered => true
  | .exited => false

structure Session where
  tracker : PlanModeTracker
  turnInFlight : Bool
  /-- The signals put into the conversation, the last one first. -/
  said : List Signal
deriving DecidableEq, Repr

inductive PlanApprovalOutcome where
  | approved
  | cancelled
  | abandoned
deriving DecidableEq, Repr

namespace Session

def new : Session := ⟨.new, false, []⟩

/-- The last signal says that plan mode is active. -/
def believesActive (s : Session) : Bool := (s.said.head?).any Signal.saysActive

def push (s : Session) (signal : Signal) : Session := { s with said := signal :: s.said }

variable (renders : Reminder → Bool) (s : Session)

def planActivationTemplate (isReentry : Bool) : Reminder := if isReentry then .reentry else .full

/-- A reminder that renders is pushed and counted. -/
def pushReminder (text : Reminder) : Session × Bool :=
  if renders text then
    ({ s.push (.reminder text) with tracker := s.tracker.recordReminderInjected }, true)
  else (s, false)

/-- The activation of a pending plan mode; whether its reminder was injected. -/
def injectActivation : Session × Bool :=
  if s.tracker.state = .pending then
    let text := planActivationTemplate s.tracker.isReentry
    pushReminder renders { s with tracker := s.tracker.activate.1 } text
  else (s, false)

def injectPerTurn : Session :=
  if s.tracker.isActive then
    (pushReminder renders s (if s.tracker.shouldUseFullReminder then .full else .sparse)).1
  else s

def injectExit : Session :=
  if s.tracker.pendingExitReminder then
    let s := if renders .exit then s.push (.reminder .exit) else s
    { s with tracker := s.tracker.clearPendingExitReminder }
  else s

/-- Called once per turn, before the user's message is pushed. -/
def injectPlanModeReminders : Session :=
  match injectActivation renders s with
  | (s, true) => injectExit renders s
  | (s, false) => injectExit renders (injectPerTurn renders s)

/-- The running turn is told at its next flush. -/
def activatePlanModeMidTurn : Session :=
  if s.tracker.state = .pending then
    let text := planActivationTemplate s.tracker.isReentry
    if renders text then { s with tracker := (s.tracker.activateMidTurn text).1 }
    else { s with tracker := s.tracker.activate.1 }
  else s

/-- `handle_session_mode`: the client sets the mode of the session. -/
def handleSessionMode (mode : PromptMode) : Session :=
  match mode with
  | .plan =>
    match s.tracker.enterPending with
    | (tracker, entered) =>
      let s := { s with tracker := tracker }
      if entered && s.turnInFlight then activatePlanModeMidTurn renders s else s
  | _ =>
    if s.tracker.state ≠ .inactive then { s with tracker := s.tracker.userExit s.turnInFlight }
    else s

/-- The mode that a real user turn declares. -/
def reconcilePlanModeWithPrompt (mode : PromptMode) : Session :=
  match mode with
  | .plan => { s with tracker := s.tracker.enterPending.1 }
  | _ =>
    if s.tracker.state ≠ .inactive then { s with tracker := s.tracker.userExit false } else s

/-- A turn starts: only a real user turn declares a mode. While a turn runs the prompt stays
in the queue. -/
def handlePrompt (synthetic : Bool) (mode : PromptMode) : Session :=
  if s.turnInFlight then s
  else
    let s := { s with turnInFlight := true }
    let s := if synthetic then s else s.reconcilePlanModeWithPrompt mode
    injectPlanModeReminders renders s

/-- The buffered activation reaches the running turn. -/
def flushPendingActivation : Session :=
  match s.tracker.takePendingActivation with
  | (tracker, some text) =>
    { s.push (.reminder text) with tracker := tracker.recordReminderInjected }
  | (_, none) => s

/-- The enter tool: its result states the entry. -/
def enterTool : Session := { s.push .entered with tracker := s.tracker.activateFromTool.1 }

def leavePlanModeToDefault : Session := { s with tracker := s.tracker.deactivateApproved.1 }

def approvalAnswered : Session :=
  { s with tracker := s.tracker.setAwaitingPlanApproval false }

/-- The notification of an approved exit. A harness whose result carries no exit signal has the
exit reminder queued. -/
def planModeExited (queueOnApprovedExit : Bool) : Session :=
  match s.tracker.deactivateApproved with
  | (tracker, deactivated) =>
    { s with
      tracker := if deactivated && queueOnApprovedExit then tracker.queueExitReminder else tracker }

/-- The exit tool after the user's decision. -/
def exitTool (outcome : PlanApprovalOutcome) (queueOnApprovedExit : Bool) : Session :=
  let s := s.approvalAnswered
  match outcome with
  | .approved =>
    let s := s.planModeExited queueOnApprovedExit
    if queueOnApprovedExit then s else s.push .exited
  | .abandoned => s.leavePlanModeToDefault.push .exited
  | .cancelled => s

/-- The decision on an approval that was parked over a restart; there is no tool call to
answer. -/
def resumePlanApproval (outcome : PlanApprovalOutcome) : Session :=
  if s.tracker.awaitingPlanApproval then
    match outcome with
    | .cancelled => s.approvalAnswered
    | _ => s.approvalAnswered.leavePlanModeToDefault
  else s

def turnEnd : Session :=
  { s with turnInFlight := false, tracker := s.tracker.completeDeferredExit }

/-- The process is restarted on the persisted snapshot. -/
def restore : Session :=
  { s with turnInFlight := false, tracker := .fromSnapshot s.tracker.snapshot }

inductive Op where
  | sessionMode (mode : PromptMode) (renders : Reminder → Bool)
  | prompt (synthetic : Bool) (mode : PromptMode) (renders : Reminder → Bool)
  | flush
  | enterTool
  | requestApproval
  | exitTool (outcome : PlanApprovalOutcome) (queueOnApprovedExit : Bool)
  | resumeApproval (outcome : PlanApprovalOutcome)
  | turnEnd
  | compaction
  | restore

def step : Op → Session
  | .sessionMode mode renders => handleSessionMode renders s mode
  | .prompt synthetic mode renders => handlePrompt renders s synthetic mode
  | .flush => s.flushPendingActivation
  | .enterTool => s.enterTool
  | .requestApproval => { s with tracker := s.tracker.setAwaitingPlanApproval true }
  | .exitTool outcome queueOnApprovedExit => s.exitTool outcome queueOnApprovedExit
  | .resumeApproval outcome => s.resumePlanApproval outcome
  | .turnEnd => s.turnEnd
  | .compaction => { s with tracker := s.tracker.resetAfterCompaction }
  | .restore => s.restore

end Session

end GrokBuild.PlanMode
