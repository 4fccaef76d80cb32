import GrokBuild.Scheduler.Clock

/-!
# The scheduler actor

One actor owns the task list and the clock. Commands, fires and the shutdown are its steps; a
crash and a restart with any list that was ever handed to persistence is one more. Beside
the actor's own state the model keeps what the consumers were sent and which transitions were
committed, each transition under a number of its own.
-/

namespace GrokBuild.Scheduler

/-- `MAX_SCHEDULED_TASKS`. -/
def maxScheduledTasks : ℕ := 50

/-- `LOOP_FRESH_CHAIN_EVERY`. -/
def loopFreshChainEvery : ℕ := 10

/-- A `DateTime<Utc>` in nanoseconds. -/
abbrev Time := ℤ

/-- `chrono::Duration::seconds(secs as i64)`. -/
def durationSeconds (secs : ℕ) : ℤ := Int.bmod secs (2 ^ 64) * 10 ^ 9

structure ScheduledTask where
  id : String
  intervalSecs : ℕ
  prompt : String
  recurring : Bool
  durable : Bool
  createdAt : Time
  lastFiredAt : Option Time
  expiresAt : Option Time
  lastSubagentId : Option String
  iterationsSinceFresh : ℕ
  chainResetPending : Bool
deriving DecidableEq, Repr

namespace ScheduledTask

def nextFireAt (t : ScheduledTask) : Time :=
  t.lastFiredAt.getD t.createdAt + durationSeconds t.intervalSecs

def nextWakeAt (t : ScheduledTask) : Time :=
  match t.expiresAt with
  | some expiresAt => min t.nextFireAt expiresAt
  | none => t.nextFireAt

def isExpired (t : ScheduledTask) (now : Time) : Bool :=
  match t.expiresAt with
  | some exp => exp ≤ now
  | none => false

end ScheduledTask

def intervalToHuman (secs : ℕ) : String :=
  if secs % 86400 = 0 then
    if secs / 86400 = 1 then "every 1 day" else "every " ++ toString (secs / 86400) ++ " days"
  else if secs % 3600 = 0 then
    if secs / 3600 = 1 then "every 1 hour" else "every " ++ toString (secs / 3600) ++ " hours"
  else if secs % 60 = 0 then
    if secs / 60 = 1 then "every 1 minute" else "every " ++ toString (secs / 60) ++ " minutes"
  else if secs = 1 then "every 1 second"
  else "every " ++ toString secs ++ " seconds"

inductive SchedulerError where
  | taskLimitReached (limit : ℕ)
  | taskNotFound (id : String)
  | persistence
  | notification
  | noDurableNotificationConsumer
  | removalPending (id : String)
  | cancelled
  | timeout
deriving DecidableEq, Repr

inductive RemovedReason where
  | completed
  | expired
  | deleted
  | shutdown
deriving DecidableEq, Repr

inductive Payload where
  | created (taskId prompt humanSchedule : String) (nextFireAt : Option Time)
  | fired (taskId prompt humanSchedule : String) (nextFireAt : Option Time)
      (subagentId : Option String)
  | removed (taskId : String) (reason : RemovedReason)
deriving DecidableEq, Repr

/-- A notification as sent: `transition` numbers the task transition it describes, and is
`none` for a re-announcement. -/
structure Notification (G : Type) where
  payload : Payload
  version : SchedulerVersion G
  transition : Option ℕ
deriving DecidableEq, Repr

/-- `task_created_payload`, its version apart. -/
def taskCreatedPayload (t : ScheduledTask) : Payload :=
  .created t.id t.prompt (intervalToHuman t.intervalSecs) (some t.nextFireAt)

variable {G : Type}

/-! ## The clock with what was sent and committed under it -/

structure Ledger (G : Type) where
  clock : SchedulerVersion G
  draws : ℕ
  sent : List (Notification G)
  /-- The transitions begun so far; the next one gets this number. -/
  transitions : ℕ
  commits : List (ℕ × SchedulerVersion G)
deriving DecidableEq, Repr

namespace Ledger

def renew (uuid : ℕ → G) (l : Ledger G) : Ledger G :=
  { l with clock := (newClock uuid l.draws).1, draws := (newClock uuid l.draws).2 }

def prepare (uuid : ℕ → G) (l : Ledger G) (count : ℕ) :
    Option (SchedulerReservation G × Ledger G) := do
  let (r, draws) ← prepareTransition uuid l.draws l.clock count
  return (r, { l with draws := draws })

/-- A number for a transition whose notification goes out before its commit. -/
def begin (l : Ledger G) : ℕ × Ledger G :=
  (l.transitions, { l with transitions := l.transitions + 1 })

def send (l : Ledger G) (payload : Payload) (version : SchedulerVersion G)
    (transition : Option ℕ) : Ledger G :=
  { l with sent := l.sent ++ [⟨payload, version, transition⟩] }

/-- A re-announcement, at the version the clock shows. -/
def announce (l : Ledger G) (payload : Payload) : Ledger G :=
  l.send payload l.clock none

/-- The commit of the transition numbered `n`. -/
def commit [DecidableEq G] (l : Ledger G) (n : ℕ) (r : SchedulerReservation G) :
    Option (SchedulerVersion G × SchedulerReservation G × Ledger G) := do
  let (c, left, clock) ← r.commitNext l.clock
  return (c.version, left, { l with clock := clock, commits := l.commits ++ [(n, c.version)] })

/-- A transition committed first and sent at the committed version. -/
def commitAndSend [DecidableEq G] (l : Ledger G) (r : SchedulerReservation G)
    (payload : Payload) : Option (SchedulerReservation G × Ledger G) := do
  let (n, l) := l.begin
  let (version, left, l) ← l.commit n r
  return (left, l.send payload version (some n))

end Ledger

/-! ## The actor's state -/

structure PendingDurableRemoval (G : Type) where
  taskId : String
  reservation : SchedulerReservation G
  transition : ℕ
deriving DecidableEq, Repr

structure SchedulerActor (G : Type) where
  ledger : Ledger G
  tasks : List ScheduledTask
  pendingRemoval : Option (PendingDurableRemoval G)
  blockedExpiries : List String
  running : Bool
  /-- Every list the state has held: what a restart may find on disk. -/
  saved : List (List ScheduledTask)
deriving DecidableEq, Repr

namespace SchedulerActor

def setTasks (s : SchedulerActor G) (tasks : List ScheduledTask) : SchedulerActor G :=
  { s with tasks := tasks, saved := tasks :: s.saved }

/-- `iter_mut().find(p)` followed by an update of the task found. -/
def modifyFirst (p : ScheduledTask → Bool) (f : ScheduledTask → ScheduledTask)
    (tasks : List ScheduledTask) : List ScheduledTask :=
  match tasks.findIdx? p with
  | some i => tasks.modify i f
  | none => tasks

/-! ## Start and shutdown -/

/-- `announce_existing_tasks`. -/
def announceExistingTasks (s : SchedulerActor G) (now : Time) : SchedulerActor G :=
  { s with
    ledger := (s.tasks.filter fun t => t.recurring || decide (now < t.nextFireAt)).foldl
      (fun l t => l.announce (taskCreatedPayload t)) s.ledger }

/-- A new actor over the `index`-th stored list, after a shutdown or a crash. -/
def start (uuid : ℕ → G) (s : SchedulerActor G) (now : Time) (index : ℕ) : SchedulerActor G :=
  announceExistingTasks
    { s with
      ledger := s.ledger.renew uuid
      tasks := s.saved.getD index []
      pendingRemoval := none
      blockedExpiries := []
      running := true } now

variable [DecidableEq G]

def shutdownTasks : List String → SchedulerReservation G → Ledger G → Option (Ledger G)
  | [], _, l => some l
  | taskId :: taskIds, r, l => do
    let (left, l) ← l.commitAndSend r (.removed taskId .shutdown)
    shutdownTasks taskIds left l

/-- The end of `run`, once its loop is cancelled. -/
def shutdown (uuid : ℕ → G) (s : SchedulerActor G) : Option (SchedulerActor G) := do
  let taskIds := s.tasks.map ScheduledTask.id
  if taskIds.isEmpty then
    return { s with running := false }
  else
    let (r, l) ← s.ledger.prepare uuid taskIds.length
    let l ← shutdownTasks taskIds r l
    return { s with ledger := l, running := false }

/-! ## Commands -/

inductive SchedulerCommand where
  | create (task : ScheduledTask)
  | update (id : String) (prompt : Option String) (intervalSecs : Option ℕ)
  | delete (id : String)
  | list
deriving DecidableEq, Repr

inductive Reply (G : Type) where
  | task (result : Except SchedulerError ScheduledTask)
  | deleted (result : Except SchedulerError Bool)
  | snapshot (version : SchedulerVersion G) (tasks : List ScheduledTask)

/-- What the outside answers while a command runs: the two readings of the clock on the wall,
the two readings of `durable_targets`, and the outcomes of the two durability barriers. -/
structure CommandEnv where
  now : Time
  nowAgain : Time
  targets : Bool
  targetsAtCompletion : Bool
  persisted : Except SchedulerError Unit
  acknowledged : Except SchedulerError Unit

def completePendingRemoval (s : SchedulerActor G) (env : CommandEnv) :
    Option (SchedulerActor G × Except SchedulerError Bool) :=
  match s.pendingRemoval with
  | none => none  -- `expect("pending durable removal exists")`
  | some p =>
    if !env.targetsAtCompletion then
      some ({ s with pendingRemoval := none }, .error .noDurableNotificationConsumer)
    else
      match env.persisted with
      | .error e => some (s, .error e)
      | .ok () => do
        let version ← p.reservation.versionAt 0
        let published := s.ledger.send (.removed p.taskId .deleted) version (some p.transition)
        match env.acknowledged with
        | .error e => return ({ s with ledger := published }, .error e)
        | .ok () =>
          let (_, _, l) ← published.commit p.transition p.reservation
          return ({ s with ledger := l, pendingRemoval := none }, .ok true)

/-- The patch of one task by an `Update`. -/
def patchTask (env : CommandEnv) (prompt : Option String) (intervalSecs : Option ℕ)
    (t : ScheduledTask) : ScheduledTask :=
  let t := match prompt with
    | some p =>
      if p ≠ t.prompt then
        { t with chainResetPending := true, iterationsSinceFresh := 0, prompt := p }
      else { t with prompt := p }
    | none => t
  match intervalSecs with
  | some secs =>
    let t := { t with intervalSecs := secs }
    if t.nextFireAt ≤ env.now then { t with lastFiredAt := some env.nowAgain } else t
  | none => t

/-- `handle_command`. -/
def handleCommand (uuid : ℕ → G) (s : SchedulerActor G) (env : CommandEnv) :
    SchedulerCommand → Option (SchedulerActor G × Reply G)
  | .create task =>
    match s.pendingRemoval with
    | some p => some (s, .task (.error (.removalPending p.taskId)))
    | none =>
      if maxScheduledTasks ≤ s.tasks.length then
        some (s, .task (.error (.taskLimitReached maxScheduledTasks)))
      else do
        let (r, l) ← s.ledger.prepare uuid 1
        let (_, l) ← l.commitAndSend r (taskCreatedPayload task)
        return ({ s.setTasks (s.tasks ++ [task]) with ledger := l }, .task (.ok task))
  | .update id prompt intervalSecs =>
    match s.pendingRemoval with
    | some p => some (s, .task (.error (.removalPending p.taskId)))
    | none =>
      match s.tasks.findIdx? fun t => t.id == id with
      | none => some (s, .task (.error (.taskNotFound id)))
      | some index => do
        let (r, l) ← s.ledger.prepare uuid 1
        let task ← s.tasks[index]?
        let updated := patchTask env prompt intervalSecs task
        let (_, l) ← l.commitAndSend r (taskCreatedPayload updated)
        return ({ s.setTasks (s.tasks.set index updated) with ledger := l },
          .task (.ok updated))
  | .delete id =>
    match s.pendingRemoval with
    | some p =>
      if p.taskId = id then do
        let (s, result) ← s.completePendingRemoval env
        return (s, .deleted result)
      else some (s, .deleted (.error (.removalPending p.taskId)))
    | none =>
      match s.tasks.findIdx? fun t => t.id == id with
      | none => some (s, .deleted (.ok false))
      | some index =>
        if !env.targets then some (s, .deleted (.error .noDurableNotificationConsumer))
        else do
          let (r, l) ← s.ledger.prepare uuid 1
          let (n, l) := l.begin
          let pending := { s.setTasks (s.tasks.eraseIdx index) with
            ledger := l, pendingRemoval := some ⟨id, r, n⟩ }
          let (s, result) ← pending.completePendingRemoval env
          return (s, .deleted result)
  | .list => some (s, .snapshot s.ledger.clock s.tasks)

/-! ## Fires -/

inductive SnapshotStatus where
  | initializing
  | running
  | completed
  | failed
  | cancelled
deriving DecidableEq, Repr

/-- The answer to the query for the previous iteration: lost when the coordinator is gone, the
query times out or the actor is cancelled. -/
inductive QueryReply where
  | lost
  | answered (status : Option SnapshotStatus)
deriving DecidableEq, Repr

/-- How the coordinator takes the spawn. -/
inductive Registration where
  | gone
  | cancelled
  | refused
  | registered
  | timedOut
deriving DecidableEq, Repr

inductive ExpiryPersistenceOutcome where
  | committed
  | notCommitted
  | unknown
deriving DecidableEq, Repr

inductive LoopFireOutcome where
  | spawned (subagentId : String)
  | skipped
deriving DecidableEq, Repr

/-- What the outside answers while a task fires or expires. -/
structure FireEnv where
  now : Time
  targets : Bool
  expiryPersistence : ExpiryPersistenceOutcome
  acknowledged : Bool
  wired : Bool
  previous : QueryReply
  /-- `LoopUnitActive`; `none` when the answer is lost. -/
  unitActive : Option Bool
  subagentId : String
  registration : Registration
deriving DecidableEq, Repr

def setAnchor (last : Option String) (iterations : ℕ) (reset : Bool) (t : ScheduledTask) :
    ScheduledTask :=
  { t with lastSubagentId := last, iterationsSinceFresh := iterations,
           chainResetPending := reset }

/-- The iteration count a fire leaves in the task: `1` for a fresh chain. -/
def nextIterationsSinceFresh (task : ScheduledTask) (status : Option SnapshotStatus) : ℕ :=
  let anchorUsable := decide (status = some .completed) && task.lastSubagentId.isSome
  if task.chainResetPending then 1
  else if loopFreshChainEvery ≤ task.iterationsSinceFresh ∨ anchorUsable = false then 1
  else task.iterationsSinceFresh + 1

/-- The end of `fire_as_loop_subagent`, from the lookup that records the new anchor. -/
def spawnIteration (env : FireEnv) (tasks : List ScheduledTask) (task : ScheduledTask)
    (iterations : ℕ) : List ScheduledTask × LoopFireOutcome :=
  let isTask := fun t : ScheduledTask => t.id == task.id
  if tasks.any isTask then
    let anchored := modifyFirst isTask (setAnchor (some env.subagentId) iterations false) tasks
    -- `restore_fire_anchor`
    let restored := modifyFirst isTask
      (setAnchor task.lastSubagentId task.iterationsSinceFresh task.chainResetPending) anchored
    match env.registration with
    | .gone => (restored, .skipped)
    | .cancelled => (anchored, .skipped)
    | .refused => (restored, .skipped)
    | .registered => (anchored, .spawned env.subagentId)
    | .timedOut => (anchored, .spawned env.subagentId)
  else (tasks, .skipped)

/-- `fire_as_loop_subagent`: the task list with the task's chain anchor as it is left. -/
def fireAsLoopSubagent (env : FireEnv) (tasks : List ScheduledTask) (task : ScheduledTask) :
    List ScheduledTask × LoopFireOutcome :=
  -- without a previous iteration neither question is asked
  let previous := if task.lastSubagentId.isSome then env.previous else .answered none
  let unitActive := if task.lastSubagentId.isSome then env.unitActive else some false
  match previous with
  | .lost => (tasks, .skipped)
  | .answered status =>
    if status = some .initializing ∨ status = some .running then (tasks, .skipped)
    else if unitActive ≠ some false then (tasks, .skipped)
    else spawnIteration env tasks task (nextIterationsSinceFresh task status)

/-- The handoff of a due task; a fire without a coordinator is skipped. -/
def handOff (env : FireEnv) (tasks : List ScheduledTask) (task : ScheduledTask) :
    List ScheduledTask × LoopFireOutcome :=
  if env.wired then fireAsLoopSubagent env tasks task else (tasks, .skipped)

/-- The branch of `fire_next_task` for a durable task past its deadline. -/
def expireDurable (uuid : ℕ → G) (s : SchedulerActor G) (env : FireEnv) (idx : ℕ)
    (task : ScheduledTask) : Option (SchedulerActor G) :=
  if !env.targets then
    some { s with blockedExpiries := task.id :: s.blockedExpiries }
  else do
    let (r, l) ← s.ledger.prepare uuid 1
    let removed := { s.setTasks (s.tasks.eraseIdx idx) with ledger := l }
    match env.expiryPersistence with
    | .notCommitted =>
      return { removed.setTasks (removed.tasks.insertIdx idx task) with
        blockedExpiries := task.id :: s.blockedExpiries }
    | .unknown => return removed
    | .committed =>
      let version ← r.versionAt 0
      let (n, l) := l.begin
      let published := l.send (.removed task.id .expired) version (some n)
      if env.acknowledged then
        let (_, _, l) ← published.commit n r
        return { removed with ledger := l }
      else return { removed with ledger := published }

/-- The branch of `fire_next_task` for a task past its deadline that is not durable. -/
def expire (uuid : ℕ → G) (s : SchedulerActor G) (idx : ℕ) (task : ScheduledTask) :
    Option (SchedulerActor G) := do
  let (r, l) ← s.ledger.prepare uuid 1
  let (_, l) ← l.commitAndSend r (.removed task.id .expired)
  return { s.setTasks (s.tasks.eraseIdx idx) with ledger := l }

/-- A skipped fire announces the task again, with the cadence it now has. -/
def announceSkipped (s : SchedulerActor G) (taskId : String) : SchedulerActor G :=
  match s.tasks.find? fun t => t.id == taskId with
  | some t => { s with ledger := s.ledger.announce (taskCreatedPayload t) }
  | none => s

/-- A fire whose child started: it is committed, and a one-shot task is then removed under the
second half of the reservation. -/
def commitFire (s : SchedulerActor G) (r : SchedulerReservation G) (task : ScheduledTask)
    (nextFireAt : Time) (subagentId : String) : Option (SchedulerActor G) := do
  let (left, l) ← s.ledger.commitAndSend r
    (.fired task.id task.prompt (intervalToHuman task.intervalSecs)
      (if task.recurring then some nextFireAt else none) (some subagentId))
  if task.recurring then return { s with ledger := l }
  else
    let (_, l) ← l.commitAndSend left (.removed task.id .completed)
    return { s.setTasks (s.tasks.filter fun t => t.id != task.id) with ledger := l }

/-- The branch of `fire_next_task` that hands a due task to a subagent. -/
def fireDue (uuid : ℕ → G) (s : SchedulerActor G) (env : FireEnv) (idx : ℕ)
    (task : ScheduledTask) : Option (SchedulerActor G) := do
  let (r, l) ← s.ledger.prepare uuid (if task.recurring then 1 else 2)
  -- the cadence advances before the handoff, whatever its outcome
  let advanced := { task with lastFiredAt := some env.now }
  let waiting := { s.setTasks (s.tasks.set idx advanced) with ledger := l }
  let fired := handOff env waiting.tasks task
  match fired.2 with
  | .skipped => return (waiting.setTasks fired.1).announceSkipped task.id
  | .spawned id => (waiting.setTasks fired.1).commitFire r task advanced.nextFireAt id

/-- `fire_next_task`. -/
def fireNextTask (uuid : ℕ → G) (s : SchedulerActor G) (env : FireEnv) :
    Option (SchedulerActor G) :=
  match s.tasks.findIdx? fun t =>
      decide (t.nextWakeAt ≤ env.now) && !s.blockedExpiries.contains t.id with
  | none => some s
  | some idx => do
    let task ← s.tasks[idx]?
    if task.recurring && task.isExpired env.now then
      if task.durable then s.expireDurable uuid env idx task else s.expire uuid idx task
    else s.fireDue uuid env idx task

/-- The guard task of a spawned iteration that failed: it clears the anchor it finds. -/
def clearAnchor (s : SchedulerActor G) (subagentId : String) : SchedulerActor G :=
  s.setTasks (modifyFirst (fun t => t.lastSubagentId == some subagentId)
    (fun t => { t with lastSubagentId := none, iterationsSinceFresh := 0 }) s.tasks)

/-! ## Steps -/

inductive Op where
  | start (now : Time) (index : ℕ)
  | command (env : CommandEnv) (command : SchedulerCommand)
  | fire (env : FireEnv)
  | spawnFailed (subagentId : String)
  | shutdown

/-- One turn of the actor, or an event around it; `none` is a failed assertion. -/
def step (uuid : ℕ → G) (s : SchedulerActor G) : Op → Option (SchedulerActor G)
  | .start now index => some (s.start uuid now index)
  | .command env command =>
    if s.running then (s.handleCommand uuid env command).map Prod.fst else some s
  | .fire env =>
    -- the timer's branch of the `select!` is off while a removal is pending
    if s.running && s.pendingRemoval.isNone then s.fireNextTask uuid env else some s
  | .spawnFailed subagentId => some (s.clearAnchor subagentId)
  | .shutdown => if s.running then s.shutdown uuid else some s

end SchedulerActor

end GrokBuild.Scheduler
