import GrokBuild.Transcript.Seam

/-!
# Tool calls behind the collapser

A replay gives each tool call to the client as one update, the call with all that was said of it.
The client is compared with one that gets every update but those of progress. Both look at a call
through its own events only, so the comparison is made for one call at a time.
-/

namespace GrokBuild.Transcript.Seam

open GrokBuild.Text

variable {V : Type}

section Definitions

/-- What `push` forwards, in order. -/
def forwarded (pending : ReplayToolCollapser V) : List (SessionUpdate V) → List (SessionUpdate V)
  | [] => []
  | update :: updates =>
    (push pending update).2.toList ++ forwarded (push pending update).1 updates

def received (client : Client V) (updates : List (SessionUpdate V)) : Client V :=
  StepRun.run Client.receive client updates

/-- An update whose status is `pending` or `in_progress`. -/
def isProgress : SessionUpdate V → Bool
  | .toolCallUpdate _ fields => fields.status.any fun status => !status.isTerminal
  | _ => false

def collapsedClient (updates : List (SessionUpdate V)) : Client V :=
  received {} (forwarded (fun _ => none) updates)

def originalClient (updates : List (SessionUpdate V)) : Client V :=
  received {} (updates.filter fun update => !isProgress update)

/-- The update carries the call or a part of it. -/
def carries (id : Str) : SessionUpdate V → Bool
  | .toolCall call => call.toolCallId = id
  | .toolCallUpdate id' _ => id' = id
  | _ => false

/-- The update says that the call completed or failed. -/
def ends (id : Str) : SessionUpdate V → Bool
  | .toolCall call => call.toolCallId = id && call.status.isTerminal
  | .toolCallUpdate id' fields => id' = id && fields.status.any ToolCallStatus.isTerminal
  | _ => false

/-- At some point the call is there and has completed or failed. -/
def Ended (id : Str) (updates : List (SessionUpdate V)) : Prop :=
  ∃ before, before <+: updates ∧
    ((originalClient before).calls id).any (fun call => call.status.isTerminal) = true

/-- Calls that ended are the same behind the collapser, and none is forwarded twice that did not
end twice. -/
def CollapseKeepsCalls (updates : List (SessionUpdate V)) : Prop :=
  (∀ id, Ended id updates → (collapsedClient updates).calls id = (originalClient updates).calls id) ∧
  ∀ id, 2 ≤ (forwarded (fun _ => none) updates).countP (carries id) →
    2 ≤ updates.countP (ends id)

end Definitions

section Events

/-- What the updates say of one call. -/
inductive CallEvent (V : Type) where
  | start (call : ToolCall V) (h : call.status.isTerminal = false)
  | done (call : ToolCall V) (h : call.status.isTerminal = true)
  | plain (fields : ToolCallUpdateFields V) (h : fields.status = none)
  | complete (fields : ToolCallUpdateFields V) (status : ToolCallStatus)
      (h : fields.status = some status) (hterminal : status.isTerminal = true)

def updateEvent (fields : ToolCallUpdateFields V) : Option (CallEvent V) :=
  match h : fields.status with
  | none => some (.plain fields h)
  | some status =>
    if hterminal : status.isTerminal = true then some (.complete fields status h hterminal) else none

def eventOf (id : Str) : SessionUpdate V → Option (CallEvent V)
  | .toolCall call =>
    if call.toolCallId = id then
      if h : call.status.isTerminal = true then some (.done call h)
      else some (.start call (eq_false_of_ne_true h))
    else none
  | .toolCallUpdate id' fields => if id' = id then updateEvent fields else none
  | _ => none

def eventsOf (id : Str) (updates : List (SessionUpdate V)) : List (CallEvent V) :=
  updates.filterMap (eventOf id)

namespace CallEvent

/-- The event is a tool call of its own. -/
def isCall : CallEvent V → Bool
  | .start _ _ | .done _ _ => true
  | .plain _ _ | .complete _ _ _ _ => false

def isCompletion : CallEvent V → Bool
  | .complete _ _ _ _ => true
  | _ => false

/-- The fields of an update are put into the call. -/
def applyTo (call : ToolCall V) : CallEvent V → ToolCall V
  | .start _ _ | .done _ _ => call
  | .plain fields _ | .complete fields _ _ _ => call.update fields

end CallEvent

def withAll (call : ToolCall V) (events : List (CallEvent V)) : ToolCall V :=
  events.foldl CallEvent.applyTo call

/-- The events without the updates that have no status and come when the call is complete. -/
def withoutLate : List (CallEvent V) → List (CallEvent V)
  | [] => []
  | event :: events =>
    if event.isCompletion then event :: events.filter CallEvent.isCompletion
    else event :: withoutLate events

/-- The call that was started and has not been completed since, with its updates so far. -/
def openCall (opened : Option (ToolCall V)) : CallEvent V → Option (ToolCall V)
  | .start call _ => some call
  | .done _ _ => opened
  | .plain fields _ => opened.map (·.update fields)
  | .complete _ _ _ _ => none

/-- Behind the last tool call with the id, the late updates say nothing that is left in the end.
A last call that has only started is completed. Where one started earlier is still open, the last
call is no different from it. -/
def LateSayNothing (events : List (CallEvent V)) : Prop :=
  (∀ before call h tail, events = before ++ .start call h :: tail →
    tail.all (fun event => !event.isCall) = true →
    tail.any CallEvent.isCompletion = true ∧ withAll call (withoutLate tail) = withAll call tail) ∧
  ∀ before call h tail, events = before ++ .done call h :: tail →
    tail.all (fun event => !event.isCall) = true →
    match StepRun.run openCall none before with
    | some base =>
      if tail.any CallEvent.isCompletion then withAll base (withoutLate tail) = withAll call tail
      else call = withAll call tail
    | none => withAll call (tail.filter CallEvent.isCompletion) = withAll call tail

end Events

section View

/-- One call as the collapser holds it, and as the two clients have it. -/
structure CallView (V : Type) where
  opened : Option (ToolCall V) := none
  collapsed : Option (ToolCall V) := none
  original : Option (ToolCall V) := none

def CallView.step (view : CallView V) : CallEvent V → CallView V
  | .start call _ => { view with opened := some call, original := some call }
  | .done call _ => { view with collapsed := some call, original := some call }
  | .plain fields _ =>
    { view with
      opened := view.opened.map (·.update fields)
      original := view.original.map (·.update fields) }
  | .complete fields _ _ _ =>
    { opened := none
      collapsed := view.opened.elim (view.collapsed.map (·.update fields))
        fun base => some (base.update fields)
      original := view.original.map (·.update fields) }

def callView (pending : ReplayToolCollapser V) (collapsed original : Client V) (id : Str) :
    CallView V :=
  ⟨pending id, collapsed.calls id, original.calls id⟩

/-- The state of the collapser and the two clients, and what an update does to it. -/
def receiveBoth (s : ReplayToolCollapser V × Client V × Client V) (update : SessionUpdate V) :
    ReplayToolCollapser V × Client V × Client V :=
  ((push s.1 update).1, (push s.1 update).2.elim s.2.1 s.2.1.receive,
    if isProgress update then s.2.2 else s.2.2.receive update)

theorem updateEvent_plain {fields : ToolCallUpdateFields V} (h : fields.status = none) :
    updateEvent fields = some (.plain fields h) := by
  unfold updateEvent
  split
  · rfl
  · next hstatus => rw [h] at hstatus; cases hstatus

theorem updateEvent_some {fields : ToolCallUpdateFields V} {status : ToolCallStatus}
    (h : fields.status = some status) :
    updateEvent fields = if hterminal : status.isTerminal = true then
      some (.complete fields status h hterminal) else none := by
  unfold updateEvent
  split
  · next hstatus => rw [h] at hstatus; cases hstatus
  · next status' hstatus =>
    obtain rfl : status = status' := Option.some_inj.1 (h.symm.trans hstatus)
    rfl

theorem Keyed.push {pending : ReplayToolCollapser V} (h : Keyed pending)
    (update : SessionUpdate V) : Keyed (push pending update).1 := by
  unfold Seam.push
  split
  · exact h
  · next call =>
    split
    · exact h
    · exact h.update fun base hbase => by rw [← Option.some_inj.1 hbase]
  · next id fields =>
    split
    · refine h.update fun base hbase => ?_
      obtain ⟨call, hcall, rfl⟩ := Option.map_eq_some_iff.1 hbase
      exact h id call hcall
    · split
      · split
        · exact h.update fun base hbase => by (cases hbase)
        · exact h
      · exact h
  · exact h

theorem receive_update_of_ne (client : Client V) {id id' : Str} (h : id ≠ id')
    (fields : ToolCallUpdateFields V) :
    (client.receive (.toolCallUpdate id' fields)).calls id = client.calls id :=
  Function.update_of_ne h _ _

theorem receive_call_of_ne (client : Client V) {id : Str} {call : ToolCall V}
    (h : id ≠ call.toolCallId) : (client.receive (.toolCall call)).calls id = client.calls id :=
  Function.update_of_ne h _ _

/-- An update changes what is had of a call by its event for the call, and not without one. -/
theorem receiveBoth_view (s : ReplayToolCollapser V × Client V × Client V) (hkeyed : Keyed s.1)
    (update : SessionUpdate V) (id : Str) :
    callView (receiveBoth s update).1 (receiveBoth s update).2.1 (receiveBoth s update).2.2 id =
      (eventOf id update).elim (callView s.1 s.2.1 s.2.2 id) (callView s.1 s.2.1 s.2.2 id).step := by
  cases update with
  | availableCommandsUpdate commands => rfl
  | other update => rfl
  | toolCall call =>
    by_cases hid : call.toolCallId = id
    · subst hid
      by_cases hterminal : call.status.isTerminal = true
      · simp [receiveBoth, push, eventOf, callView, CallView.step, isProgress, Client.receive,
          hterminal]
      · simp [receiveBoth, push, eventOf, callView, CallView.step, isProgress, Client.receive,
          hterminal]
    · have hne : id ≠ call.toolCallId := fun h => hid h.symm
      by_cases hterminal : call.status.isTerminal = true
      · simp [receiveBoth, push, eventOf, callView, isProgress, receive_call_of_ne, hterminal,
          hid, hne]
      · simp [receiveBoth, push, eventOf, callView, isProgress, receive_call_of_ne, hterminal,
          hid, hne]
  | toolCallUpdate id' fields =>
    by_cases hid : id' = id
    · subst hid
      cases hstatus : fields.status with
      | none =>
        have hevent := updateEvent_plain hstatus
        simp [receiveBoth, push, eventOf, hevent, callView, CallView.step, isProgress,
          Client.receive, hstatus]
      | some status =>
        have hevent := updateEvent_some hstatus
        by_cases hterminal : status.isTerminal = true
        · cases hopen : s.1 id' with
          | none =>
            simp [receiveBoth, push, eventOf, hevent, callView, CallView.step, isProgress,
              Client.receive, hstatus, hterminal, hopen]
          | some base =>
            have hbase : (base.update fields).toolCallId = id' := hkeyed id' base hopen
            simp [receiveBoth, push, eventOf, hevent, callView, CallView.step, isProgress,
              Client.receive, hstatus, hterminal, hopen, hbase]
        · simp [receiveBoth, push, eventOf, hevent, callView, isProgress, hstatus, hterminal]
    · have hne : id ≠ id' := fun h => hid h.symm
      cases hstatus : fields.status with
      | none =>
        simp [receiveBoth, push, eventOf, hid, callView, isProgress, receive_update_of_ne, hstatus,
          hne]
      | some status =>
        by_cases hterminal : status.isTerminal = true
        · cases hopen : s.1 id' with
          | none =>
            simp [receiveBoth, push, eventOf, hid, callView, isProgress, receive_update_of_ne,
              hstatus, hterminal, hopen, hne]
          | some base =>
            -- the call goes to the client under its own id, which is the one it was held under
            have hbase : id ≠ (base.update fields).toolCallId := by
              rw [show (base.update fields).toolCallId = id' from hkeyed id' base hopen]
              exact hne
            simp [receiveBoth, push, eventOf, hid, callView, isProgress, receive_update_of_ne,
              receive_call_of_ne _ hbase, hstatus, hterminal, hopen, hne]
        · simp [receiveBoth, push, eventOf, hid, callView, isProgress, hstatus, hterminal]

theorem run_receiveBoth_view (s : ReplayToolCollapser V × Client V × Client V) (hkeyed : Keyed s.1)
    (updates : List (SessionUpdate V)) (id : Str) :
    callView (StepRun.run receiveBoth s updates).1 (StepRun.run receiveBoth s updates).2.1
        (StepRun.run receiveBoth s updates).2.2 id =
      StepRun.run CallView.step (callView s.1 s.2.1 s.2.2 id) (eventsOf id updates) := by
  induction updates generalizing s with
  | nil => rfl
  | cons update updates ih =>
    rw [StepRun.run_cons, ih _ (hkeyed.push update), receiveBoth_view s hkeyed, eventsOf, eventsOf,
      List.filterMap_cons]
    cases eventOf id update with
    | none => rfl
    | some event => rfl

/-- The two clients of the run are those of the forwarded updates and of all but the progress. -/
theorem run_receiveBoth (s : ReplayToolCollapser V × Client V × Client V)
    (updates : List (SessionUpdate V)) :
    (StepRun.run receiveBoth s updates).2 = (received s.2.1 (forwarded s.1 updates),
      received s.2.2 (updates.filter fun update => !isProgress update)) := by
  induction updates generalizing s with
  | nil => rfl
  | cons update updates ih =>
    rw [StepRun.run_cons, ih, forwarded, List.filter_cons]
    congr 1
    · cases hpush : (push s.1 update).2 with
      | none => simp [receiveBoth, hpush]
      | some update' => simp [receiveBoth, hpush, received]
    · cases hprogress : isProgress update with
      | true => simp [receiveBoth, hprogress]
      | false => simp [receiveBoth, hprogress, received]

end View

section Count

/-- An update is forwarded for a call exactly where it says that the call ended. -/
theorem push_carries {pending : ReplayToolCollapser V} (hkeyed : Keyed pending)
    (update : SessionUpdate V) (id : Str) :
    (push pending update).2.any (carries id) = ends id update := by
  cases update with
  | availableCommandsUpdate commands => rfl
  | other update => rfl
  | toolCall call =>
    by_cases hterminal : call.status.isTerminal = true
    · simp [push, hterminal, carries, ends]
    · simp [push, hterminal, ends]
  | toolCallUpdate id' fields =>
    cases hstatus : fields.status with
    | none => simp [push, hstatus, ends]
    | some status =>
      by_cases hterminal : status.isTerminal = true
      · cases hopen : pending id' with
        | none => simp [push, hstatus, hterminal, hopen, carries, ends]
        | some base =>
          have hbase : (base.update fields).toolCallId = id' := hkeyed id' base hopen
          simp [push, hstatus, hterminal, hopen, carries, ends, hbase]
      · simp [push, hstatus, hterminal, ends]

theorem forwarded_count {pending : ReplayToolCollapser V} (hkeyed : Keyed pending)
    (updates : List (SessionUpdate V)) (id : Str) :
    (forwarded pending updates).countP (carries id) = updates.countP (ends id) := by
  induction updates generalizing pending with
  | nil => rfl
  | cons update updates ih =>
    rw [forwarded, List.countP_append, ih (hkeyed.push update), List.countP_cons,
      ← push_carries hkeyed update id, Nat.add_comm]
    cases (push pending update).2 with
    | none => rfl
    | some update' => simp [List.countP_cons]

end Count

section Tail

variable {tail : List (CallEvent V)}

theorem run_opened (view : CallView V) (events : List (CallEvent V)) :
    (StepRun.run CallView.step view events).opened = StepRun.run openCall view.opened events := by
  induction events generalizing view with
  | nil => rfl
  | cons event events ih =>
    rw [StepRun.run_cons, ih, StepRun.run_cons]
    cases event with
    | start call h => rfl
    | done call h => rfl
    | plain fields h => rfl
    | complete fields status h hterminal => rfl

/-- Behind the last tool call the original client puts every update into the call. -/
theorem tail_original (view : CallView V) (h : tail.all (fun event => !event.isCall) = true) :
    (StepRun.run CallView.step view tail).original = view.original.map (withAll · tail) := by
  induction tail generalizing view with
  | nil => simp [withAll]
  | cons event tail ih =>
    rw [List.all_cons, Bool.and_eq_true] at h
    rw [StepRun.run_cons, ih _ h.2]
    cases event with
    | start call hcall => cases h.1
    | done call hcall => cases h.1
    | plain fields hfields => exact Option.map_map ..
    | complete fields status hfields hterminal => exact Option.map_map ..

/-- Of a call that is not open, the collapsed client gets the completions only. -/
theorem tail_closed (view : CallView V) (hopened : view.opened = none)
    (h : tail.all (fun event => !event.isCall) = true) :
    (StepRun.run CallView.step view tail).collapsed =
      view.collapsed.map (withAll · (tail.filter CallEvent.isCompletion)) := by
  induction tail generalizing view with
  | nil => simp [withAll]
  | cons event tail ih =>
    rw [List.all_cons, Bool.and_eq_true] at h
    rw [StepRun.run_cons]
    cases event with
    | start call hcall => cases h.1
    | done call hcall => cases h.1
    | plain fields hfields => exact ih _ (by simp [CallView.step, hopened]) h.2
    | complete fields status hfields hterminal =>
      rw [ih _ rfl h.2, List.filter_cons_of_pos rfl]
      simp [CallView.step, hopened, withAll, CallEvent.applyTo, Function.comp_def]

/-- An open call reaches the collapsed client with its first completion, without what is late. -/
theorem tail_opened (view : CallView V) (base : ToolCall V) (hopened : view.opened = some base)
    (h : tail.all (fun event => !event.isCall) = true) :
    (StepRun.run CallView.step view tail).collapsed =
      if tail.any CallEvent.isCompletion then some (withAll base (withoutLate tail))
      else view.collapsed := by
  induction tail generalizing view base with
  | nil => rfl
  | cons event tail ih =>
    rw [List.all_cons, Bool.and_eq_true] at h
    rw [StepRun.run_cons]
    cases event with
    | start call hcall => cases h.1
    | done call hcall => cases h.1
    | plain fields hfields =>
      rw [ih _ (base.update fields) (by simp [CallView.step, hopened]) h.2]
      simp [CallView.step, CallEvent.isCompletion, withoutLate, withAll, CallEvent.applyTo]
    | complete fields status hfields hterminal =>
      rw [tail_closed _ rfl h.2]
      simp [CallView.step, hopened, CallEvent.isCompletion, withoutLate, withAll,
        CallEvent.applyTo]

end Tail

section Calls

theorem update_status (call : ToolCall V) (fields : ToolCallUpdateFields V) :
    (call.update fields).status = fields.status.getD call.status := rfl

/-- What the collapsed client has of a call is a call that ended. -/
theorem collapsed_terminal (view : CallView V)
    (h : ∀ call ∈ view.collapsed, call.status.isTerminal = true) (events : List (CallEvent V)) :
    ∀ call ∈ (StepRun.run CallView.step view events).collapsed, call.status.isTerminal = true := by
  refine StepRun.invariant
    (P := fun view : CallView V => ∀ call ∈ view.collapsed, call.status.isTerminal = true)
    (fun view event h => ?_) h events
  cases event with
  | start call hcall => exact h
  | done call hcall =>
    intro call' hmem
    rw [← Option.some_inj.1 hmem]
    exact hcall
  | plain fields hfields => exact h
  | complete fields status hfields hterminal =>
    intro call hmem
    have hupdated : ∃ base : ToolCall V, base.update fields = call := by
      cases hopen : view.opened with
      | none =>
        rw [CallView.step, hopen] at hmem
        obtain ⟨base, -, hbase⟩ := Option.map_eq_some_iff.1 hmem
        exact ⟨base, hbase⟩
      | some base =>
        rw [CallView.step, hopen] at hmem
        exact ⟨base, Option.some_inj.1 hmem⟩
    obtain ⟨base, rfl⟩ := hupdated
    rw [update_status, hfields]
    exact hterminal

/-- Without a completion the call stays as far as it was. -/
theorem withAll_status {tail : List (CallEvent V)} (call : ToolCall V)
    (h : tail.any CallEvent.isCompletion = false) : (withAll call tail).status = call.status := by
  induction tail generalizing call with
  | nil => rfl
  | cons event tail ih =>
    rw [List.any_cons, Bool.or_eq_false_iff] at h
    rw [withAll, List.foldl_cons]
    refine (ih _ h.2).trans ?_
    cases event with
    | start call' hcall => rfl
    | done call' hcall => rfl
    | plain fields hfields =>
      rw [CallEvent.applyTo, update_status, hfields]
      rfl
    | complete fields status hfields hterminal => cases h.1

theorem exists_lastCall (events : List (CallEvent V)) (h : events.any CallEvent.isCall = true) :
    ∃ before event tail, events = before ++ event :: tail ∧ event.isCall = true ∧
      tail.all (fun event => !event.isCall) = true := by
  induction events with
  | nil => cases h
  | cons event events ih =>
    by_cases hlater : events.any CallEvent.isCall = true
    · obtain ⟨before, event', tail, rfl, hcall, htail⟩ := ih hlater
      exact ⟨event :: before, event', tail, rfl, hcall, htail⟩
    · rw [List.any_cons, Bool.or_eq_true] at h
      refine ⟨[], event, events, rfl, h.resolve_right hlater, ?_⟩
      rw [Bool.not_eq_true, List.any_eq_false] at hlater
      rw [List.all_eq_true]
      intro event' hmem
      rw [Bool.not_eq_true', ← Bool.not_eq_true]
      exact hlater event' hmem

/-- The two clients have the same of a call whose last tool call has started only. -/
theorem start_agrees_iff (before tail : List (CallEvent V)) (call : ToolCall V)
    (h : call.status.isTerminal = false) (htail : tail.all (fun event => !event.isCall) = true) :
    (StepRun.run CallView.step {} (before ++ .start call h :: tail)).collapsed =
        (StepRun.run CallView.step {} (before ++ .start call h :: tail)).original ↔
      tail.any CallEvent.isCompletion = true ∧
        withAll call (withoutLate tail) = withAll call tail := by
  have hended := collapsed_terminal ({} : CallView V) (fun call hmem => by (cases hmem)) before
  rw [StepRun.run_append, StepRun.run_cons]
  generalize StepRun.run CallView.step {} before = view at hended ⊢
  rw [tail_original _ htail, tail_opened _ call rfl htail]
  cases hcompleted : tail.any CallEvent.isCompletion with
  | true => simp [CallView.step]
  | false =>
    rw [if_neg (by decide)]
    refine iff_of_false (fun hsame => ?_) (fun hcond => Bool.noConfusion hcond.1)
    have hopen := hended (withAll call tail) hsame
    rw [withAll_status call hcompleted, h] at hopen
    cases hopen

theorem done_agrees_iff (before tail : List (CallEvent V)) (call : ToolCall V)
    (h : call.status.isTerminal = true) (htail : tail.all (fun event => !event.isCall) = true) :
    (StepRun.run CallView.step {} (before ++ .done call h :: tail)).collapsed =
        (StepRun.run CallView.step {} (before ++ .done call h :: tail)).original ↔
      match StepRun.run openCall none before with
      | some base =>
        if tail.any CallEvent.isCompletion then
          withAll base (withoutLate tail) = withAll call tail
        else call = withAll call tail
      | none => withAll call (tail.filter CallEvent.isCompletion) = withAll call tail := by
  have hopened := run_opened ({} : CallView V) before
  rw [StepRun.run_append, StepRun.run_cons, tail_original _ htail]
  generalize StepRun.run CallView.step {} before = view at hopened ⊢
  cases hbase : StepRun.run openCall none before with
  | none =>
    have hclosed : (view.step (.done call h)).opened = none := hopened.trans hbase
    rw [tail_closed _ hclosed htail]
    simp [CallView.step]
  | some base =>
    have hopen : (view.step (.done call h)).opened = some base := hopened.trans hbase
    rw [tail_opened _ base hopen htail]
    by_cases hcompleted : tail.any CallEvent.isCompletion = true
    · rw [if_pos hcompleted]
      simp [CallView.step, hcompleted]
    · rw [if_neg hcompleted]
      simp [CallView.step, hcompleted]

theorem view_agrees_iff (events : List (CallEvent V)) :
    (StepRun.run CallView.step {} events).collapsed = (StepRun.run CallView.step {} events).original ↔
      LateSayNothing events := by
  constructor
  · intro hsame
    refine ⟨fun before call h tail heq htail => ?_, fun before call h tail heq htail => ?_⟩
    · rw [heq] at hsame
      exact (start_agrees_iff before tail call h htail).1 hsame
    · rw [heq] at hsame
      exact (done_agrees_iff before tail call h htail).1 hsame
  · rintro ⟨hstart, hdone⟩
    by_cases hcalls : events.any CallEvent.isCall = true
    · obtain ⟨before, event, tail, heq, hcall, htail⟩ := exists_lastCall events hcalls
      cases event with
      | start call h =>
        have hcond := hstart before call h tail heq htail
        rw [heq]
        exact (start_agrees_iff before tail call h htail).2 hcond
      | done call h =>
        have hcond := hdone before call h tail heq htail
        rw [heq]
        exact (done_agrees_iff before tail call h htail).2 hcond
      | plain fields hfields => cases hcall
      | complete fields status hfields hterminal => cases hcall
    · -- no tool call of the id: neither client has it
      have hnone : events.all (fun event => !event.isCall) = true := by
        rw [List.all_eq_true]
        intro event hmem
        rw [Bool.not_eq_true, List.any_eq_false] at hcalls
        rw [Bool.not_eq_true', ← Bool.not_eq_true]
        exact hcalls event hmem
      rw [tail_original _ hnone, tail_closed _ rfl hnone]
      rfl

end Calls

section Result

theorem clients_agree_iff (updates : List (SessionUpdate V)) (id : Str) :
    (collapsedClient updates).calls id = (originalClient updates).calls id ↔
      LateSayNothing (eventsOf id updates) := by
  have hkeyed : Keyed fun _ : Str => (none : Option (ToolCall V)) :=
    fun _ _ hnone => by (cases hnone)
  have hview := run_receiveBoth_view ((fun _ => none), {}, {}) hkeyed updates id
  have hboth := run_receiveBoth ((fun _ => none), {}, {}) updates
  rw [hboth] at hview
  rw [← view_agrees_iff]
  have hcollapsed := congrArg CallView.collapsed hview
  have horiginal := congrArg CallView.original hview
  rw [show (collapsedClient updates).calls id = _ from hcollapsed,
    show (originalClient updates).calls id = _ from horiginal]
  rfl

/-- Collapsing keeps the calls exactly if for each that ended the late updates say nothing. -/
theorem collapseKeepsCalls_iff (updates : List (SessionUpdate V)) :
    CollapseKeepsCalls updates ↔ ∀ id, Ended id updates → LateSayNothing (eventsOf id updates) := by
  have hkeyed : Keyed fun _ : Str => (none : Option (ToolCall V)) :=
    fun _ _ hnone => by (cases hnone)
  constructor
  · rintro ⟨hcalls, -⟩ id hended
    exact (clients_agree_iff updates id).1 (hcalls id hended)
  · intro hlate
    refine ⟨fun id hended => (clients_agree_iff updates id).2 (hlate id hended), fun id htwice => ?_⟩
    rw [forwarded_count hkeyed] at htwice
    exact htwice

/-- A call that is given a new title when it is complete. -/
def renamedWhenComplete : List (SessionUpdate ℕ) :=
  [.toolCall ⟨['t'], ['R', 'u', 'n'], 0, .pending, [], [], none, none⟩,
    .toolCallUpdate ['t'] { status := some .completed },
    .toolCallUpdate ['t'] { title := some ['R', 'a', 'n'] }]

theorem renamed_late_is_lost : ¬ CollapseKeepsCalls renamedWhenComplete := by
  intro hkept
  have hended : Ended ['t'] renamedWhenComplete :=
    ⟨renamedWhenComplete, List.prefix_rfl, by decide⟩
  have hsame := hkept.1 ['t'] hended
  exact absurd hsame (by decide)

end Result

end GrokBuild.Transcript.Seam
