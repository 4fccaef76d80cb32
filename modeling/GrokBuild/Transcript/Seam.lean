import GrokBuild.Lib.StepRun
import GrokBuild.Text.Str
import Mathlib.Logic.Function.Basic
import Mathlib.Data.List.Basic

/-!
# The seam between replay and delta

A replay forwards the transcript up to where it stopped reading, and the delta what was appended
meanwhile. Each collapses a tool call with its updates into one, with a collapser of its own, and
the first drops the calls that are still open. What the client then has is compared with what
one collapser over all lines would have given it.
-/

namespace GrokBuild.Transcript.Seam

open GrokBuild.Text

inductive ToolCallStatus where
  | pending
  | inProgress
  | completed
  | failed
deriving DecidableEq, Repr

def ToolCallStatus.isTerminal : ToolCallStatus → Bool
  | .completed | .failed => true
  | .pending | .inProgress => false

/-- Values of the wire are opaque. -/
structure ToolCall (V : Type) where
  toolCallId : Str
  title : Str
  kind : V
  status : ToolCallStatus
  content : List V
  locations : List V
  rawInput : Option V
  rawOutput : Option V
deriving DecidableEq

structure ToolCallUpdateFields (V : Type) where
  kind : Option V := none
  status : Option ToolCallStatus := none
  title : Option Str := none
  content : Option (List V) := none
  locations : Option (List V) := none
  rawInput : Option V := none
  rawOutput : Option V := none
deriving DecidableEq

variable {V : Type}

/-- The fields that are given replace those of the call. -/
def ToolCall.update (call : ToolCall V) (fields : ToolCallUpdateFields V) : ToolCall V :=
  { call with
    kind := fields.kind.getD call.kind
    status := fields.status.getD call.status
    title := fields.title.getD call.title
    content := fields.content.getD call.content
    locations := fields.locations.getD call.locations
    rawInput := fields.rawInput <|> call.rawInput
    rawOutput := fields.rawOutput <|> call.rawOutput }

inductive SessionUpdate (V : Type) where
  | availableCommandsUpdate (commands : V)
  | toolCall (call : ToolCall V)
  | toolCallUpdate (toolCallId : Str) (fields : ToolCallUpdateFields V)
  | other (update : V)
deriving DecidableEq

/-- A line by the two methods of the log, or one that is skipped. -/
inductive ReplayLine (V : Type) where
  | acp (update : SessionUpdate V)
  | xai (params : V)
  | skipped
deriving DecidableEq

section Collapser

/-- The calls that have started and not yet ended. -/
abbrev ReplayToolCollapser (V : Type) := Str → Option (ToolCall V)

/-- One update in; `none` is one that is held or dropped. -/
def push (pending : ReplayToolCollapser V) :
    SessionUpdate V → ReplayToolCollapser V × Option (SessionUpdate V)
  | .availableCommandsUpdate _ => (pending, none)
  | .toolCall call =>
    if call.status.isTerminal then (pending, some (.toolCall call))
    else (Function.update pending call.toolCallId (some call), none)
  | .toolCallUpdate id fields =>
    match fields.status with
    | none => (Function.update pending id ((pending id).map (·.update fields)), none)
    | some status =>
      if status.isTerminal then
        match pending id with
        | some base =>
          (Function.update pending id none, some (.toolCall (base.update fields)))
        | none => (pending, some (.toolCallUpdate id fields))
      else (pending, none)
  | .other update => (pending, some (.other update))

/-- What is forwarded for a line. The update of the other method goes as it is. -/
def forwardRawReplayLine (pending : ReplayToolCollapser V) :
    ReplayLine V → ReplayToolCollapser V × Option (SessionUpdate V)
  | .acp update => push pending update
  | .xai params => (pending, some (.other params))
  | .skipped => (pending, none)

/-- The catalogs and the updates of calls in progress do not reach the collapser. -/
def lineIsDropped : ReplayLine V → Bool
  | .acp (.availableCommandsUpdate _) => true
  | .acp (.toolCallUpdate _ fields) => fields.status = some .inProgress
  | _ => false

end Collapser

section Client

/-- A client with its tool calls and all other updates. -/
structure Client (V : Type) where
  calls : Str → Option (ToolCall V) := fun _ => none
  others : List V := []

/-- An update of a call that the client does not have is an orphan. -/
def Client.receive (client : Client V) : SessionUpdate V → Client V
  | .toolCall call =>
    { client with calls := Function.update client.calls call.toolCallId (some call) }
  | .toolCallUpdate id fields =>
    { client with calls := Function.update client.calls id ((client.calls id).map (·.update fields)) }
  | .availableCommandsUpdate commands => { client with others := client.others ++ [commands] }
  | .other update => { client with others := client.others ++ [update] }

/-- The collapser and the client at the other end. -/
def forwardStep (s : ReplayToolCollapser V × Client V) (line : ReplayLine V) :
    ReplayToolCollapser V × Client V :=
  if lineIsDropped line then s
  else
    let forwarded := forwardRawReplayLine s.1 line
    (forwarded.1, forwarded.2.elim s.2 s.2.receive)

def forward (client : Client V) (lines : List (ReplayLine V)) : ReplayToolCollapser V × Client V :=
  StepRun.run forwardStep (fun _ => none, client) lines

/-- One collapser over all lines. -/
def replayedAtOnce (before after : List (ReplayLine V)) : Client V :=
  (forward {} (before ++ after)).2

/-- The replay, and a fresh collapser for the delta; what the first one holds is dropped. -/
def replayedWithDelta (before after : List (ReplayLine V)) : Client V :=
  (forward (forward {} before).2 after).2

end Client

section Definitions

/-- The line has a tool call with the id. -/
def names (id : Str) : ReplayLine V → Bool
  | .acp (.toolCall call) => call.toolCallId = id
  | _ => false

def starts (id : Str) : ReplayLine V → Bool
  | .acp (.toolCall call) => call.toolCallId = id && !call.status.isTerminal
  | _ => false

def completes (id : Str) : ReplayLine V → Bool
  | .acp (.toolCallUpdate id' fields) => id' = id && fields.status.any ToolCallStatus.isTerminal
  | _ => false

/-- The lines complete the call before they start it anew. -/
def completedFirst (id : Str) : List (ReplayLine V) → Bool
  | [] => false
  | line :: lines => !starts id line && (completes id line || completedFirst id lines)

/-- A call that is open where the replay stops is completed by the delta. -/
def CutsCall (before after : List (ReplayLine V)) : Prop :=
  ∃ id, ((forward {} before).1 id).isSome = true ∧ completedFirst id after = true

/-- No two tool calls of the transcript have the same id. -/
def NamedOnce (lines : List (ReplayLine V)) : Prop := ∀ id, lines.countP (names id) ≤ 1

end Definitions

section Steps

/-- What a line can do: it leaves the open calls alone, starts a call, changes an open one, or
completes one. -/
theorem forwardStep_cases (line : ReplayLine V) :
    (∃ g : Client V → Client V, (∀ s, forwardStep s line = (s.1, g s.2)) ∧
      (∀ id, starts id line = false ∧ completes id line = false) ∧
      ∀ client id, (names id line = false → (g client).calls id = client.calls id) ∧
        ((client.calls id).isSome = true → ((g client).calls id).isSome = true)) ∨
    (∃ call : ToolCall V, (∀ s, forwardStep s line =
        (Function.update s.1 call.toolCallId (some call), s.2)) ∧
      ∀ id, starts id line = decide (call.toolCallId = id) ∧ completes id line = false ∧
        names id line = decide (call.toolCallId = id)) ∨
    (∃ id fields, (∀ s, forwardStep s line =
        (Function.update s.1 id ((s.1 id).map fun call => call.update fields), s.2)) ∧
      ∀ id', starts id' line = false ∧ completes id' line = false ∧ names id' line = false) ∨
    ∃ id fields, (∀ s, forwardStep s line = (Function.update s.1 id none,
        s.2.receive ((s.1 id).elim (.toolCallUpdate id fields) fun base =>
          .toolCall (base.update fields)))) ∧
      ∀ id', starts id' line = false ∧ completes id' line = decide (id = id') ∧
        names id' line = false := by
  cases line with
  | skipped =>
    exact .inl ⟨id, fun _ => rfl, fun _ => ⟨rfl, rfl⟩, fun _ _ => ⟨fun _ => rfl, fun h => h⟩⟩
  | xai params =>
    exact .inl ⟨fun client => client.receive (.other params), fun _ => rfl, fun _ => ⟨rfl, rfl⟩,
      fun _ _ => ⟨fun _ => rfl, fun h => h⟩⟩
  | acp update =>
    cases update with
    | availableCommandsUpdate commands =>
      exact .inl ⟨id, fun _ => rfl, fun _ => ⟨rfl, rfl⟩, fun _ _ => ⟨fun _ => rfl, fun h => h⟩⟩
    | other update =>
      exact .inl ⟨fun client => client.receive (.other update), fun _ => rfl, fun _ => ⟨rfl, rfl⟩,
        fun _ _ => ⟨fun _ => rfl, fun h => h⟩⟩
    | toolCall call =>
      cases hterminal : call.status.isTerminal with
      | true =>
        refine .inl ⟨fun client => client.receive (.toolCall call), fun s => ?_, fun id => ?_,
          fun client id => ⟨fun hname => ?_, fun hsome => ?_⟩⟩
        · simp [forwardStep, lineIsDropped, forwardRawReplayLine, push, hterminal]
        · simp [starts, completes, hterminal]
        · have hne : id ≠ call.toolCallId := fun heq => by simp [names, heq] at hname
          exact Function.update_of_ne hne _ _
        · by_cases heq : id = call.toolCallId
          · subst heq
            simp [Client.receive]
          · simpa [Client.receive, Function.update_of_ne heq] using hsome
      | false =>
        refine .inr (.inl ⟨call, fun s => ?_, fun id => ?_⟩)
        · simp [forwardStep, lineIsDropped, forwardRawReplayLine, push, hterminal]
        · simp [starts, completes, names, hterminal]
    | toolCallUpdate id fields =>
      cases hstatus : fields.status with
      | none =>
        refine .inr (.inr (.inl ⟨id, fields, fun s => ?_, fun id' => ?_⟩))
        · simp [forwardStep, lineIsDropped, forwardRawReplayLine, push, hstatus]
        · simp [starts, completes, names, hstatus]
      | some status =>
        cases hterminal : status.isTerminal with
        | false =>
          refine .inl ⟨fun client => client, fun s => ?_, fun id' => ?_,
            fun _ _ => ⟨fun _ => rfl, fun h => h⟩⟩
          · simp [forwardStep, forwardRawReplayLine, push, hstatus, hterminal]
          · simp [starts, completes, hstatus, hterminal]
        | true =>
          refine .inr (.inr (.inr ⟨id, fields, fun s => ?_, fun id' => ?_⟩))
          · have hkept : lineIsDropped (.acp (.toolCallUpdate id fields)) = false := by
              cases status with
              | completed => simp [lineIsDropped, hstatus]
              | failed => simp [lineIsDropped, hstatus]
              | pending => cases hterminal
              | inProgress => cases hterminal
            cases hopen : s.1 id with
            | none =>
              have hsame : Function.update s.1 id none = s.1 := by
                rw [← hopen, Function.update_eq_self]
              simp [forwardStep, hkept, forwardRawReplayLine, push, hstatus, hterminal, hopen, hsame]
            | some base =>
              simp [forwardStep, hkept, forwardRawReplayLine, push, hstatus, hterminal, hopen]
          · simp [starts, completes, names, hstatus, hterminal]

/-- Open calls that no line completes before it starts them make no difference to the client. -/
theorem run_congr (lines : List (ReplayLine V)) (p q : ReplayToolCollapser V) (client : Client V)
    (h : ∀ id, p id ≠ q id → completedFirst id lines = false) :
    (StepRun.run forwardStep (p, client) lines).2 = (StepRun.run forwardStep (q, client) lines).2 := by
  induction lines generalizing p q client with
  | nil => rfl
  | cons line lines ih =>
    rw [StepRun.run_cons, StepRun.run_cons]
    have hrest : ∀ id, p id ≠ q id → starts id line = false → completedFirst id lines = false := by
      intro id hne hstart
      have hfirst := h id hne
      rw [completedFirst, hstart, Bool.not_false, Bool.true_and, Bool.or_eq_false_iff] at hfirst
      exact hfirst.2
    rcases forwardStep_cases line with ⟨g, hstep, hkind, -⟩ | ⟨call, hstep, hkind⟩ |
      ⟨id, fields, hstep, hkind⟩ | ⟨id, fields, hstep, hkind⟩
    · rw [hstep, hstep]
      exact ih p q _ fun id hne => hrest id hne (hkind id).1
    · rw [hstep, hstep]
      refine ih _ _ _ fun id hne => ?_
      by_cases heq : id = call.toolCallId
      · subst heq
        simp at hne
      · simp only [Function.update_of_ne heq] at hne
        exact hrest id hne (by rw [(hkind id).1]; exact decide_eq_false fun h => heq h.symm)
    · rw [hstep, hstep]
      refine ih _ _ _ fun id' hne => hrest id' (fun hsame => hne ?_) (hkind id').1
      by_cases heq : id' = id
      · subst heq
        simp [hsame]
      · simp [Function.update_of_ne heq, hsame]
    · have hsame : p id = q id := by
        by_contra hne
        have hfirst := h id hne
        rw [completedFirst, (hkind id).1, (hkind id).2.1] at hfirst
        simp at hfirst
      rw [hstep, hstep]
      dsimp only
      rw [hsame]
      refine ih _ _ _ fun id' hne => hrest id' (fun hsame' => hne ?_) (hkind id').1
      by_cases heq : id' = id
      · subst heq
        simp
      · simp [Function.update_of_ne heq, hsame']

end Steps

section Converse

variable {id : Str} {line : ReplayLine V} {lines before after : List (ReplayLine V)}

/-- Open calls are kept under their ids. -/
def Keyed (pending : ReplayToolCollapser V) : Prop :=
  ∀ id base, pending id = some base → base.toolCallId = id

theorem Keyed.update {pending : ReplayToolCollapser V} (h : Keyed pending) {id : Str}
    {v : Option (ToolCall V)} (hv : ∀ base, v = some base → base.toolCallId = id) :
    Keyed (Function.update pending id v) := by
  intro id' base hbase
  by_cases heq : id' = id
  · subst heq
    rw [Function.update_self] at hbase
    exact hv base hbase
  · rw [Function.update_of_ne heq] at hbase
    exact h id' base hbase

theorem Keyed.step {s : ReplayToolCollapser V × Client V} (h : Keyed s.1) (line : ReplayLine V) :
    Keyed (forwardStep s line).1 := by
  rcases forwardStep_cases line with ⟨g, hstep, -⟩ | ⟨call, hstep, -⟩ | ⟨id, fields, hstep, -⟩ |
    ⟨id, fields, hstep, -⟩
  · rw [hstep]
    exact h
  · rw [hstep]
    exact h.update fun base hbase => by rw [← Option.some_inj.1 hbase]
  · rw [hstep]
    refine h.update fun base hbase => ?_
    obtain ⟨call, hcall, rfl⟩ := Option.map_eq_some_iff.1 hbase
    exact h id call hcall
  · rw [hstep]
    exact h.update fun base hbase => by (cases hbase)

theorem keyed_run {s : ReplayToolCollapser V × Client V} (h : Keyed s.1) (lines : List (ReplayLine V)) :
    Keyed (StepRun.run forwardStep s lines).1 :=
  StepRun.invariant (P := fun s : ReplayToolCollapser V × Client V => Keyed s.1)
    (fun _ line h => h.step line) h lines

/-- What the client has of a call it keeps. -/
theorem calls_isSome_step (s : ReplayToolCollapser V × Client V) (line : ReplayLine V)
    (h : (s.2.calls id).isSome = true) : ((forwardStep s line).2.calls id).isSome = true := by
  rcases forwardStep_cases line with ⟨g, hstep, -, hcalls⟩ | ⟨call, hstep, -⟩ | ⟨id', fields, hstep, -⟩ |
    ⟨id', fields, hstep, -⟩
  · rw [hstep]
    exact (hcalls s.2 id).2 h
  · rw [hstep]
    exact h
  · rw [hstep]
    exact h
  · rw [hstep]
    cases s.1 id' with
    | none =>
      by_cases heq : id = id'
      · subst heq
        simpa [Client.receive] using h
      · simpa [Client.receive, Function.update_of_ne heq] using h
    | some base =>
      by_cases heq : id = (base.update fields).toolCallId
      · subst heq
        simp [Client.receive]
      · simpa [Client.receive, Function.update_of_ne heq] using h

/-- A line without a tool call of the id: a closed call stays as it is, an open one stays open and
the client does not see it, or it is completed and the client has it. -/
theorem step_unnamed {s : ReplayToolCollapser V × Client V} (hkeyed : Keyed s.1)
    (hname : names id line = false) :
    (s.1 id = none → (forwardStep s line).1 id = none ∧
      (s.2.calls id = none → (forwardStep s line).2.calls id = none)) ∧
    ((s.1 id).isSome = true →
      (completes id line = false ∧ ((forwardStep s line).1 id).isSome = true ∧
        (forwardStep s line).2.calls id = s.2.calls id) ∨
      ((forwardStep s line).1 id = none ∧ ((forwardStep s line).2.calls id).isSome = true)) := by
  rcases forwardStep_cases line with ⟨g, hstep, hkind, hcalls⟩ | ⟨call, hstep, hkind⟩ |
    ⟨id', fields, hstep, hkind⟩ | ⟨id', fields, hstep, hkind⟩
  · rw [hstep]
    have hsame := (hcalls s.2 id).1 hname
    exact ⟨fun hnone => ⟨hnone, fun hc => hsame.trans hc⟩,
      fun hsome => .inl ⟨(hkind id).2, hsome, hsame⟩⟩
  · have hne : id ≠ call.toolCallId := by
      intro heq
      rw [(hkind id).2.2] at hname
      exact of_decide_eq_false hname heq.symm
    rw [hstep]
    dsimp only
    rw [Function.update_of_ne hne]
    exact ⟨fun hnone => ⟨hnone, fun hc => hc⟩, fun hsome => .inl ⟨(hkind id).2.1, hsome, rfl⟩⟩
  · rw [hstep]
    dsimp only
    by_cases heq : id = id'
    · subst heq
      rw [Function.update_self]
      refine ⟨fun hnone => ⟨by rw [hnone]; rfl, fun hc => hc⟩,
        fun hsome => .inl ⟨(hkind id).2.1, by simpa using hsome, rfl⟩⟩
    · rw [Function.update_of_ne heq]
      exact ⟨fun hnone => ⟨hnone, fun hc => hc⟩, fun hsome => .inl ⟨(hkind id).2.1, hsome, rfl⟩⟩
  · rw [hstep]
    dsimp only
    by_cases heq : id = id'
    · subst heq
      rw [Function.update_self]
      refine ⟨fun hnone => ⟨rfl, fun hc => ?_⟩, fun hsome => .inr ⟨rfl, ?_⟩⟩
      · simp [hnone, Client.receive, hc]
      · obtain ⟨base, hbase⟩ := Option.isSome_iff_exists.1 hsome
        have hid : (base.update fields).toolCallId = id := hkeyed id base hbase
        rw [hbase]
        simp [Client.receive, hid]
    · have hcalls : (s.2.receive ((s.1 id').elim (.toolCallUpdate id' fields) fun base =>
          .toolCall (base.update fields))).calls id = s.2.calls id := by
        cases hopen : s.1 id' with
        | none => simp [Client.receive, Function.update_of_ne heq]
        | some base =>
          have hid : (base.update fields).toolCallId = id' := hkeyed id' base hopen
          simp [Client.receive, hid, Function.update_of_ne heq]
      rw [Function.update_of_ne heq]
      refine ⟨fun hnone => ⟨hnone, fun hc => hcalls.trans hc⟩, fun hsome => .inl ⟨?_, hsome, hcalls⟩⟩
      rw [(hkind id).2.1]
      exact decide_eq_false fun h => heq h.symm

theorem run_unnamed_none {s : ReplayToolCollapser V × Client V} (hkeyed : Keyed s.1)
    (hnames : ∀ line ∈ lines, names id line = false) (hclosed : s.1 id = none)
    (hcalls : s.2.calls id = none) : (StepRun.run forwardStep s lines).2.calls id = none := by
  induction lines generalizing s with
  | nil => exact hcalls
  | cons line lines ih =>
    obtain ⟨hstep, -⟩ := step_unnamed hkeyed (hnames line (by simp))
    obtain ⟨hnone, hc⟩ := hstep hclosed
    exact ih (hkeyed.step line) (fun l hl => hnames l (List.mem_cons_of_mem _ hl)) hnone (hc hcalls)

theorem run_completed {s : ReplayToolCollapser V × Client V} (hkeyed : Keyed s.1)
    (hnames : ∀ line ∈ lines, names id line = false) (hopen : (s.1 id).isSome = true)
    (hdone : completedFirst id lines = true) :
    ((StepRun.run forwardStep s lines).2.calls id).isSome = true := by
  induction lines generalizing s with
  | nil => cases hdone
  | cons line lines ih =>
    rw [StepRun.run_cons]
    rcases (step_unnamed hkeyed (hnames line (by simp))).2 hopen with ⟨hnot, hstill, -⟩ | ⟨-, hsome⟩
    · rw [completedFirst, hnot, Bool.false_or, Bool.and_eq_true] at hdone
      exact ih (hkeyed.step line) (fun l hl => hnames l (List.mem_cons_of_mem _ hl)) hstill hdone.2
    · exact StepRun.invariant (P := fun s : ReplayToolCollapser V × Client V =>
        (s.2.calls id).isSome = true) (fun s line h => calls_isSome_step s line h) hsome lines

theorem keyed_empty : Keyed (fun _ => none : ReplayToolCollapser V) := fun _ _ h => by (cases h)

theorem forward_concat (client : Client V) (lines : List (ReplayLine V)) (line : ReplayLine V) :
    forward client (lines ++ [line]) = forwardStep (forward client lines) line := by
  rw [forward, StepRun.run_append]
  rfl

/-- Of a call that is open, and was the only one of its id, the client has seen nothing. -/
theorem open_unseen {id : Str} {lines : List (ReplayLine V)} (honce : lines.countP (names id) ≤ 1) :
    (lines.countP (names id) = 0 →
      (forward {} lines).1 id = none ∧ (forward {} lines).2.calls id = none) ∧
    (((forward {} lines).1 id).isSome = true → (forward {} lines).2.calls id = none) := by
  induction lines using List.reverseRecOn with
  | nil => exact ⟨fun _ => ⟨rfl, rfl⟩, fun h => by (cases h)⟩
  | append_singleton lines line ih =>
    rw [List.countP_append, List.countP_singleton] at honce
    rw [List.countP_append, List.countP_singleton, forward_concat]
    obtain ⟨hnone, hopen⟩ := ih (by omega)
    have hkeyed : Keyed (forward {} lines).1 := keyed_run keyed_empty lines
    cases hname : names id line with
    | true =>
      rw [hname, if_pos rfl] at honce
      obtain ⟨hclosed, hcalls⟩ := hnone (by omega)
      refine ⟨fun h => by simp at h, fun hsome => ?_⟩
      rcases forwardStep_cases line with ⟨g, hstep, -⟩ | ⟨call, hstep, -⟩ | ⟨id', fields, hstep, hkind⟩ |
        ⟨id', fields, hstep, hkind⟩
      · rw [hstep, hclosed] at hsome
        cases hsome
      · rw [hstep]
        exact hcalls
      · rw [(hkind id).2.2] at hname
        cases hname
      · rw [(hkind id).2.2] at hname
        cases hname
    | false =>
      obtain ⟨hstepNone, hstepSome⟩ := step_unnamed hkeyed hname
      refine ⟨fun h => ?_, fun hsome => ?_⟩
      · obtain ⟨hclosed, hcalls⟩ := hnone (by simpa using h)
        exact ⟨(hstepNone hclosed).1, (hstepNone hclosed).2 hcalls⟩
      · cases hbefore : (forward {} lines).1 id with
        | none =>
          rw [(hstepNone hbefore).1] at hsome
          cases hsome
        | some base =>
          rcases hstepSome (by rw [hbefore]; rfl) with ⟨-, -, hsame⟩ | ⟨hclosed, -⟩
          · exact hsame.trans (hopen (by rw [hbefore]; rfl))
          · rw [hclosed] at hsome
            cases hsome

end Converse

section Main

variable {before after : List (ReplayLine V)}

theorem replayedAtOnce_eq (before after : List (ReplayLine V)) :
    replayedAtOnce before after =
      (StepRun.run forwardStep (forward {} before) after).2 := by
  rw [replayedAtOnce, forward, StepRun.run_append]
  rfl

theorem eq_of_not_cutsCall (h : ¬CutsCall before after) :
    replayedWithDelta before after = replayedAtOnce before after := by
  rw [replayedAtOnce_eq]
  refine run_congr after _ _ _ fun id hne => ?_
  by_contra hdone
  refine h ⟨id, ?_, by simpa using hdone⟩
  rw [Option.isSome_iff_ne_none]
  exact fun hnone => hne hnone.symm

/-- The call that is cut never reaches the client as one. -/
theorem ne_of_cutsCall (honce : NamedOnce (before ++ after)) (h : CutsCall before after) :
    replayedWithDelta before after ≠ replayedAtOnce before after := by
  obtain ⟨id, hopen, hdone⟩ := h
  have hcount := honce id
  rw [List.countP_append] at hcount
  have hbefore : before.countP (names id) ≤ 1 := by omega
  obtain ⟨hnone, hunseen⟩ := open_unseen hbefore
  -- the start of the call is before the seam, so nothing after it names the call
  have hafter : after.countP (names id) = 0 := by
    by_contra hpos
    rw [(hnone (by omega)).1] at hopen
    cases hopen
  have hnames : ∀ line ∈ after, names id line = false := by
    intro line hline
    simpa using List.countP_eq_zero.1 hafter line hline
  have hwhole := run_completed (keyed_run keyed_empty before) hnames hopen hdone
  have hsplit : (replayedWithDelta before after).calls id = none :=
    run_unnamed_none keyed_empty hnames rfl (hunseen hopen)
  intro heq
  rw [heq, replayedAtOnce_eq, forward] at hsplit
  rw [hsplit] at hwhole
  cases hwhole

/-- The client sees no seam if no call that is open there is completed by the delta before it is
started anew. Where every call has an id of its own, it does see one otherwise. -/
theorem replayedWithDelta_eq_replayedAtOnce (before after : List (ReplayLine V)) :
    (¬CutsCall before after → replayedWithDelta before after = replayedAtOnce before after) ∧
      (NamedOnce (before ++ after) →
        replayedWithDelta before after = replayedAtOnce before after → ¬CutsCall before after) :=
  ⟨eq_of_not_cutsCall, fun honce heq hcuts => ne_of_cutsCall honce hcuts heq⟩

/-- A call that starts before the seam and completes after it. -/
theorem cut_call_lost :
    ¬∀ before after : List (ReplayLine ℕ),
      replayedWithDelta before after = replayedAtOnce before after := by
  intro h
  have hcalls := congrArg (fun client => client.calls "c1".toList)
    (h [.acp (.toolCall ⟨"c1".toList, "Run tests".toList, 0, .pending, [], [], some 1, none⟩)]
      [.acp (.toolCallUpdate "c1".toList { status := some .completed, rawOutput := some 2 })])
  exact absurd hcalls (by decide)

end Main

end GrokBuild.Transcript.Seam
