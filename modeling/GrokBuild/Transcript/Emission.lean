import GrokBuild.Lib.FiniteMap
import GrokBuild.Transcript.Readers
import GrokBuild.Transcript.Seam

/-!
# Whether a replay emits

`replay_would_emit` looks at single lines of a transcript; the stream sends them through the
collapser and flushes the open calls at the end of the file.
-/

namespace GrokBuild.Transcript

open Text FiniteMap Seam

variable {V X : Type}

/-! ## The stream -/

/-- The collapser with its calls as a finite map. -/
abbrev PendingCalls (V : Type) := AList fun _ : Str => ToolCall V

def pushPending (pending : PendingCalls V) :
    SessionUpdate V → PendingCalls V × Option (SessionUpdate V)
  | .availableCommandsUpdate _ => (pending, none)
  | .toolCall call =>
    if call.status.isTerminal then (pending, some (.toolCall call))
    else (pending.insert call.toolCallId call, none)
  | .toolCallUpdate id fields =>
    match fields.status with
    | none =>
      match pending.lookup id with
      | some base => (pending.insert id (base.update fields), none)
      | none => (pending, none)
    | some status =>
      if status.isTerminal then
        match pending.lookup id with
        | some base => (pending.erase id, some (.toolCall (base.update fields)))
        | none => (pending, some (.toolCallUpdate id fields))
      else (pending, none)
  | .other update => (pending, some (.other update))

inductive ReplayEmission where
  | emitted
  | empty
deriving DecidableEq

inductive ReplayedUpdate (V X : Type) where
  | acp (update : SessionUpdate V)
  | xai (update : X)
deriving DecidableEq

/-- The loop variables of the stream, with the updates it has passed on. -/
structure Streaming (V X : Type) where
  pending : PendingCalls V := ∅
  forwarded : Bool := false
  passed : List (ReplayedUpdate V X) := []

section Stream

-- `strip` cuts the context wrappers from the text of a user chunk
variable (peeks : Peeks) (reader : EnvelopeReader (SessionUpdate V) X) (strip : V → V)

def stripContextWrappers : SessionUpdate V → SessionUpdate V
  | .other update => .other (strip update)
  | update => update

def streamLine (s : Streaming V X) (line : Str) : Streaming V X :=
  if lineIsDroppedOnReplay peeks line then s
  else
    match fromStr reader line with
    | none => s
    | some (.xai update) => { s with passed := s.passed ++ [.xai update] }
    | some (.acp update) =>
      let pushed := pushPending s.pending (stripContextWrappers strip update)
      match pushed.2 with
      | none => { s with pending := pushed.1 }
      | some update =>
        { pending := pushed.1, forwarded := true, passed := s.passed ++ [.acp update] }

/-- The open calls go out at the end of the file. -/
def Streaming.flush (s : Streaming V X) : Streaming V X :=
  { pending := ∅
    forwarded := s.forwarded || !s.pending.entries.isEmpty
    passed := s.passed ++ s.pending.entries.map fun entry => .acp (.toolCall entry.2) }

/-- `none` stands for a session without a file. -/
def streamReplayUpdatesAtHinted (contents : Option Str) :
    List (ReplayedUpdate V X) × ReplayEmission :=
  match contents with
  | none => ([], .empty)
  | some raw =>
    let s := ((rewindFilteredLive peeks raw).foldl (streamLine peeks reader strip) {}).flush
    (s.passed, if s.forwarded then .emitted else .empty)

/-! ## The probe -/

def updateEmits : SessionUpdate V → Bool
  | .availableCommandsUpdate _ => false
  | .toolCallUpdate _ fields => fields.status.any ToolCallStatus.isTerminal
  | _ => true

def lineEmits (line : Str) : Bool :=
  !lineIsDroppedOnReplay peeks line &&
    match fromStr reader line with
    | some (.acp update) => updateEmits update
    | _ => false

def replayWouldEmit (contents : Option Str) : Bool :=
  contents.any fun raw => (rewindFilteredLive peeks raw).any (lineEmits peeks reader)

end Stream

/-! ## Agreement -/

/-- The collapser of the seam, read from the finite map. -/
theorem push_lookup (pending : PendingCalls V) (update : SessionUpdate V) :
    push (fun id => pending.lookup id) update =
      (fun id => (pushPending pending update).1.lookup id, (pushPending pending update).2) := by
  cases update with
  | availableCommandsUpdate commands => rfl
  | other update => rfl
  | toolCall call =>
    rw [push, pushPending]
    split_ifs
    · rfl
    · refine Prod.ext (funext fun id => ?_) rfl
      simp only [Function.update_apply, alist_lookup_insert_eq]
  | toolCallUpdate id fields =>
    rw [push, pushPending]
    cases fields.status with
    | none =>
      dsimp only
      cases hbase : pending.lookup id with
      | none =>
        simp only [Option.map_none]
        rw [← hbase, Function.update_eq_self]
      | some base =>
        refine Prod.ext (funext fun id' => ?_) rfl
        simp only [Function.update_apply, alist_lookup_insert_eq, Option.map_some]
    | some status =>
      dsimp only
      split_ifs
      · cases hbase : pending.lookup id with
        | none => rfl
        | some base =>
          refine Prod.ext (funext fun id' => ?_) rfl
          simp only [Function.update_apply, alist_lookup_erase_eq]
      · rfl

theorem entries_ne_nil_of_lookup {pending : PendingCalls V} {id : Str} {call : ToolCall V}
    (h : pending.lookup id = some call) : pending.entries ≠ [] :=
  List.ne_nil_of_mem (AList.mem_lookup_iff.mp h)

/-- An update leaves something to emit if there was something before or it emits by itself. -/
theorem pushPending_emits (pending : PendingCalls V) (update : SessionUpdate V) :
    ((pushPending pending update).2.isSome = true ∨ (pushPending pending update).1.entries ≠ []) ↔
      (pending.entries ≠ [] ∨ updateEmits update = true) := by
  cases update with
  | availableCommandsUpdate commands => simp [pushPending, updateEmits]
  | other update => simp [pushPending, updateEmits]
  | toolCall call =>
    rw [pushPending]
    split_ifs
    · simp [updateEmits]
    · simp [updateEmits]
  | toolCallUpdate id fields =>
    rw [pushPending, updateEmits]
    cases fields.status with
    | none =>
      dsimp only
      cases hbase : pending.lookup id with
      | none => simp
      | some base => simp [entries_ne_nil_of_lookup hbase]
    | some status =>
      dsimp only
      split_ifs with hterminal
      · cases hbase : pending.lookup id with
        | none => simp [hterminal]
        | some base => simp [hterminal]
      · simp [hterminal]

variable {peeks : Peeks} {reader : EnvelopeReader (SessionUpdate V) X} {strip : V → V}

theorem updateEmits_strip (update : SessionUpdate V) :
    updateEmits (stripContextWrappers strip update) = updateEmits update := by
  cases update <;> rfl

/-- Something has gone out, or will at the end of the file. -/
def Streaming.Emits (s : Streaming V X) : Prop := s.forwarded = true ∨ s.pending.entries ≠ []

theorem streamLine_emits (s : Streaming V X) (line : Str) :
    (streamLine peeks reader strip s line).Emits ↔
      s.Emits ∨ lineEmits peeks reader line = true := by
  unfold streamLine lineEmits
  split_ifs with hdropped
  · simp [hdropped]
  · rw [Bool.not_eq_true] at hdropped
    rw [hdropped, Bool.not_false, Bool.true_and]
    cases hline : fromStr reader line with
    | none => simp
    | some parsed =>
      cases parsed with
      | xai update => simp [Streaming.Emits]
      | acp update =>
        have hpushed := pushPending_emits s.pending (stripContextWrappers strip update)
        rw [updateEmits_strip] at hpushed
        dsimp only
        cases hout : (pushPending s.pending (stripContextWrappers strip update)).2 with
        | none =>
          rw [hout, Option.isSome_none, Bool.false_eq_true, false_or] at hpushed
          simp only [Streaming.Emits]
          rw [hpushed, or_assoc]
        | some out =>
          rw [hout] at hpushed
          have hnow := hpushed.mp (.inl rfl)
          simp only [Streaming.Emits, true_or, true_iff]
          rw [or_assoc]
          exact .inr hnow

theorem stream_emits (lines : List Str) (s : Streaming V X) :
    (lines.foldl (streamLine peeks reader strip) s).Emits ↔
      s.Emits ∨ lines.any (lineEmits peeks reader) = true := by
  induction lines generalizing s with
  | nil => simp
  | cons line lines ih =>
    rw [List.foldl_cons, ih, streamLine_emits, List.any_cons, Bool.or_eq_true, or_assoc]

/-- The probe answers yes exactly when the stream emits an update of the transcript. -/
theorem replayWouldEmit_iff (peeks : Peeks) (reader : EnvelopeReader (SessionUpdate V) X)
    (strip : V → V) (contents : Option Str) :
    replayWouldEmit peeks reader contents = true ↔
      (streamReplayUpdatesAtHinted peeks reader strip contents).2 = .emitted := by
  cases contents with
  | none => simp [replayWouldEmit, streamReplayUpdatesAtHinted]
  | some raw =>
    have hemits := @stream_emits _ _ peeks reader strip
      (rewindFilteredLive peeks raw) {}
    have hstart : ¬ ({} : Streaming V X).Emits := by simp [Streaming.Emits]
    rw [or_iff_right hstart] at hemits
    simp only [replayWouldEmit, Option.any_some, streamReplayUpdatesAtHinted]
    rw [← hemits]
    generalize (rewindFilteredLive peeks raw).foldl (streamLine peeks reader strip) {} = s
    rw [Streaming.Emits, Streaming.flush]
    cases hforwarded : s.forwarded with
    | true => simp
    | false => cases hpending : s.pending.entries <;> simp

end GrokBuild.Transcript
