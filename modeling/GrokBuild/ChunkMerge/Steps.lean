import GrokBuild.ChunkMerge.ReplayBuffer

/-!
# What one notification does to the buffer

Whatever the settings are, the notification waits, goes out, or becomes one with the one that
waited; and what goes out is in the order in which it came.
-/

namespace GrokBuild.ChunkMerge

open Text SessionNotification

variable {α : Type}

/-! ## Joining two notifications -/

inductive Kind where
  | message
  | thought
  | toolCall
deriving DecidableEq

/-- What can be merged: the session, the kind and the text. -/
structure Chunk where
  sessionId : Str
  kind : Kind
  text : Str

def textChunk (sessionId : Str) (kind : Kind) : ContentBlock α → Option Chunk
  | .text ⟨text, none, _⟩ => some ⟨sessionId, kind, text⟩
  | .text ⟨_, some _, _⟩ => none
  | .other _ => none

def SessionNotification.chunk : SessionNotification α → Option Chunk
  | .acp ⟨sessionId, .agentMessageChunk chunk, _⟩ => textChunk sessionId .message chunk.content
  | .acp ⟨sessionId, .agentThoughtChunk chunk, _⟩ => textChunk sessionId .thought chunk.content
  | .acp ⟨_, .other _, _⟩ => none
  | .xai ⟨sessionId, .toolCallDeltaChunk delta, _⟩ =>
    some ⟨sessionId, .toolCall, delta.argumentsDelta.getD []⟩
  | .xai ⟨_, .other _, _⟩ => none

def SessionNotification.delta? : SessionNotification α → Option ToolCallDelta
  | .xai ⟨_, .toolCallDeltaChunk delta, _⟩ => some delta
  | _ => none

def SessionNotification.acpMeta? : SessionNotification α → Option Meta
  | .acp n => n.acpMeta
  | .xai _ => none

/-- The two deltas belong to one call, and the joined one keeps the earlier id. -/
def DeltasJoin (prev new joined : Option ToolCallDelta) : Prop :=
  (prev = none ∧ new = none ∧ joined = none) ∨
    ∃ d e f, prev = some d ∧ new = some e ∧ joined = some f ∧
      sameToolCall d.toolCallId e.toolCallId d.toolIndex e.toolIndex ∧
      f.toolCallId = d.toolCallId.or e.toolCallId ∧ f.toolIndex = d.toolIndex

/-- How the joined notification comes from the two. -/
structure Joins (prev new joined : SessionNotification α) : Prop where
  chunks : ∃ sessionId kind s t, prev.chunk = some ⟨sessionId, kind, s⟩ ∧
    new.chunk = some ⟨sessionId, kind, t⟩ ∧ joined.chunk = some ⟨sessionId, kind, s ++ t⟩
  deltas : DeltasJoin prev.delta? new.delta? joined.delta?
  acpMetas : joined.acpMeta? = mergeMeta prev.acpMeta? new.acpMeta?

theorem mergeArguments_text (prev new : Option Str) :
    (mergeArguments prev new).getD [] = prev.getD [] ++ new.getD [] := by
  match prev, new with
  | some a, some b => rfl
  | some a, none => exact (List.append_nil a).symm
  | none, b => rfl

/-- Texts of one kind are joined if no annotation is in the way. -/
theorem mergeTextChunks_cases {variant : ContentChunk α → AcpUpdate α} {kind : Kind}
    (hvariant : ∀ sessionId chunk m, (SessionNotification.acp ⟨sessionId, variant chunk, m⟩).chunk =
      textChunk sessionId kind chunk.content)
    {prev new : AcpNotification α} {prevText newText : TextContent α}
    {prevChunkMeta newChunkMeta : Option Meta} (hsession : prev.sessionId = new.sessionId)
    (hprev : prev.update = variant ⟨.text prevText, prevChunkMeta⟩)
    (hnew : new.update = variant ⟨.text newText, newChunkMeta⟩) :
    mergeTextChunks variant prev prevText prevChunkMeta new newText newChunkMeta =
        (true, prev, some new) ∨
      ∃ joined, mergeTextChunks variant prev prevText prevChunkMeta new newText newChunkMeta =
        (false, joined, none) ∧ Joins (.acp prev) (.acp new) (.acp joined) := by
  obtain ⟨session, prevUpdate, prevMeta⟩ := prev
  obtain ⟨newSession, newUpdate, newMeta⟩ := new
  dsimp only at hsession hprev hnew
  subst hsession hprev hnew
  unfold mergeTextChunks
  split_ifs with hplain
  · rw [Bool.and_eq_true, Option.isNone_iff_eq_none, Option.isNone_iff_eq_none] at hplain
    obtain ⟨prevBody, prevAnnotations, prevTextMeta⟩ := prevText
    obtain ⟨newBody, newAnnotations, newTextMeta⟩ := newText
    obtain ⟨rfl, rfl⟩ := hplain
    refine .inr ⟨_, rfl, ?_⟩
    exact {
      chunks := ⟨session, kind, prevBody, newBody, hvariant _ _ _, hvariant _ _ _, hvariant _ _ _⟩
      deltas := .inl ⟨rfl, rfl, rfl⟩
      acpMetas := rfl }
  · exact .inl rfl

theorem mergeAcpChunks_cases {prev new : AcpNotification α}
    (hsession : prev.sessionId = new.sessionId) :
    mergeAcpChunks new prev = (true, prev, some new) ∨
      ∃ joined, mergeAcpChunks new prev = (false, joined, none) ∧
        Joins (.acp prev) (.acp new) (.acp joined) := by
  unfold mergeAcpChunks
  split
  · next hprev hnew =>
    exact mergeTextChunks_cases (fun _ _ _ => rfl) hsession hprev hnew
  · next hprev hnew =>
    exact mergeTextChunks_cases (fun _ _ _ => rfl) hsession hprev hnew
  · exact .inl rfl

theorem mergeXaiChunks_cases {prev new : XaiNotification α}
    (hsession : prev.sessionId = new.sessionId) :
    mergeXaiChunks prev new = (true, prev, some new) ∨
      ∃ joined, mergeXaiChunks prev new = (false, joined, none) ∧
        Joins (.xai prev) (.xai new) (.xai joined) := by
  obtain ⟨session, prevUpdate, prevMeta⟩ := prev
  obtain ⟨newSession, newUpdate, newMeta⟩ := new
  dsimp only at hsession
  subst hsession
  unfold mergeXaiChunks
  rw [if_neg (not_not.mpr rfl)]
  split
  · next prevDelta newDelta hprev hnew =>
    dsimp only at hprev hnew
    subst hprev hnew
    split_ifs with hsame
    · refine .inr ⟨_, rfl, ?_⟩
      exact {
        chunks := ⟨session, .toolCall, _, _, rfl, rfl,
          congrArg (fun text => some (Chunk.mk session .toolCall text)) (mergeArguments_text _ _)⟩
        deltas := .inr ⟨prevDelta, newDelta, _, rfl, rfl, rfl, hsame, rfl, rfl⟩
        acpMetas := rfl }
    · exact .inl rfl
  · exact .inl rfl

/-- With one waiting, both go on as they are or they become one. -/
theorem merge_cases {prev new : SessionNotification α} (hsession : prev.sessionId = new.sessionId) :
    merge (some prev) new = (true, prev, some new) ∨
      ∃ joined, merge (some prev) new = (false, joined, none) ∧ Joins prev new joined := by
  match prev, new with
  | .acp prev, .acp new =>
    obtain hboth | ⟨joined, hjoined, hjoins⟩ := mergeAcpChunks_cases hsession
    · left
      simp only [merge, hboth, Option.map_some]
    · right
      refine ⟨.acp joined, ?_, hjoins⟩
      simp only [merge, hjoined, Option.map_none]
  | .xai prev, .xai new =>
    obtain hboth | ⟨joined, hjoined, hjoins⟩ := mergeXaiChunks_cases hsession
    · left
      simp only [merge, hboth, Option.map_some]
    · right
      refine ⟨.xai joined, ?_, hjoins⟩
      simp only [merge, hjoined, Option.map_none]
  | .acp prev, .xai new => exact .inl rfl
  | .xai prev, .acp new => exact .inl rfl

/-! ## One step -/

namespace ReplayBuffer

variable {buffer : ReplayBuffer α} {incoming : SessionNotification α}

/-- What was sent with what waits now. -/
def outcome (step : ReplayBuffer α × Sent α) :
    List (SessionNotification α) × Option (SessionNotification α) :=
  (step.2.toList.flatMap fun pair => pair.1 :: pair.2.toList, step.1.pending)

theorem keepOrSend_cases (settings : BufferingSettings) (forceSend : Bool)
    (pending : SessionNotification α) :
    outcome (buffer.keepOrSend settings forceSend pending) = ([pending], none) ∨
      outcome (buffer.keepOrSend settings forceSend pending) = ([], some pending) := by
  unfold keepOrSend
  dsimp only
  split_ifs
  · exact .inl rfl
  · exact .inr rfl

/-- Without buffering nothing ever waits. -/
def Sound (buffer : ReplayBuffer α) : Prop := buffer.settings = none → buffer.pending = none

theorem consumeChunk_settings :
    (buffer.consumeChunk incoming).1.settings = buffer.settings := by
  unfold consumeChunk
  split
  · unfold consumeChunkWithSettings keepOrSend
    dsimp only
    split_ifs <;> (try split) <;> (try split_ifs) <;> rfl
  · rfl

theorem consumeChunk_none (hpending : buffer.pending = none) :
    outcome (buffer.consumeChunk incoming) = ([incoming], none) ∨
      outcome (buffer.consumeChunk incoming) = ([], some incoming) := by
  unfold consumeChunk
  split
  · next settings _ =>
    unfold consumeChunkWithSettings
    simp only [hpending, Option.map_none, Option.getD_none, not_true_eq_false, if_false, merge]
    exact keepOrSend_cases settings _ incoming
  · left
    rw [outcome, hpending]
    rfl

theorem consumeChunk_some {prev : SessionNotification α} (hsound : buffer.Sound)
    (hpending : buffer.pending = some prev) :
    outcome (buffer.consumeChunk incoming) = ([prev, incoming], none) ∨
    outcome (buffer.consumeChunk incoming) = ([prev], some incoming) ∨
    ∃ joined, Joins prev incoming joined ∧
      (outcome (buffer.consumeChunk incoming) = ([joined], none) ∨
        outcome (buffer.consumeChunk incoming) = ([], some joined)) := by
  unfold consumeChunk
  cases hsettings : buffer.settings with
  | none =>
    rw [hsound hsettings] at hpending
    cases hpending
  | some settings =>
    dsimp only
    unfold consumeChunkWithSettings
    simp only [hpending, Option.map_some, Option.getD_some, decide_eq_true_eq]
    by_cases hsession : prev.sessionId = incoming.sessionId
    swap
    · rw [if_pos hsession]
      exact .inl rfl
    rw [if_neg (not_not.mpr hsession)]
    by_cases hwindow : incoming.isInTimestampWindow prev settings.maxDurationMs = true
    swap
    · rw [if_pos hwindow]
      exact .inr (.inl rfl)
    rw [if_neg (not_not.mpr hwindow)]
    obtain hboth | ⟨joined, hjoined, hjoins⟩ := merge_cases hsession
    · left
      simp only [hboth]
      rfl
    · right
      right
      simp only [hjoined]
      exact ⟨joined, hjoins, keepOrSend_cases settings false joined⟩

end ReplayBuffer

end GrokBuild.ChunkMerge
