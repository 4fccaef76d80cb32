import Mathlib
import GrokBuild.Text.Slices
import GrokBuild.Transcript.Cursor

/-!
# Buffering streamed chunks

`agent/update_chunk_merge.rs`: a chunk waits in the buffer for the next one, and the two become one
notification if they belong together. What the buffer only passes on, such as images, other updates
or annotations, is an opaque payload.
-/

namespace GrokBuild.ChunkMerge

open Text

/-! ## Metadata -/

inductive Number where
  | unsigned (n : ℕ)
  | negative (n : ℤ)
  | float (bits : ℕ)

inductive Json where
  | null
  | bool (b : Bool)
  | number (n : Number)
  | string (s : Str)
  | array (items : List Json)
  | object (fields : List (Str × Json))

abbrev Meta := AList fun _ : Str => Json

def Json.asU64 : Json → Option ℕ
  | .number (.unsigned n) => some n
  | _ => none

def chunkIdKey : Str := "chunkId".toList

def chunkIdRangeKey : Str := "chunkIdRange".toList

def agentTimestampKey : Str := "agentTimestampMs".toList

/-- No negative number is left for `as_i64`. -/
def chunkIdAsU64 : Json → Option ℕ
  | .number (.unsigned n) => some n
  | .string s => Transcript.parseU64 s
  | _ => none

def chunkIdJson (n : ℕ) : Json := .number (.unsigned n)

/-- `id + 1` in 64 bits. -/
def nextId (id : ℕ) : ℕ := (id + 1) % 2 ^ 64

/-- What becomes of the last element of the range when an id follows it. -/
def extendLast (lastValue : Json) (newChunkId : ℕ) : List Json :=
  match chunkIdAsU64 lastValue with
  | some lastId =>
    if newChunkId = nextId lastId then [.array [chunkIdJson lastId, chunkIdJson newChunkId]]
    else [lastValue, chunkIdJson newChunkId]
  | none =>
    match lastValue with
    | .array [first, second] =>
      match chunkIdAsU64 second with
      | some rangeEnd =>
        if newChunkId = nextId rangeEnd then [.array [first, chunkIdJson newChunkId]]
        else [lastValue, chunkIdJson newChunkId]
      | none => [lastValue, chunkIdJson newChunkId]
    | .array [only] =>
      match chunkIdAsU64 only with
      | some rangeEnd =>
        if newChunkId = nextId rangeEnd then
          [.array [chunkIdJson rangeEnd, chunkIdJson newChunkId]]
        else [lastValue, chunkIdJson newChunkId]
      | none => [lastValue, chunkIdJson newChunkId]
    | _ => [lastValue, chunkIdJson newChunkId]

def appendChunkIdRange (range : List Json) (newChunkId : ℕ) : List Json :=
  match range.getLast? with
  | none => [chunkIdJson newChunkId]
  | some lastValue => range.dropLast ++ extendLast lastValue newChunkId

def startChunkIdRange (prevChunkId newChunkId : ℕ) : List Json :=
  if newChunkId = nextId prevChunkId then
    [.array [chunkIdJson prevChunkId, chunkIdJson newChunkId]]
  else [chunkIdJson prevChunkId, chunkIdJson newChunkId]

/-- The older metadata takes up the chunk id of the newer. -/
def noteChunkId (prev : Meta) (newValue : Json) (newChunkId : ℕ) : Meta :=
  match prev.lookup chunkIdRangeKey with
  | some (.array range) =>
    prev.insert chunkIdRangeKey (.array (appendChunkIdRange range newChunkId))
  | some _ => prev
  | none =>
    match (prev.lookup chunkIdKey).bind chunkIdAsU64 with
    | some prevChunkId =>
      (prev.insert chunkIdRangeKey (.array (startChunkIdRange prevChunkId newChunkId))).erase
        chunkIdKey
    | none => prev.insert chunkIdKey newValue

def mergeMeta : Option Meta → Option Meta → Option Meta
  | some prev, some new =>
    match new.lookup chunkIdKey with
    | some newValue =>
      match chunkIdAsU64 newValue with
      | some newChunkId => some (noteChunkId prev newValue newChunkId)
      | none => some prev
    | none => some prev
  | some prev, none => some prev
  | none, new => new

/-! ## Notifications -/

variable {α : Type}

structure TextContent (α : Type) where
  text : Str
  annotations : Option α
  textMeta : Option Meta

inductive ContentBlock (α : Type) where
  | text (content : TextContent α)
  | other (payload : α)

structure ContentChunk (α : Type) where
  content : ContentBlock α
  chunkMeta : Option Meta

inductive AcpUpdate (α : Type) where
  | agentMessageChunk (chunk : ContentChunk α)
  | agentThoughtChunk (chunk : ContentChunk α)
  | other (payload : α)

structure AcpNotification (α : Type) where
  sessionId : Str
  update : AcpUpdate α
  acpMeta : Option Meta

structure ToolCallDelta where
  toolCallId : Option Str
  toolIndex : ℕ
  name : Option Str
  argumentsDelta : Option Str

inductive XaiUpdate (α : Type) where
  | toolCallDeltaChunk (delta : ToolCallDelta)
  | other (payload : α)

structure XaiNotification (α : Type) where
  sessionId : Str
  update : XaiUpdate α
  xaiMeta : Option Json

inductive SessionNotification (α : Type) where
  | acp (n : AcpNotification α)
  | xai (n : XaiNotification α)

namespace SessionNotification

def sessionId : SessionNotification α → Str
  | .acp n => n.sessionId
  | .xai n => n.sessionId

def isStreamingChunk : SessionNotification α → Bool
  | .acp ⟨_, .agentMessageChunk _, _⟩ => true
  | .acp ⟨_, .agentThoughtChunk _, _⟩ => true
  | .acp ⟨_, .other _, _⟩ => false
  | .xai ⟨_, .toolCallDeltaChunk _, _⟩ => true
  | .xai ⟨_, .other _, _⟩ => false

/-- `get` of a value that need not be an object. -/
def fieldOf (key : Str) : Json → Option Json
  | .object fields => (fields.find? (·.1 = key)).map (·.2)
  | _ => none

def agentTimestampMs : SessionNotification α → Option ℕ
  | .acp n => (n.acpMeta.bind (·.lookup agentTimestampKey)).bind Json.asU64
  | .xai n => (n.xaiMeta.bind (fieldOf agentTimestampKey)).bind Json.asU64

def isInTimestampWindow (incoming prev : SessionNotification α) (maxDurationMs : ℕ) : Bool :=
  match prev.agentTimestampMs, incoming.agentTimestampMs with
  | some prevTs, some incomingTs => incomingTs ≤ (prevTs + maxDurationMs) % 2 ^ 64
  | _, _ => true

end SessionNotification

open SessionNotification

/-! ## Merging two notifications -/

/-- Both are texts of one kind; the chunks are told apart by their constructor. -/
def mergeTextChunks (variant : ContentChunk α → AcpUpdate α)
    (prev : AcpNotification α) (prevText : TextContent α) (prevChunkMeta : Option Meta)
    (new : AcpNotification α) (newText : TextContent α) (newChunkMeta : Option Meta) :
    Bool × AcpNotification α × Option (AcpNotification α) :=
  if prevText.annotations.isNone && newText.annotations.isNone then
    (false,
      { sessionId := prev.sessionId
        update := variant
          { content := .text
              { text := prevText.text ++ newText.text
                annotations := none
                textMeta := prevText.textMeta }
            chunkMeta := prevChunkMeta }
        acpMeta := mergeMeta prev.acpMeta new.acpMeta },
      none)
  else
    (true,
      { sessionId := prev.sessionId
        update := variant { content := .text prevText, chunkMeta := prevChunkMeta }
        acpMeta := prev.acpMeta },
      some
        { sessionId := new.sessionId
          update := variant { content := .text newText, chunkMeta := newChunkMeta }
          acpMeta := new.acpMeta })

def mergeAcpChunks (new prev : AcpNotification α) :
    Bool × AcpNotification α × Option (AcpNotification α) :=
  match prev.update, new.update with
  | .agentMessageChunk ⟨.text prevText, prevChunkMeta⟩,
      .agentMessageChunk ⟨.text newText, newChunkMeta⟩ =>
    mergeTextChunks .agentMessageChunk prev prevText prevChunkMeta new newText newChunkMeta
  | .agentThoughtChunk ⟨.text prevText, prevChunkMeta⟩,
      .agentThoughtChunk ⟨.text newText, newChunkMeta⟩ =>
    mergeTextChunks .agentThoughtChunk prev prevText prevChunkMeta new newText newChunkMeta
  | _, _ => (true, prev, some new)

/-- Ids decide if both chunks carry one, and else the indexes. -/
def sameToolCall (prevId newId : Option Str) (prevIdx newIdx : ℕ) : Bool :=
  match prevId, newId with
  | some a, some b => a = b
  | _, _ => prevIdx = newIdx

def mergeArguments : Option Str → Option Str → Option Str
  | some a, some b => some (a ++ b)
  | some a, none => some a
  | none, b => b

def mergeXaiChunks (prev new : XaiNotification α) :
    Bool × XaiNotification α × Option (XaiNotification α) :=
  if prev.sessionId ≠ new.sessionId then (true, prev, some new)
  else
    match prev.update, new.update with
    | .toolCallDeltaChunk prevDelta, .toolCallDeltaChunk newDelta =>
      if sameToolCall prevDelta.toolCallId newDelta.toolCallId prevDelta.toolIndex
          newDelta.toolIndex then
        (false,
          { sessionId := prev.sessionId
            update := .toolCallDeltaChunk
              { toolCallId := prevDelta.toolCallId.or newDelta.toolCallId
                toolIndex := prevDelta.toolIndex
                name := prevDelta.name.or newDelta.name
                argumentsDelta :=
                  mergeArguments prevDelta.argumentsDelta newDelta.argumentsDelta }
            xaiMeta := none },
          none)
      else
        (true, prev, some { new with sessionId := prev.sessionId })
    | _, _ => (true, prev, some { new with sessionId := prev.sessionId })

def merge (prev : Option (SessionNotification α)) (new : SessionNotification α) :
    Bool × SessionNotification α × Option (SessionNotification α) :=
  match prev, new with
  | some (.acp prev), .acp new =>
    let (force, first, second) := mergeAcpChunks new prev
    (force, .acp first, second.map .acp)
  | some (.xai prev), .xai new =>
    let (force, first, second) := mergeXaiChunks prev new
    (force, .xai first, second.map .xai)
  | some prev, incoming => (true, prev, some incoming)
  | none, incoming => (!incoming.isStreamingChunk, incoming, none)

def estimatePayloadBytes : SessionNotification α → ℕ
  | .acp ⟨_, .agentMessageChunk ⟨.text content, _⟩, _⟩ => utf8Len content.text
  | .acp ⟨_, .agentThoughtChunk ⟨.text content, _⟩, _⟩ => utf8Len content.text
  | .acp _ => 0
  | .xai ⟨_, .toolCallDeltaChunk delta, _⟩ =>
    (delta.argumentsDelta.map utf8Len).getD 0 + (delta.name.map utf8Len).getD 0
  | .xai ⟨_, .other _, _⟩ => 0

/-! ## The buffer -/

structure BufferingSettings where
  maxItems : ℕ
  maxBytes : ℕ
  maxDurationMs : ℕ

structure ReplayBuffer (α : Type) where
  settings : Option BufferingSettings
  pending : Option (SessionNotification α)
  pendingCount : ℕ
  pendingBytes : ℕ

/-- What is sent now, in order. -/
abbrev Sent (α : Type) := Option (SessionNotification α × Option (SessionNotification α))

namespace ReplayBuffer

def new (settings : Option BufferingSettings) : ReplayBuffer α :=
  { settings := settings, pending := none, pendingCount := 0, pendingBytes := 0 }

def empty (buffer : ReplayBuffer α) : ReplayBuffer α :=
  { buffer with pending := none, pendingCount := 0, pendingBytes := 0 }

/-- `saturating_add`. -/
def nextCount (buffer : ReplayBuffer α) : ℕ :=
  if buffer.pending.isSome then min (buffer.pendingCount + 1) (2 ^ 64 - 1) else 1

/-- The merged notification stays in the buffer or goes out because of the thresholds. -/
def keepOrSend (buffer : ReplayBuffer α) (settings : BufferingSettings) (forceSend : Bool)
    (pending : SessionNotification α) : ReplayBuffer α × Sent α :=
  let nextBytes := estimatePayloadBytes pending
  if forceSend ∨ settings.maxItems ≤ buffer.nextCount ∨ settings.maxBytes ≤ nextBytes then
    (buffer.empty, some (pending, none))
  else
    ({ buffer with
        pending := some pending
        pendingCount := buffer.nextCount
        pendingBytes := nextBytes }, none)

def consumeChunkWithSettings (buffer : ReplayBuffer α) (settings : BufferingSettings)
    (incoming : SessionNotification α) : ReplayBuffer α × Sent α :=
  let sessionIdMatches :=
    (buffer.pending.map fun n => decide (n.sessionId = incoming.sessionId)).getD true
  let timestampInRange :=
    (buffer.pending.map fun prev =>
      incoming.isInTimestampWindow prev settings.maxDurationMs).getD true
  if ¬ sessionIdMatches then
    match buffer.pending with
    | some pending => (buffer.empty, some (pending, some incoming))
    | none => ({ buffer with pending := none }, some (incoming, none))
  else if ¬ timestampInRange then
    ({ buffer with pending := some incoming }, buffer.pending.map fun prev => (prev, none))
  else
    match merge buffer.pending incoming with
    | (_, pending, some next) => (buffer.empty, some (pending, some next))
    | (forceSend, pending, none) => buffer.keepOrSend settings forceSend pending

def consumeChunk (buffer : ReplayBuffer α) (incoming : SessionNotification α) :
    ReplayBuffer α × Sent α :=
  match buffer.settings with
  | some settings => buffer.consumeChunkWithSettings settings incoming
  | none => (buffer, some (incoming, none))

def flush (buffer : ReplayBuffer α) : ReplayBuffer α × Option (SessionNotification α) :=
  (buffer.empty, buffer.pending)

/-- Everything that is sent for a sequence of notifications and the flush behind it. -/
def sendAll (buffer : ReplayBuffer α) : List (SessionNotification α) → List (SessionNotification α)
  | [] => buffer.flush.2.toList
  | incoming :: rest =>
    let (next, sent) := buffer.consumeChunk incoming
    (sent.toList.flatMap fun pair => pair.1 :: pair.2.toList) ++ next.sendAll rest

end ReplayBuffer

end GrokBuild.ChunkMerge
