import GrokBuild.Lib.StepRun
import GrokBuild.Text.Str

/-!
# Chat history from session updates

`chat_rebuild` of `session/storage/mod.rs`: the reducer that turns the updates of a session
into the items of its conversation, and the loop that writes them. The reducer moves texts
and never looks into them, so they are lists over any alphabet and not of characters alone.
-/

namespace GrokBuild.ChatRebuild

open GrokBuild.Text

variable {A R : Type}

inductive ContentBlock (A : Type) where
  | text (text : List A)
  | image (uri : Option Str)
  | other
deriving DecidableEq, Repr

def ContentBlock.isText : ContentBlock A → Bool
  | .text _ => true
  | _ => false

/-- A chunk with the two flags of its `_meta` that are read. -/
structure ContentChunk (A : Type) where
  content : ContentBlock A
  isHostTurn : Bool := false
  isInterjection : Bool := false
deriving DecidableEq, Repr

inductive ToolCallStatus where
  | pending
  | inProgress
  | completed
  | failed
deriving DecidableEq, Repr

structure ToolCallUpdateFields (R : Type) where
  status : Option ToolCallStatus := none
  rawInput : Option Str := none
  output : R
deriving DecidableEq, Repr

inductive SessionUpdate (A R : Type) where
  | userMessageChunk (chunk : ContentChunk A)
  | agentMessageChunk (chunk : ContentChunk A)
  | toolCall (id : Str) (title : List A) (rawInput : Option Str)
  | toolCallUpdate (id : Str) (fields : ToolCallUpdateFields R)
  | compactionCheckpoint
  | other
deriving DecidableEq, Repr

/-- What a completed call hands back: blocks of content, of which `none` is not a text, and
the raw output. -/
structure ToolOutput where
  content : Option (List (Option Str)) := none
  rawOutput : Option Str := none
deriving DecidableEq, Repr

def extractToolResultText (output : ToolOutput) : Str :=
  let text := ((output.content.getD []).filterMap id).flatten
  if text ≠ [] then text else output.rawOutput.getD []

inductive ContentPart (A : Type) where
  | text (text : List A)
  | image (url : Str)
deriving DecidableEq, Repr

structure ToolCall (A : Type) where
  id : Str
  name : List A
  arguments : Str
deriving DecidableEq, Repr

inductive SyntheticReason where
  | interjection
deriving DecidableEq, Repr

inductive ConversationItem (A : Type) where
  | user (content : List (ContentPart A)) (syntheticReason : Option SyntheticReason)
  | assistant (content : List A) (toolCalls : List (ToolCall A))
  | toolResult (toolCallId : Str) (content : List A)
deriving DecidableEq, Repr

structure ChatReducer (A : Type) where
  userParts : List (ContentPart A) := []
  userIsInterjection : Bool := false
  agentText : List A := []
  agentToolCalls : List (ToolCall A) := []
  inUserTurn : Bool := false
  hasAgentContent : Bool := false
  needsTruncate : Bool := false
  toolArgs : Str → Option Str := fun _ => none
  emittedToolResults : List Str := []
  itemCount : ℕ := 0

namespace ChatReducer

/-- A reducer and the items it hands out. -/
abbrev Emits (A : Type) := ChatReducer A × List (ConversationItem A)

def flushUser (r : ChatReducer A) : Emits A :=
  if r.userParts = [] then ({ r with userIsInterjection := false }, [])
  else
    ({ r with userIsInterjection := false, userParts := [], itemCount := r.itemCount + 1 },
      [.user r.userParts (bif r.userIsInterjection then some .interjection else none)])

def flushAgent (r : ChatReducer A) : Emits A :=
  if !r.hasAgentContent && r.agentToolCalls = [] then (r, [])
  else
    ({ r with
        agentText := [], agentToolCalls := [], hasAgentContent := false
        itemCount := r.itemCount + 1 },
      [.assistant r.agentText r.agentToolCalls])

/-- What a second handler hands out after a first. -/
def andThen (first : Emits A) (next : ChatReducer A → Emits A) : Emits A :=
  ((next first.1).1, first.2 ++ (next first.1).2)

def flush (r : ChatReducer A) : Emits A :=
  andThen r.flushUser flushAgent

/-- The user item, if it is the user's turn. -/
def closeUserTurn (r : ChatReducer A) : Emits A :=
  if r.inUserTurn then
    let flushed := r.flushUser
    ({ flushed.1 with inUserTurn := false }, flushed.2)
  else (r, [])

/-- The agent item, unless it is the user's turn already. -/
def openUserTurn (r : ChatReducer A) : Emits A :=
  if !r.inUserTurn then
    let flushed := r.flushAgent
    ({ flushed.1 with inUserTurn := true }, flushed.2)
  else (r, [])

def flushHostTurnBoundary (r : ChatReducer A) : Emits A :=
  andThen r.closeUserTurn flushAgent

/-- Interjections never merge with an adjacent prompt run, nor with each other. -/
def separateInterjection (chunk : ContentChunk A) (r : ChatReducer A) : Emits A :=
  let opensInterjection := chunk.isInterjection && chunk.content.isText
  if chunk.isInterjection ≠ r.userIsInterjection ∨ opensInterjection then r.flushUser
  else (r, [])

def pushUserPart (chunk : ContentChunk A) (r : ChatReducer A) : ChatReducer A :=
  match chunk.content with
  | .text t => { r with userParts := r.userParts ++ [.text t] }
  | .image (some uri) => { r with userParts := r.userParts ++ [.image uri] }
  | .image none => r
  | .other => r

def onUserChunk (r : ChatReducer A) (chunk : ContentChunk A) : Emits A :=
  if chunk.isHostTurn then r.flushHostTurnBoundary
  else
    let flushed := andThen r.openUserTurn (separateInterjection chunk)
    (pushUserPart chunk { flushed.1 with userIsInterjection := chunk.isInterjection }, flushed.2)

def onAgentChunk (r : ChatReducer A) (chunk : ContentChunk A) : Emits A :=
  if chunk.isHostTurn then r.flushHostTurnBoundary
  else
    let flushed := r.closeUserTurn
    match chunk.content with
    | .text t =>
      ({ flushed.1 with agentText := flushed.1.agentText ++ t, hasAgentContent := true },
        flushed.2)
    | _ => flushed

def onToolCall (r : ChatReducer A) (id : Str) (title : List A) (rawInput : Option Str) :
    Emits A :=
  let args := rawInput.getD []
  ({ r with
      toolArgs := fun key => if key = id then some args else r.toolArgs key
      agentToolCalls := r.agentToolCalls ++ [⟨id, title, args⟩] }, [])

/-- The first call with the id gets the arguments. -/
def setArguments (id args : Str) : List (ToolCall A) → List (ToolCall A)
  | [] => []
  | call :: calls =>
    if call.id = id then { call with arguments := args } :: calls
    else call :: setArguments id args calls

def maybeBackfillArgs (r : ChatReducer A) (id : Str) (rawInput : Option Str) : ChatReducer A :=
  match rawInput with
  | none => r
  | some args =>
    if ((r.toolArgs id).getD []) = [] then
      { r with
          toolArgs := fun key => if key = id then some args else r.toolArgs key
          agentToolCalls := setArguments id args r.agentToolCalls }
    else r

def isCompleted (fields : ToolCallUpdateFields R) : Bool :=
  fields.status = some .completed || fields.status = some .failed

def emitToolResult (extract : R → List A) (id : Str) (fields : ToolCallUpdateFields R)
    (r : ChatReducer A) : Emits A :=
  let flushed := r.flushAgent
  ({ flushed.1 with itemCount := flushed.1.itemCount + 1 },
    flushed.2 ++ [.toolResult id (extract fields.output)])

def onToolCallUpdate (extract : R → List A) (r : ChatReducer A) (id : Str)
    (fields : ToolCallUpdateFields R) : Emits A :=
  let r := r.maybeBackfillArgs id fields.rawInput
  if isCompleted fields && id ∉ r.emittedToolResults then
    emitToolResult extract id fields
      { r with emittedToolResults := id :: r.emittedToolResults }
  else (r, [])

/-- All but the truncate flag starts anew. -/
def reset (r : ChatReducer A) : ChatReducer A := { needsTruncate := r.needsTruncate }

def process (extract : R → List A) (r : ChatReducer A) : SessionUpdate A R → Emits A
  | .userMessageChunk chunk => r.onUserChunk chunk
  | .agentMessageChunk chunk => r.onAgentChunk chunk
  | .toolCall id title rawInput => r.onToolCall id title rawInput
  | .toolCallUpdate id fields => onToolCallUpdate extract r id fields
  | .compactionCheckpoint => ({ r.reset with needsTruncate := true }, [])
  | .other => (r, [])

end ChatReducer

open ChatReducer

/-- The reducer with the items written so far; a checkpoint truncates the file. -/
def writeStep (extract : R → List A) (s : Emits A) (update : SessionUpdate A R) : Emits A :=
  let processed := s.1.process extract update
  if processed.1.needsTruncate then ({ processed.1 with needsTruncate := false }, [])
  else (processed.1, s.2 ++ processed.2)

def rebuildChatHistory (extract : R → List A) (updates : List (SessionUpdate A R)) :
    List (ConversationItem A) :=
  let s := StepRun.run (writeStep extract) ({}, []) updates
  s.2 ++ s.1.flush.2

end GrokBuild.ChatRebuild
