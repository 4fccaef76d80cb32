import GrokBuild.Chat.Conversation
import Mathlib.Data.List.Infix

/-!
# Requests of the Messages API

The items of a conversation become messages whose blocks are collected in two buffers, one
for the assistant and one for tool results; then the cache breakpoints are set. Of the
request only what is built from the items is modelled: the system prompt and the messages.
-/

namespace GrokBuild.Chat

open Text

/-- What the encoder takes from outside: `char::is_alphanumeric` and `serde_json::from_str`. -/
structure Wire where
  isAlphanumeric : Char → Bool
  fromStr : Str → Option Value

structure CacheControl where
  type : Str
deriving DecidableEq

def CacheControl.ephemeral : CacheControl := ⟨"ephemeral".toList⟩

structure TextBlock where
  type : Str
  text : Str
  cacheControl : Option CacheControl
deriving DecidableEq

inductive ImageSource where
  | base64 (mediaType data : Str)
  | url (url : Str)
deriving DecidableEq

mutual

inductive ContentBlock where
  | text (text : Str) (cacheControl : Option CacheControl)
  | image (source : ImageSource) (cacheControl : Option CacheControl)
  | toolUse (id name : Str) (input : Value) (cacheControl : Option CacheControl)
  | toolResult (toolUseId : Str) (content : ToolResultContent)
      (cacheControl : Option CacheControl)
  | thinking (thinking signature : Str)
  | redactedThinking (data : Str)

inductive ToolResultContent where
  | text (text : Str)
  | blocks (blocks : List ContentBlock)

end

inductive MessageRole where
  | user
  | assistant
deriving DecidableEq

inductive MessageContent where
  | text (text : Str)
  | blocks (blocks : List ContentBlock)

structure Message where
  role : MessageRole
  content : MessageContent

inductive SystemParam where
  | text (text : Str)
  | blocks (blocks : List TextBlock)

structure MessagesRequest where
  system : Option SystemParam
  messages : List Message

/-! ## Cache breakpoints -/

/-- The block with a breakpoint on it; the API rejects one on a thinking block. -/
def ContentBlock.mark : ContentBlock → Option ContentBlock
  | .text body _ => some (.text body (some .ephemeral))
  | .toolResult toolUseId content _ => some (.toolResult toolUseId content (some .ephemeral))
  | .image source _ => some (.image source (some .ephemeral))
  | .toolUse id name input _ => some (.toolUse id name input (some .ephemeral))
  | .thinking _ _ | .redactedThinking _ => none

/-- Marks the last block that can carry a breakpoint. -/
def markLastBlock : List ContentBlock → Option (List ContentBlock)
  | [] => none
  | block :: blocks =>
    match markLastBlock blocks with
    | some blocks => some (block :: blocks)
    | none => block.mark.map (· :: blocks)

/-- `mark_message_cache_breakpoint`; `none` where nothing could be marked. -/
def Message.mark (m : Message) : Option Message :=
  match m.content with
  | .blocks blocks => (markLastBlock blocks).map fun blocks => { m with content := .blocks blocks }
  | .text text => some { m with content := .blocks [.text text (some .ephemeral)] }

/-- Marks the last message that can carry a breakpoint, and says which it was. -/
def markTip : List Message → Option (List Message × ℕ)
  | [] => none
  | m :: ms =>
    match markTip ms with
    | some (ms, tip) => some (m :: ms, tip + 1)
    | none => m.mark.map fun m => (m :: ms, 0)

/-- `rposition`: the position of the last element that satisfies `p`. -/
def rposition {α : Type} (p : α → Bool) (l : List α) : Option ℕ :=
  (l.reverse.findIdx? p).map fun i => l.length - 1 - i

def markLastSystem : List TextBlock → List TextBlock
  | [] => []
  | [block] => [{ block with cacheControl := some .ephemeral }]
  | block :: blocks => block :: markLastSystem blocks

/-- Where the previous request ended: the user message before the last assistant message
before the tip. -/
def previousTip (messages : List Message) (tip : ℕ) : Option ℕ :=
  (rposition (fun m => m.role = .assistant) (messages.take tip)).bind fun assistant =>
    rposition (fun m => m.role = .user) (messages.take assistant)

def applyCacheBreakpoints (systemBlocks : List TextBlock) (messages : List Message) :
    List TextBlock × List Message :=
  let systemBlocks := markLastSystem systemBlocks
  match markTip messages with
  | none => (systemBlocks, messages)
  | some (messages, tip) =>
    match previousTip messages tip with
    | none => (systemBlocks, messages)
    | some prev => (systemBlocks, messages.modify prev fun m => m.mark.getD m)

/-! ## Encoding items -/

variable (wire : Wire)

def sanitizeToolCallId (id : Str) : Str :=
  id.map fun c => if wire.isAlphanumeric c || c = '_' || c = '-' then c else '_'

def dataPrefix : Str := "data:".toList

def contentPartToBlock : ContentPart → ContentBlock
  | .text text => .text text none
  | .image url =>
    if startsWith url dataPrefix then
      match splitOnce [','] url with
      | some (header, data) =>
        let mediaType := ((stripPrefix header dataPrefix).bind
          (stripSuffix · ";base64".toList)).getD "image/png".toList
        .image (.base64 mediaType data) none
      | none => .text ("[invalid image: ".toList ++ url ++ "]".toList) none
    else if startsWith url "http://".toList || startsWith url "https://".toList then
      .image (.url url) none
    else .text ("[image: ".toList ++ url ++ "]".toList) none

/-- The blocks of a tool result's images; parts that are no images are skipped. -/
def resultImage : ContentPart → Option ContentBlock
  | .text _ => none
  | .image url =>
    let source :=
      match (stripPrefix url dataPrefix).bind (splitOnce ";base64,".toList) with
      | some (mediaType, data) => .base64 mediaType data
      | none => .url url
    some (.image source none)

def toolResultContent (r : ToolResultItem) : ToolResultContent :=
  if r.images = [] then .text r.content
  else .blocks (.text r.content none :: r.images.filterMap resultImage)

/-- What has been encoded so far, and the two buffers. -/
structure Encoding where
  systemBlocks : List TextBlock := []
  messages : List Message := []
  pendingAssistant : List ContentBlock := []
  pendingToolResults : List ContentBlock := []

namespace Encoding

def flushAssistant (s : Encoding) : Encoding :=
  if s.pendingAssistant.isEmpty then s
  else { s with
    messages := s.messages ++ [⟨.assistant, .blocks s.pendingAssistant⟩], pendingAssistant := [] }

def flushToolResults (s : Encoding) : Encoding :=
  if s.pendingToolResults.isEmpty then s
  else { s with
    messages := s.messages ++ [⟨.user, .blocks s.pendingToolResults⟩], pendingToolResults := [] }

def pushAssistant (s : Encoding) (blocks : List ContentBlock) : Encoding :=
  { s with pendingAssistant := s.pendingAssistant ++ blocks }

end Encoding

def toolUseBlock (c : ToolCall) : ContentBlock :=
  .toolUse (sanitizeToolCallId wire c.id) c.name ((wire.fromStr c.arguments).getD (.object [])) none

def toolResultBlock (r : ToolResultItem) : ContentBlock :=
  .toolResult (sanitizeToolCallId wire r.toolCallId) (toolResultContent r) none

def textBlocks (text : Str) : List ContentBlock :=
  if text = [] then [] else [.text text none]

def thinkingBlocks (r : ReasoningItem) : List ContentBlock :=
  let thinking := reasoningItemText r
  let signature := r.encryptedContent.getD []
  if thinking ≠ [] ∨ signature ≠ [] then [.thinking thinking signature] else []

/-- One item of the loop; `none` where the summary of a backend call panics. -/
def encodeItem (s : Encoding) : ConversationItem → Option Encoding
  | .system sys =>
    let s := s.flushAssistant.flushToolResults
    some { s with systemBlocks := s.systemBlocks ++ [⟨"text".toList, sys.content, none⟩] }
  | .user u =>
    let s := s.flushAssistant.flushToolResults
    some { s with
      messages := s.messages ++ [⟨.user, .blocks (u.content.map contentPartToBlock)⟩] }
  | .assistant a =>
    some (s.flushToolResults.pushAssistant
      (textBlocks a.content ++ a.toolCalls.map (toolUseBlock wire)))
  | .toolResult r =>
    let s := s.flushAssistant
    some { s with pendingToolResults := s.pendingToolResults ++ [toolResultBlock wire r] }
  | .backendToolCall b =>
    b.textSummary.map fun summary => s.flushToolResults.pushAssistant [.text summary none]
  | .reasoning r => some (s.flushToolResults.pushAssistant (thinkingBlocks r))

def systemParam : List TextBlock → Option SystemParam
  | [] => none
  | [block] => if block.cacheControl.isNone then some (.text block.text) else some (.blocks [block])
  | blocks => some (.blocks blocks)

def buildMessagesRequest (items : List ConversationItem) : Option MessagesRequest :=
  (items.foldlM (encodeItem wire) {}).map fun s =>
    let s := s.flushAssistant.flushToolResults
    let (systemBlocks, messages) := applyCacheBreakpoints s.systemBlocks s.messages
    ⟨systemParam systemBlocks, messages⟩

end GrokBuild.Chat
