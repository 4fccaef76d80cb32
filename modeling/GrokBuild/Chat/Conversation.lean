import GrokBuild.Text.Json
import GrokBuild.Text.Slices

/-!
# Conversation items

The history of a session: what the user, the model, the tools and the backend said, in
order.
-/

namespace GrokBuild.Chat

open Text

inductive ContentPart where
  | text (text : Str)
  | image (url : Str)
deriving DecidableEq

inductive SyntheticReason where
  | compactionMeta
  | systemReminder
  | lengthContinue
  | projectInstructions
  | autoContinue
  | autoRecovery
  | interjection
  | agentMessage
  | taskCompleted
  | subagentCompleted
  | notificationDrain
  | goalSummary
  | goalClassifierNudge
  | schedulerFired
  | stopHookFeedback
  | workingDirectorySwitch
  | unknown
deriving DecidableEq

/-- Whether a user item with this reason starts a prompt turn. -/
def SyntheticReason.startsPromptTurn : SyntheticReason → Bool
  | .agentMessage | .unknown | .taskCompleted | .subagentCompleted | .notificationDrain
  | .goalClassifierNudge | .schedulerFired => true
  | .compactionMeta | .systemReminder | .lengthContinue | .projectInstructions | .autoContinue
  | .autoRecovery | .interjection | .goalSummary | .stopHookFeedback
  | .workingDirectorySwitch => false

structure SystemItem where
  content : Str
deriving DecidableEq

structure UserItem where
  content : List ContentPart
  syntheticReason : Option SyntheticReason := none
  cwdGeneration : Option ℕ := none
  promptIndex : Option ℕ := none
deriving DecidableEq

structure ToolCall where
  id : Str
  name : Str
  arguments : Str
deriving DecidableEq

structure AssistantItem where
  content : Str
  toolCalls : List ToolCall
deriving DecidableEq

structure ToolResultItem where
  toolCallId : Str
  content : Str
  images : List ContentPart := []
deriving DecidableEq

inductive WebSearchAction where
  | search (query : Str)
  | openPage (url : Option Str)
  | find (pattern url : Str)
  | findInPage (pattern url : Str)
deriving DecidableEq

inductive BackendToolKind where
  | webSearch (action : WebSearchAction)
  | xSearch (name input : Str)
  | codeInterpreter (code : Option Str)
deriving DecidableEq

structure BackendToolCallItem where
  kind : BackendToolKind
deriving DecidableEq

structure ReasoningItem where
  summary : List Str
  content : Option (List Str)
  encryptedContent : Option Str
deriving DecidableEq

inductive ConversationItem where
  | system (s : SystemItem)
  | user (u : UserItem)
  | assistant (a : AssistantItem)
  | toolResult (r : ToolResultItem)
  | backendToolCall (b : BackendToolCallItem)
  | reasoning (r : ReasoningItem)
deriving DecidableEq

namespace WebSearchAction

def description : WebSearchAction → Str
  | .search query => "search: ".toList ++ query
  | .openPage url => "open: ".toList ++ url.getD "?".toList
  | .find pattern url | .findInPage pattern url =>
    "find \"".toList ++ pattern ++ "\" in ".toList ++ url

end WebSearchAction

/-- The preview cuts the code at byte 100, which panics inside a character. -/
def codePreview : Option Str → Option Str
  | none => some []
  | some code =>
    if 100 < utf8Len code then (takeBytes 100 code).map (· ++ "...".toList) else some code

def BackendToolCallItem.textSummary (b : BackendToolCallItem) : Option Str :=
  match b.kind with
  | .webSearch action => some ("[backend web_search] ".toList ++ action.description)
  | .xSearch name input =>
    some ("[backend x_search] ".toList ++ name ++ "(".toList ++ input ++ ")".toList)
  | .codeInterpreter code =>
    (codePreview code).map ("[backend code_interpreter] ".toList ++ ·)

def reasoningItemText (r : ReasoningItem) : Str :=
  ['\n'].intercalate (r.summary ++ r.content.getD [])

namespace ConversationItem

/-- A tool result without images. -/
def ofToolResult (toolCallId content : Str) : ConversationItem :=
  .toolResult ⟨toolCallId, content, []⟩

def asToolResult : ConversationItem → Option ToolResultItem
  | .toolResult r => some r
  | _ => none

/-- The ids an assistant item declares; no other item declares any. -/
def toolCallIds : ConversationItem → List Str
  | .assistant a => a.toolCalls.map ToolCall.id
  | _ => []

theorem asToolResult_eq_some (x : ConversationItem) (r : ToolResultItem) :
    x.asToolResult = some r ↔ x = .toolResult r := by
  cases x <;> simp [asToolResult]

end ConversationItem

end GrokBuild.Chat
