import Mathlib
import GrokBuild.Chat.Repair

/-!
# The chat-state actor

The actor owns the conversation and handles one command after the other. A turn capture
remembers where in the conversation the turn began; commands that shift or drop items save
the tail of the turn first and then set the offset anew. Token totals, usage ledgers,
credentials, traces and what is persisted are left out: no command reads them here.
-/

namespace GrokBuild.Chat

open Text

structure PruningConfig where
  enabled : Bool := true
  hardClearAgeTurns : ℕ := 10

structure TurnCaptureState where
  turnStartOffset : ℕ
  preReplacementMessages : List ConversationItem
  compactionOccurred : Bool

structure TurnCapture where
  messages : List ConversationItem
  compactionOccurred : Bool

/-- `assertFailed` records that the debug assertion of `turn_tail` did not hold once. -/
structure ChatState where
  conversation : List ConversationItem
  promptIndex : ℕ
  turnCapture : Option TurnCaptureState
  assertFailed : Bool

/-! ## Turn capture -/

/-- `turn_tail`: an offset past the end yields nothing. -/
def turnTail (conversation : List ConversationItem) (offset : ℕ) : List ConversationItem :=
  if offset ≤ conversation.length then conversation.drop offset else []

namespace ChatState

/-- The assertion of `turn_tail`, evaluated at the current conversation. -/
def assertTail (s : ChatState) (offset : ℕ) : ChatState :=
  { s with assertFailed := s.assertFailed || decide (s.conversation.length < offset) }

def snapshotTurnSlice (s : ChatState) : ChatState :=
  match s.turnCapture with
  | none => s
  | some cap =>
    { s.assertTail cap.turnStartOffset with
      turnCapture := some { cap with
        preReplacementMessages :=
          cap.preReplacementMessages ++ turnTail s.conversation cap.turnStartOffset } }

def rebaseTurnCaptureOffset (s : ChatState) : ChatState :=
  { s with turnCapture := s.turnCapture.map fun cap =>
      { cap with turnStartOffset := s.conversation.length } }

def beginTurnCapture (s : ChatState) : ChatState :=
  { s with turnCapture := some ⟨s.conversation.length, [], false⟩ }

def takeTurnMessages (s : ChatState) : ChatState × Option TurnCapture :=
  match s.turnCapture with
  | none => (s, none)
  | some cap =>
    ({ s.assertTail cap.turnStartOffset with turnCapture := none },
      some ⟨cap.preReplacementMessages ++ turnTail s.conversation cap.turnStartOffset,
        cap.compactionOccurred⟩)

/-! ## Rewriting the history -/

inductive HistoryRewrite where
  | integrityRepair
  | retainedPrune
  | imageStrip
deriving DecidableEq

def rewriteHistory (s : ChatState) (kind : HistoryRewrite)
    (mutate : List ConversationItem → List ConversationItem) : ChatState :=
  if kind = .integrityRepair then
    let s := s.snapshotTurnSlice
    { s with conversation := mutate s.conversation }.rebaseTurnCaptureOffset
  else { s with conversation := mutate s.conversation }

def ensureConversationIntegrity (s : ChatState) (reason : DanglingToolCallReason) : ChatState :=
  s.rewriteHistory .integrityRepair fun items =>
    (repairDanglingToolCalls (dedupDuplicateToolResults items).1 reason).1

def isContinueReminder : ConversationItem → Bool
  | .user u => u.syntheticReason = some .lengthContinue
  | _ => false

def popStrandedContinueReminder (s : ChatState) : ChatState :=
  if s.conversation.getLast?.any isContinueReminder then
    s.rewriteHistory .integrityRepair fun items => items.rdropWhile isContinueReminder
  else s

def repairDanglingAfterHarnessHalt (s : ChatState) (haltClass : Str) : ChatState :=
  s.popStrandedContinueReminder.ensureConversationIntegrity (.harnessHalted haltClass)

def markCompaction (s : ChatState) : ChatState :=
  { s with turnCapture := s.turnCapture.map fun cap => { cap with compactionOccurred := true } }

def replaceConversation (s : ChatState) (items : List ConversationItem) (isCompaction : Bool) :
    ChatState :=
  let s := s.snapshotTurnSlice
  let s := if isCompaction then s.markCompaction else s
  { s with conversation := items }.rebaseTurnCaptureOffset

/-- The conversation is moved out of the state before it is repaired, and put back only where
nothing changed. -/
def repairHistory (s : ChatState) (dryRun : Bool) : ChatState × HistoryRepairReport :=
  let (items, report) := Chat.repairHistory s.conversation
  if dryRun then (s, report)
  else
    let taken := { s with conversation := [] }
    if report.changed then (taken.replaceConversation items false, report)
    else ({ taken with conversation := items }, report)

def restoreSnapshot (s : ChatState) (conversation : List ConversationItem) (promptIndex : ℕ) :
    ChatState :=
  let s := s.snapshotTurnSlice
  let s := { s with conversation := conversation }.rebaseTurnCaptureOffset
  { s with promptIndex := promptIndex }

def trimNewlines (s : Str) : Str := trimEndMatches (fun c => c = '\n' || c = '\r') s

def canonicalSystemPromptEq (a b : Str) : Bool := trimNewlines a = trimNewlines b

def replaceOrInsertSystemHead (items : List ConversationItem) (prompt : Str) :
    List ConversationItem × Bool :=
  match items with
  | .system sys :: rest =>
    if canonicalSystemPromptEq sys.content prompt then (items, false)
    else (.system ⟨prompt⟩ :: rest, true)
  | _ => (.system ⟨prompt⟩ :: items, true)

def replaceSystemHead (s : ChatState) (prompt : Str) : ChatState :=
  let unchanged := match s.conversation.head? with
    | some (.system sys) => canonicalSystemPromptEq sys.content prompt
    | _ => false
  if unchanged then s
  else s.replaceConversation (replaceOrInsertSystemHead s.conversation prompt).1 false

end ChatState

/-! ## Edits in place -/

def hardClearPlaceholder : Str := "[Tool result omitted \u2014 too old]".toList

/-- The loop of `prune_retained_conversation`, from the last item to the first: the items, the
age in turns, and whether a user item was seen. -/
def clearOld (threshold : ℕ) : List ConversationItem → List ConversationItem × ℕ × Bool
  | [] => ([], 0, false)
  | item :: rest =>
    let (rest, turnFromEnd, seenFirstUser) := clearOld threshold rest
    match item with
    | .user u => (.user u :: rest, if seenFirstUser then turnFromEnd + 1 else turnFromEnd, true)
    | .toolResult r =>
      if turnFromEnd < threshold then (.toolResult r :: rest, turnFromEnd, seenFirstUser)
      else (.toolResult { r with content := hardClearPlaceholder } :: rest, turnFromEnd,
        seenFirstUser)
    | item => (item :: rest, turnFromEnd, seenFirstUser)

def isUser : ConversationItem → Bool
  | .user _ => true
  | _ => false

def ChatState.pruneRetainedConversation (config : PruningConfig) (s : ChatState) : ChatState :=
  if !config.enabled || decide (s.promptIndex < config.hardClearAgeTurns) then s
  else
    let syntheticCount := s.conversation.countP isUser - s.promptIndex
    s.rewriteHistory .retainedPrune fun items =>
      (clearOld (config.hardClearAgeTurns + syntheticCount) items).1

def imageStripPlaceholder : Str :=
  "[image removed \u2014 the server could not process it; its contents are unavailable. Ask the user to re-attach the image if it is still needed.]".toList

def stripPart (urls : List Str) : ContentPart → ContentPart
  | .image url => if url ∈ urls then .text imageStripPlaceholder else .image url
  | .text text => .text text

def isStripped (urls : List Str) : ContentPart → Bool
  | .image url => url ∈ urls
  | .text _ => false

/-- The images of a user item become placeholders, those of a tool result are dropped. -/
def stripItem (urls : List Str) : ConversationItem → ConversationItem
  | .user u => .user { u with content := u.content.map (stripPart urls) }
  | .toolResult r => .toolResult { r with images := r.images.filter fun p => !isStripped urls p }
  | item => item

def stripImagesByUrl (items : List ConversationItem) (urls : List Str) : List ConversationItem :=
  items.map (stripItem urls)

def workingDirectorySwitchGeneration : ConversationItem → Option ℕ
  | .user u => if u.syntheticReason = some .workingDirectorySwitch then u.cwdGeneration else none
  | _ => none

/-- The first item of the generation is replaced by the authoritative one, or that is pushed. -/
def convergeWorkingDirectorySwitch (items : List ConversationItem) (generation : ℕ)
    (authoritative : ConversationItem) : List ConversationItem :=
  match items.findIdx? fun item => workingDirectorySwitchGeneration item = some generation with
  | some i => items.set i authoritative
  | none => items ++ [authoritative]

/-! ## Memory reminders -/

def memoryContextOpenTag : Str := "<memory-context>".toList

def upsertMemoryReminderText (systemPrompt reminder : Str) : Str :=
  let trimmed := fun s => trimEndMatches (· = '\n') s
  match splitOnce memoryContextOpenTag systemPrompt with
  | some (before, _) =>
    let before := trimmed before
    if before = [] then reminder else before ++ "\n\n".toList ++ reminder
  | none =>
    if trimEndMatches isWhitespace systemPrompt = reminder then systemPrompt
    else if systemPrompt = [] then reminder
    else trimmed systemPrompt ++ "\n\n".toList ++ reminder

def injectMemoryReminder (items : List ConversationItem) (reminder : Str) : List ConversationItem :=
  let reminder := trim reminder
  if reminder = [] then items
  else
    match items with
    | .system sys :: rest => .system ⟨upsertMemoryReminderText sys.content reminder⟩ :: rest
    | _ => .system ⟨reminder⟩ :: items

/-! ## Commands -/

/-- A user item that means an earlier continuation is dead. -/
def endsContinuation : ConversationItem → Bool
  | .user u =>
    match u.syntheticReason with
    | none => true
    | some reason => reason.startsPromptTurn || decide (reason ∈ [SyntheticReason.autoRecovery,
        .stopHookFeedback, .goalSummary, .workingDirectorySwitch, .interjection])
  | _ => false

namespace ChatState

variable (config : PruningConfig)

def pushMessage (s : ChatState) (item : ConversationItem) : ChatState :=
  { s with conversation := s.conversation ++ [item] }

def pushUserMessage (s : ChatState) (item : ConversationItem) (reason : DanglingToolCallReason) :
    ChatState :=
  let s := if endsContinuation item then s.popStrandedContinueReminder else s
  ((s.ensureConversationIntegrity reason).pushMessage item).pruneRetainedConversation config

def buildConversationRequest (s : ChatState) (memoryReminder : Option Str)
    (persistMemoryReminder : Bool) : ChatState :=
  let s := s.ensureConversationIntegrity .userCancelled
  match memoryReminder with
  | some reminder =>
    if persistMemoryReminder then
      let s := s.snapshotTurnSlice
      { s with conversation := injectMemoryReminder s.conversation reminder }.rebaseTurnCaptureOffset
    else s
  | none => s

def truncateToPromptIndex (s : ChatState) (target : ℕ) : ChatState :=
  if s.promptIndex ≤ target then s
  else
    let users := (List.range s.conversation.length).filter fun i =>
      s.conversation[i]?.any isUser
    { s with
      conversation := s.conversation.take (users[target]?.getD s.conversation.length)
      promptIndex := target }

end ChatState

/-- The commands that touch the conversation, the capture or the prompt index. The ack of a
working-directory switch and the flag that blocks a repair are what the handler found. -/
inductive Command where
  | pushUserMessages (items : List ConversationItem) (reason : DanglingToolCallReason)
  | appendWorkingDirectorySwitch (generation : ℕ) (authoritative : Option ConversationItem)
  | push (item : ConversationItem)
  | incrementPromptIndex
  | replaceConversation (items : List ConversationItem) (isCompaction : Bool)
  | repairHistory (dryRun blocked : Bool)
  | stripConversationImages (urls : List Str)
  | replaceSystemHead (prompt : Str)
  | restoreSnapshot (conversation : List ConversationItem) (promptIndex : ℕ)
  | beginTurnCapture
  | repairDanglingAfterHarnessHalt (haltClass : Str)
  | popStrandedContinueReminder
  | buildConversationRequest (memoryReminder : Option Str) (persistMemoryReminder : Bool)
  | truncateToPromptIndex (target : ℕ)
  | takeTurnMessages
  | query

/-- The state after a command, and what `TakeTurnMessages` replies. -/
def handleCommand (config : PruningConfig) (s : ChatState) :
    Command → ChatState × Option TurnCapture
  | .pushUserMessages items reason =>
    (items.foldl (fun s item => s.pushUserMessage config item reason) s, none)
  | .appendWorkingDirectorySwitch generation authoritative =>
    let s := s.popStrandedContinueReminder
    match authoritative with
    | none => (s, none)
    | some item =>
      ({ s with conversation := convergeWorkingDirectorySwitch s.conversation generation item },
        none)
  | .push item => (s.pushMessage item, none)
  | .incrementPromptIndex => ({ s with promptIndex := s.promptIndex + 1 }, none)
  | .replaceConversation items isCompaction => (s.replaceConversation items isCompaction, none)
  | .repairHistory dryRun blocked => (if blocked then s else (s.repairHistory dryRun).1, none)
  | .stripConversationImages urls =>
    (s.rewriteHistory .imageStrip fun items => stripImagesByUrl items urls, none)
  | .replaceSystemHead prompt => (s.replaceSystemHead prompt, none)
  | .restoreSnapshot conversation promptIndex => (s.restoreSnapshot conversation promptIndex, none)
  | .beginTurnCapture => (s.beginTurnCapture, none)
  | .repairDanglingAfterHarnessHalt haltClass => (s.repairDanglingAfterHarnessHalt haltClass, none)
  | .popStrandedContinueReminder => (s.popStrandedContinueReminder, none)
  | .buildConversationRequest memoryReminder persist =>
    (s.buildConversationRequest memoryReminder persist, none)
  | .truncateToPromptIndex target =>
    ({ s.truncateToPromptIndex target with turnCapture := none }, none)
  | .takeTurnMessages => s.takeTurnMessages
  | .query => (s, none)

end GrokBuild.Chat
