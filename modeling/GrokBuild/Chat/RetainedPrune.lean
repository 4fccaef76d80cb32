import GrokBuild.Chat.Actor
import GrokBuild.Chat.RepairRuns
import GrokBuild.Lib.StepRun

/-!
# Clearing old tool results

The age of a tool result is counted in user items, and the synthetic ones among them are made up
for by a higher threshold. How many there are is taken from the prompt index, so the count is short
where turns have left the conversation and the index has stayed.
-/

namespace GrokBuild.Chat

open Text StepRun Sections

/-- A user item that starts a prompt turn. -/
def startsTurn : ConversationItem → Bool
  | .user u =>
    match u.syntheticReason with
    | none => true
    | some reason => reason.startsPromptTurn
  | _ => false

def realTurns (items : List ConversationItem) : ℕ := items.countP startsTurn

def userItems (items : List ConversationItem) : ℕ := items.countP isUser

theorem realTurns_le_userItems (items : List ConversationItem) :
    realTurns items ≤ userItems items := by
  refine List.countP_mono_left fun item _ h => ?_
  cases item with
  | user u => rfl
  | _ => cases h

/-! ## The prune -/

variable {config : PruningConfig} {s : ChatState} {items : List ConversationItem} {threshold : ℕ}

/-- Only a tool result has something to clear. -/
def clearItem : ConversationItem → ConversationItem
  | .toolResult r => .toolResult { r with content := hardClearPlaceholder }
  | item => item

theorem clearOld_toolResult (threshold : ℕ) (r : ToolResultItem) (rest : List ConversationItem) :
    clearOld threshold (.toolResult r :: rest) =
      ((if (clearOld threshold rest).2.1 < threshold then .toolResult r
        else clearItem (.toolResult r)) :: (clearOld threshold rest).1,
        (clearOld threshold rest).2) := by
  rw [clearOld]
  dsimp only
  split_ifs
  · rfl
  · rfl

theorem clearOld_counts (threshold : ℕ) (items : List ConversationItem) :
    (clearOld threshold items).2 = (userItems items - 1, decide (0 < userItems items)) := by
  unfold userItems
  induction items with
  | nil => rfl
  | cons item rest ih =>
    cases item with
    | user u =>
      have hcount : (ConversationItem.user u :: rest).countP isUser = rest.countP isUser + 1 :=
        List.countP_cons_of_pos rfl
      obtain ⟨hage, hseen⟩ := Prod.mk.inj ih
      have hstep : (clearOld threshold (.user u :: rest)).2 =
          (if (clearOld threshold rest).2.2 then (clearOld threshold rest).2.1 + 1
            else (clearOld threshold rest).2.1, true) := rfl
      rw [hstep, hage, hseen, hcount, decide_eq_true (Nat.succ_pos _)]
      refine congrArg (·, true) ?_
      split_ifs with hpos
      · have := of_decide_eq_true hpos
        omega
      · have := mt (decide_eq_true (p := 0 < rest.countP isUser)) hpos
        omega
    | toolResult r =>
      have hcount : (ConversationItem.toolResult r :: rest).countP isUser = rest.countP isUser :=
        List.countP_cons_of_neg Bool.false_ne_true
      rw [clearOld_toolResult, hcount]
      exact ih
    | _ =>
      rw [List.countP_cons_of_neg Bool.false_ne_true]
      exact ih

/-- An item is cleared if enough user items, less the last one, are behind it. -/
theorem clearOld_getElem? (threshold i : ℕ) (items : List ConversationItem) :
    (clearOld threshold items).1[i]? = items[i]?.map fun item =>
      if userItems (items.drop (i + 1)) - 1 < threshold then item else clearItem item := by
  induction items generalizing i with
  | nil => rfl
  | cons item rest ih =>
    cases i with
    | zero =>
      rw [List.getElem?_cons_zero, Option.map_some, List.drop_succ_cons, List.drop_zero]
      cases item with
      | toolResult r =>
        rw [clearOld_toolResult, clearOld_counts]
        rfl
      | _ => exact congrArg some (ite_self _).symm
    | succ i =>
      rw [List.getElem?_cons_succ, List.drop_succ_cons, ← ih]
      cases item with
      | toolResult r =>
        rw [clearOld_toolResult]
        rfl
      | _ => rfl

/-- What a prune of the state does: items stay in place, and only results with enough real turns
behind them are cleared. -/
def PruneKeepsYoung (config : PruningConfig) (s : ChatState) : Prop :=
  let pruned := (s.pruneRetainedConversation config).conversation
  pruned.length = s.conversation.length ∧
    ∀ i item, s.conversation[i]? = some item → pruned[i]? = some item ∨
      ∃ r, item = .toolResult r ∧
        pruned[i]? = some (.toolResult { r with content := hardClearPlaceholder }) ∧
        config.hardClearAgeTurns ≤ realTurns (s.conversation.drop (i + 1))

/-- A young result with old age in user items: more of them are behind it than the threshold, and
the prompt index is further than the threshold ahead of those in front of it. -/
def Misjudges (config : PruningConfig) (s : ChatState) : Prop :=
  config.enabled = true ∧ ∃ i r, s.conversation[i]? = some (.toolResult r) ∧
    r.content ≠ hardClearPlaceholder ∧
    realTurns (s.conversation.drop (i + 1)) < config.hardClearAgeTurns ∧
    config.hardClearAgeTurns < userItems (s.conversation.drop (i + 1)) ∧
    config.hardClearAgeTurns + userItems (s.conversation.take i) < s.promptIndex

theorem countP_split {p : ConversationItem → Bool} {i : ℕ} {r : ToolResultItem}
    (h : items[i]? = some (.toolResult r)) (hp : p (.toolResult r) = false) :
    items.countP p = (items.take i).countP p + (items.drop (i + 1)).countP p := by
  obtain ⟨hi, hget⟩ := List.getElem?_eq_some_iff.mp h
  have hnot : ¬ p (.toolResult r) = true := Bool.eq_false_iff.mp hp
  conv_lhs => rw [← List.take_append_drop i items]
  rw [List.countP_append, List.drop_eq_getElem_cons hi, hget, List.countP_cons_of_neg hnot]

theorem userItems_split {i : ℕ} {r : ToolResultItem} (h : items[i]? = some (.toolResult r)) :
    userItems items = userItems (items.take i) + userItems (items.drop (i + 1)) :=
  countP_split h rfl

theorem realTurns_split {i : ℕ} {r : ToolResultItem} (h : items[i]? = some (.toolResult r)) :
    realTurns items = realTurns (items.take i) + realTurns (items.drop (i + 1)) :=
  countP_split h rfl

theorem prune_conversation (config : PruningConfig) (s : ChatState) :
    (s.pruneRetainedConversation config).conversation =
      if config.enabled = true ∧ config.hardClearAgeTurns ≤ s.promptIndex then
        (clearOld (config.hardClearAgeTurns + (userItems s.conversation - s.promptIndex))
          s.conversation).1
      else s.conversation := by
  unfold ChatState.pruneRetainedConversation
  split_ifs with hidle hactive hactive
  · rw [Bool.or_eq_true, Bool.not_eq_true', decide_eq_true_eq] at hidle
    obtain hoff | hlow := hidle
    · rw [hactive.1] at hoff
      cases hoff
    · omega
  · rfl
  · rfl
  · refine absurd ⟨?_, ?_⟩ hactive
    · by_contra hoff
      rw [Bool.eq_false_of_not_eq_true hoff] at hidle
      exact hidle rfl
    · by_contra hlow
      rw [decide_eq_true (Nat.lt_of_not_le hlow), Bool.or_true] at hidle
      exact hidle rfl

theorem length_clearOld (threshold : ℕ) (items : List ConversationItem) :
    (clearOld threshold items).1.length = items.length := by
  induction items with
  | nil => rfl
  | cons item rest ih =>
    cases item with
    | toolResult r =>
      rw [clearOld_toolResult]
      exact congrArg (· + 1) ih
    | _ => exact congrArg (· + 1) ih

/-- A prune clears a young result where one is misjudged, and only there. -/
theorem pruneKeepsYoung_iff (config : PruningConfig) (s : ChatState) :
    PruneKeepsYoung config s ↔ ¬ Misjudges config s := by
  unfold PruneKeepsYoung
  dsimp only
  rw [prune_conversation]
  constructor
  · rintro ⟨-, hkeeps⟩ ⟨hon, i, r, hget, hcontent, hyoung, hbehind, hfront⟩
    have hactive : config.hardClearAgeTurns ≤ s.promptIndex := by omega
    have hsplit := userItems_split hget
    have hcleared := clearOld_getElem?
      (config.hardClearAgeTurns + (userItems s.conversation - s.promptIndex)) i s.conversation
    rw [hget, Option.map_some, if_neg (by omega)] at hcleared
    have hitem := hkeeps i _ hget
    rw [if_pos ⟨hon, hactive⟩, hcleared] at hitem
    obtain hsame | ⟨r', hr', -, hold⟩ := hitem
    · have heq := ConversationItem.toolResult.inj (Option.some.inj hsame)
      exact hcontent (congrArg ToolResultItem.content heq).symm
    · omega
  · intro hnot
    split_ifs with hactive
    · refine ⟨length_clearOld _ _, fun i item hget => ?_⟩
      rw [clearOld_getElem?, hget, Option.map_some]
      split_ifs with hage
      · exact .inl rfl
      · cases item with
        | toolResult r =>
          by_cases hcontent : r.content = hardClearPlaceholder
          · left
            rw [clearItem, ← hcontent]
          · refine .inr ⟨r, rfl, rfl, ?_⟩
            by_contra hyoung
            have hsplit := userItems_split hget
            exact hnot ⟨hactive.1, i, r, hget, hcontent, by omega, by omega, by omega⟩
        | _ => exact .inl rfl
    · exact ⟨rfl, fun i item hget => .inl hget⟩

/-- While the prompt index is at most one ahead of the real turns, no result is misjudged. -/
theorem not_misjudges (h : s.promptIndex ≤ realTurns s.conversation + 1) :
    ¬ Misjudges config s := by
  rintro ⟨-, i, r, hget, -, hyoung, -, hfront⟩
  have hsplit := realTurns_split hget
  have hle := realTurns_le_userItems (s.conversation.take i)
  omega

/-! ## What the other edits keep -/

theorem realTurns_filter (items : List ConversationItem) :
    realTurns (items.filter fun item => (results.proj item).isNone) = realTurns items := by
  unfold realTurns
  rw [List.countP_filter]
  refine List.countP_congr fun item _ => ?_
  cases item with
  | toolResult r => exact iff_of_false Bool.false_ne_true Bool.false_ne_true
  | user u => exact Bool.and_eq_true_iff.trans (and_iff_left rfl)
  | _ => exact iff_of_false Bool.false_ne_true Bool.false_ne_true

/-- The repairs touch tool results only. -/
theorem realTurns_mapRuns (f : Option ConversationItem → List ToolResultItem → List ToolResultItem)
    (items : List ConversationItem) : realTurns (results.mapRuns f items) = realTurns items := by
  have hheads := results.heads_mapRuns f items
  rw [Followers.heads_eq_filter, Followers.heads_eq_filter] at hheads
  rw [← realTurns_filter, hheads, realTurns_filter]

theorem realTurns_repairHistory (items : List ConversationItem) :
    realTurns (Chat.repairHistory items).1 = realTurns items := by
  have hitems : (Chat.repairHistory items).1 =
      (repairDanglingToolCalls (stripDisplacedToolResults (dedupDuplicateToolResults items).1).1
        (.harnessHalted "history_repair".toList)).1 := rfl
  rw [hitems, repairDangling_eq_mapRuns, strip_eq_mapRuns, dedup_eq_mapRuns, realTurns_mapRuns,
    realTurns_mapRuns, realTurns_mapRuns]

theorem snapshotTurnSlice_promptIndex (s : ChatState) :
    s.snapshotTurnSlice.promptIndex = s.promptIndex := by
  unfold ChatState.snapshotTurnSlice
  split
  · rfl
  · rfl

theorem snapshotTurnSlice_conversation (s : ChatState) :
    s.snapshotTurnSlice.conversation = s.conversation := by
  unfold ChatState.snapshotTurnSlice
  split
  · rfl
  · rfl

theorem ensure_conversation (s : ChatState) (reason : DanglingToolCallReason) :
    (s.ensureConversationIntegrity reason).conversation =
      results.mapRuns (fillRun reason) (results.mapRuns dedupRun s.conversation) := by
  rw [← dedup_eq_mapRuns, ← repairDangling_eq_mapRuns, ← snapshotTurnSlice_conversation s]
  rfl

/-- No more real turns are missing than before: the prompt index is the same, and the real turns
are still there. -/
def Advances (s s' : ChatState) : Prop :=
  s'.promptIndex = s.promptIndex ∧ realTurns s.conversation ≤ realTurns s'.conversation

theorem Advances.trans {s s' s'' : ChatState} (h : Advances s s') (h' : Advances s' s'') :
    Advances s s'' := ⟨h'.1.trans h.1, h.2.trans h'.2⟩

theorem advances_ensure (s : ChatState) (reason : DanglingToolCallReason) :
    Advances s (s.ensureConversationIntegrity reason) := by
  refine ⟨snapshotTurnSlice_promptIndex s, ?_⟩
  rw [ensure_conversation, realTurns_mapRuns, realTurns_mapRuns]

/-- A reminder to go on starts no turn. -/
theorem startsTurn_of_continueReminder {item : ConversationItem}
    (h : ChatState.isContinueReminder item = true) : startsTurn item = false := by
  cases item with
  | user u =>
    have hreason : u.syntheticReason = some .lengthContinue := of_decide_eq_true h
    rw [startsTurn, hreason]
    rfl
  | _ => cases h

theorem advances_pop (s : ChatState) : Advances s s.popStrandedContinueReminder := by
  unfold ChatState.popStrandedContinueReminder
  split_ifs
  · refine ⟨snapshotTurnSlice_promptIndex s, ?_⟩
    show _ ≤ realTurns (s.snapshotTurnSlice.conversation.rdropWhile ChatState.isContinueReminder)
    rw [snapshotTurnSlice_conversation]
    have hsplit : s.conversation.rdropWhile ChatState.isContinueReminder ++
        s.conversation.rtakeWhile ChatState.isContinueReminder = s.conversation :=
      List.rdropWhile_append_rtakeWhile
    have hnone : realTurns (s.conversation.rtakeWhile ChatState.isContinueReminder) = 0 := by
      refine List.countP_eq_zero.mpr fun item hitem => ?_
      rw [startsTurn_of_continueReminder (List.mem_rtakeWhile_imp hitem)]
      exact Bool.false_ne_true
    have hcount := congrArg realTurns hsplit
    rw [realTurns, List.countP_append] at hcount
    unfold realTurns at *
    omega
  · exact ⟨rfl, Nat.le_refl _⟩

theorem advances_push (s : ChatState) (item : ConversationItem) :
    Advances s (s.pushMessage item) := by
  refine ⟨rfl, ?_⟩
  unfold realTurns ChatState.pushMessage
  rw [List.countP_append]
  exact Nat.le_add_right _ _

theorem startsTurn_clearItem (item : ConversationItem) :
    startsTurn (clearItem item) = startsTurn item := by
  cases item <;> rfl

theorem realTurns_clearOld (threshold : ℕ) (items : List ConversationItem) :
    realTurns (clearOld threshold items).1 = realTurns items := by
  unfold realTurns
  induction items with
  | nil => rfl
  | cons item rest ih =>
    cases item with
    | toolResult r =>
      have hitem : startsTurn (if (clearOld threshold rest).2.1 < threshold then
          ConversationItem.toolResult r else clearItem (.toolResult r)) = false := by
        split_ifs
        · rfl
        · rfl
      rw [clearOld_toolResult, List.countP_cons, List.countP_cons, hitem, ih]
      rfl
    | _ =>
      rw [List.countP_cons, ← ih]
      exact List.countP_cons

theorem advances_prune (config : PruningConfig) (s : ChatState) :
    Advances s (s.pruneRetainedConversation config) := by
  refine ⟨?_, ?_⟩
  · unfold ChatState.pruneRetainedConversation
    split_ifs
    · rfl
    · rfl
  · rw [prune_conversation]
    split_ifs
    · rw [realTurns_clearOld]
    · exact Nat.le_refl _

/-! ## Runs -/

/-- The state in which a pushed item is pruned behind. -/
def beforePrune (s : ChatState) (item : ConversationItem) (reason : DanglingToolCallReason) :
    ChatState :=
  let s := if endsContinuation item then s.popStrandedContinueReminder else s
  (s.ensureConversationIntegrity reason).pushMessage item

theorem pushUserMessage_eq (config : PruningConfig) (s : ChatState) (item : ConversationItem)
    (reason : DanglingToolCallReason) :
    s.pushUserMessage config item reason =
      (beforePrune s item reason).pruneRetainedConversation config := rfl

/-- The states in which the prunes of a push run. -/
def pushPrunes (config : PruningConfig) (reason : DanglingToolCallReason) :
    ChatState → List ConversationItem → List ChatState
  | _, [] => []
  | s, item :: items =>
    beforePrune s item reason ::
      pushPrunes config reason (s.pushUserMessage config item reason) items

def commandPrunes (config : PruningConfig) (s : ChatState) : Command → List ChatState
  | .pushUserMessages items reason => pushPrunes config reason s items
  | _ => []

abbrev nextState (config : PruningConfig) (s : ChatState) (cmd : Command) : ChatState :=
  (handleCommand config s cmd).1

/-- The states in which the prunes of a run run. -/
def runPrunes (config : PruningConfig) : ChatState → List Command → List ChatState
  | _, [] => []
  | s, cmd :: cmds => commandPrunes config s cmd ++ runPrunes config (nextState config s cmd) cmds

/-- An increment is for a turn that the last one did not leave out, and what sets the conversation
or the index leaves the index at most one ahead of the real turns. -/
def Command.InStep (s : ChatState) : Command → Prop
  | .incrementPromptIndex => s.promptIndex ≤ realTurns s.conversation
  | .replaceConversation items _ => s.promptIndex ≤ realTurns items + 1
  | .restoreSnapshot conversation promptIndex => promptIndex ≤ realTurns conversation + 1
  | .truncateToPromptIndex target => target < s.promptIndex →
      target ≤ realTurns (s.truncateToPromptIndex target).conversation + 1
  | _ => True

def InStep (s : ChatState) : Prop := s.promptIndex ≤ realTurns s.conversation + 1

theorem InStep.advance {s s' : ChatState} (h : InStep s) (hadvance : Advances s s') :
    InStep s' := by
  obtain ⟨hindex, hturns⟩ := hadvance
  unfold InStep at *
  omega

theorem advances_beforePrune (s : ChatState) (item : ConversationItem)
    (reason : DanglingToolCallReason) : Advances s (beforePrune s item reason) := by
  unfold beforePrune
  dsimp only
  split_ifs
  · exact ((advances_pop s).trans (advances_ensure _ _)).trans (advances_push _ _)
  · exact (advances_ensure _ _).trans (advances_push _ _)

theorem InStep.pushUserMessages {s : ChatState} (h : InStep s) (config : PruningConfig)
    (items : List ConversationItem) (reason : DanglingToolCallReason) :
    InStep (items.foldl (fun s item => s.pushUserMessage config item reason) s) ∧
      ∀ t ∈ pushPrunes config reason s items, InStep t := by
  induction items generalizing s with
  | nil => exact ⟨h, nofun⟩
  | cons item items ih =>
    have hbefore := h.advance (advances_beforePrune s item reason)
    have hpushed : InStep (s.pushUserMessage config item reason) :=
      hbefore.advance (advances_prune config _)
    obtain ⟨hrest, hprunes⟩ := ih hpushed
    exact ⟨hrest, List.forall_mem_cons.mpr ⟨hbefore, hprunes⟩⟩

theorem startsTurn_stripItem (urls : List Str) (item : ConversationItem) :
    startsTurn (stripItem urls item) = startsTurn item := by
  cases item <;> rfl

theorem realTurns_strip (items : List ConversationItem) (urls : List Str) :
    realTurns (stripImagesByUrl items urls) = realTurns items := by
  unfold realTurns stripImagesByUrl
  rw [List.countP_map]
  exact List.countP_congr fun item _ => by rw [Function.comp_apply, startsTurn_stripItem]

theorem realTurns_system (sys : SystemItem) (items : List ConversationItem) :
    realTurns (.system sys :: items) = realTurns items :=
  List.countP_cons_of_neg Bool.false_ne_true

theorem realTurns_systemHead (items : List ConversationItem) (prompt : Str) :
    realTurns (ChatState.replaceOrInsertSystemHead items prompt).1 = realTurns items := by
  unfold ChatState.replaceOrInsertSystemHead
  split
  · split_ifs
    · rfl
    · rw [realTurns_system, realTurns_system]
  · exact realTurns_system _ _

theorem realTurns_inject (items : List ConversationItem) (reminder : Str) :
    realTurns (injectMemoryReminder items reminder) = realTurns items := by
  unfold injectMemoryReminder
  dsimp only
  split_ifs
  · rfl
  · split
    · rw [realTurns_system, realTurns_system]
    · exact realTurns_system _ _

/-- What is replaced by the switch of a working directory starts no turn. -/
theorem realTurns_converge (items : List ConversationItem) (generation : ℕ)
    (authoritative : ConversationItem) :
    realTurns items ≤
      realTurns (convergeWorkingDirectorySwitch items generation authoritative) := by
  unfold convergeWorkingDirectorySwitch
  split
  · next i hfind =>
    obtain ⟨hi, hswitch, -⟩ := List.findIdx?_eq_some_iff_getElem.mp hfind
    have hnot : startsTurn items[i] = false := by
      have hgeneration := of_decide_eq_true hswitch
      generalize items[i] = item at hgeneration ⊢
      cases item with
      | user u =>
        rw [workingDirectorySwitchGeneration] at hgeneration
        split_ifs at hgeneration with hreason
        rw [startsTurn, hreason]
        rfl
      | _ => rfl
    unfold realTurns
    rw [List.countP_set hi, hnot]
    exact Nat.le_add_right _ _
  · unfold realTurns
    rw [List.countP_append]
    exact Nat.le_add_right _ _

theorem replaceConversation_promptIndex (s : ChatState) (items : List ConversationItem)
    (isCompaction : Bool) :
    (s.replaceConversation items isCompaction).promptIndex = s.promptIndex := by
  rw [← snapshotTurnSlice_promptIndex s]
  cases isCompaction <;> rfl

theorem replaceConversation_conversation (s : ChatState) (items : List ConversationItem)
    (isCompaction : Bool) :
    (s.replaceConversation items isCompaction).conversation = items := by
  cases isCompaction <;> rfl

theorem advances_repairHistory (s : ChatState) (dryRun : Bool) :
    Advances s (s.repairHistory dryRun).1 := by
  have hturns := realTurns_repairHistory s.conversation
  unfold ChatState.repairHistory
  dsimp only
  split_ifs
  · exact ⟨rfl, Nat.le_refl _⟩
  · refine ⟨replaceConversation_promptIndex _ _ _, ?_⟩
    rw [replaceConversation_conversation, hturns]
  · exact ⟨rfl, hturns.ge⟩

theorem advances_systemHead (s : ChatState) (prompt : Str) :
    Advances s (s.replaceSystemHead prompt) := by
  unfold ChatState.replaceSystemHead
  dsimp only
  split_ifs
  · exact ⟨rfl, Nat.le_refl _⟩
  · refine ⟨replaceConversation_promptIndex _ _ _, ?_⟩
    rw [replaceConversation_conversation, realTurns_systemHead]

theorem advances_buildRequest (s : ChatState) (memoryReminder : Option Str) (persist : Bool) :
    Advances s (s.buildConversationRequest memoryReminder persist) := by
  have hensure := advances_ensure s .userCancelled
  unfold ChatState.buildConversationRequest
  cases memoryReminder with
  | none => exact hensure
  | some reminder =>
    dsimp only
    split_ifs
    · refine hensure.trans ⟨snapshotTurnSlice_promptIndex _, ?_⟩
      show _ ≤ realTurns (injectMemoryReminder
        (s.ensureConversationIntegrity .userCancelled).snapshotTurnSlice.conversation reminder)
      rw [realTurns_inject, snapshotTurnSlice_conversation]
    · exact hensure

/-- A command that is in step leaves the index at most one ahead, also where it prunes. -/
theorem InStep.command {s : ChatState} (h : InStep s) (config : PruningConfig) {cmd : Command}
    (hcmd : cmd.InStep s) :
    InStep (nextState config s cmd) ∧ ∀ t ∈ commandPrunes config s cmd, InStep t := by
  cases cmd with
  | pushUserMessages items reason => exact h.pushUserMessages config items reason
  | appendWorkingDirectorySwitch generation authoritative =>
    refine ⟨?_, nofun⟩
    cases authoritative with
    | none => exact h.advance (advances_pop s)
    | some item => exact h.advance ((advances_pop s).trans ⟨rfl, realTurns_converge _ _ _⟩)
  | push item => exact ⟨h.advance (advances_push s item), nofun⟩
  | incrementPromptIndex => exact ⟨Nat.succ_le_succ hcmd, nofun⟩
  | replaceConversation items isCompaction =>
    refine ⟨?_, nofun⟩
    show (s.replaceConversation items isCompaction).promptIndex ≤
      realTurns (s.replaceConversation items isCompaction).conversation + 1
    rw [replaceConversation_promptIndex, replaceConversation_conversation]
    exact hcmd
  | repairHistory dryRun blocked =>
    refine ⟨?_, nofun⟩
    cases blocked with
    | true => exact h
    | false => exact h.advance (advances_repairHistory s dryRun)
  | stripConversationImages urls =>
    exact ⟨h.advance ⟨rfl, (realTurns_strip s.conversation urls).ge⟩, nofun⟩
  | replaceSystemHead prompt => exact ⟨h.advance (advances_systemHead s prompt), nofun⟩
  | restoreSnapshot conversation promptIndex => exact ⟨hcmd, nofun⟩
  | beginTurnCapture => exact ⟨h, nofun⟩
  | repairDanglingAfterHarnessHalt haltClass =>
    exact ⟨h.advance ((advances_pop s).trans (advances_ensure _ _)), nofun⟩
  | popStrandedContinueReminder => exact ⟨h.advance (advances_pop s), nofun⟩
  | buildConversationRequest memoryReminder persist =>
    exact ⟨h.advance (advances_buildRequest s memoryReminder persist), nofun⟩
  | truncateToPromptIndex target =>
    refine ⟨?_, nofun⟩
    show (s.truncateToPromptIndex target).promptIndex ≤
      realTurns (s.truncateToPromptIndex target).conversation + 1
    by_cases hlt : target < s.promptIndex
    · have hindex : (s.truncateToPromptIndex target).promptIndex = target := by
        unfold ChatState.truncateToPromptIndex
        rw [if_neg (by omega)]
      rw [hindex]
      exact hcmd hlt
    · have hsame : s.truncateToPromptIndex target = s := by
        unfold ChatState.truncateToPromptIndex
        rw [if_pos (by omega)]
      rw [hsame]
      exact h
  | takeTurnMessages =>
    refine ⟨h.advance ?_, nofun⟩
    show Advances s s.takeTurnMessages.1
    unfold ChatState.takeTurnMessages
    split
    · exact ⟨rfl, Nat.le_refl _⟩
    · exact ⟨rfl, Nat.le_refl _⟩
  | query => exact ⟨h, nofun⟩

theorem InStep.run {s : ChatState} (h : InStep s) (config : PruningConfig) {cmds : List Command}
    (hcmds : Meets (nextState config) (fun s cmd => cmd.InStep s) s cmds) :
    ∀ t ∈ runPrunes config s cmds, InStep t := by
  induction cmds generalizing s with
  | nil => exact nofun
  | cons cmd cmds ih =>
    obtain ⟨hcmd, hrest⟩ := hcmds
    obtain ⟨hnext, hprunes⟩ := h.command config hcmd
    exact List.forall_mem_append.mpr ⟨hprunes, ih hnext hrest⟩

/-- The prunes of a run clear no young result exactly if none of them misjudges one, and none does
in a run whose commands keep the prompt index in step with the real turns. -/
theorem prunes_keep_young (config : PruningConfig) (s₀ : ChatState) (cmds : List Command) :
    ((∀ s ∈ runPrunes config s₀ cmds, PruneKeepsYoung config s) ↔
      ∀ s ∈ runPrunes config s₀ cmds, ¬ Misjudges config s) ∧
    (s₀.promptIndex ≤ realTurns s₀.conversation + 1 →
      Meets (nextState config) (fun s cmd => cmd.InStep s) s₀ cmds →
      ∀ s ∈ runPrunes config s₀ cmds, ¬ Misjudges config s) := by
  refine ⟨forall₂_congr fun s _ => pruneKeepsYoung_iff config s, fun hstart hcmds s hs => ?_⟩
  exact not_misjudges (InStep.run hstart config hcmds s hs)

def askedItem : ConversationItem := .user { content := [.text "next".toList] }

def reminderItem : ConversationItem :=
  .user { content := [.text "reminder".toList], syntheticReason := some .systemReminder }

/-- A summary and the last call with its result. -/
def compactedItems : List ConversationItem :=
  [.user { content := [.text "summary".toList], syntheticReason := some .compactionMeta },
    .assistant ⟨[], [⟨"call".toList, "read".toList, "args".toList⟩]⟩,
    .ofToolResult "call".toList "text".toList]

def askTurn : List Command := [.pushUserMessages [askedItem] .userCancelled, .incrementPromptIndex]

/-- Three turns, a compaction and two reminders. -/
def compactedSession : List Command :=
  askTurn ++ (askTurn ++ (askTurn ++ [.replaceConversation compactedItems true,
    .pushUserMessages [reminderItem, reminderItem] .userCancelled]))

theorem pushUserMessage_promptIndex (s : ChatState) (item : ConversationItem) :
    (s.pushUserMessage config item .userCancelled).promptIndex = s.promptIndex :=
  ((advances_beforePrune s item .userCancelled).trans (advances_prune config _)).1

theorem run_askTurn (s : ChatState) :
    (run (nextState config) s askTurn).promptIndex = s.promptIndex + 1 :=
  congrArg (· + 1) (pushUserMessage_promptIndex s askedItem)

theorem runPrunes_append (s : ChatState) (cmds more : List Command) :
    runPrunes config s (cmds ++ more) =
      runPrunes config s cmds ++ runPrunes config (run (nextState config) s cmds) more := by
  induction cmds generalizing s with
  | nil => rfl
  | cons cmd cmds ih =>
    rw [List.cons_append, runPrunes, ih, runPrunes, List.append_assoc, run_cons]

theorem beforePrune_reminder (s : ChatState) :
    (beforePrune s reminderItem .userCancelled).conversation =
      results.mapRuns (fillRun .userCancelled) (results.mapRuns dedupRun s.conversation) ++
        [reminderItem] := by
  rw [← ensure_conversation]
  rfl

/-- With the index of three turns, the second reminder behind a compaction makes its result old. -/
theorem misjudges_compacted {s : ChatState} (hindex : s.promptIndex = 3)
    (hitems : s.conversation = compactedItems) :
    Misjudges { hardClearAgeTurns := 1 } (beforePrune
      (s.pushUserMessage { hardClearAgeTurns := 1 } reminderItem .userCancelled) reminderItem
      .userCancelled) := by
  have hfirst : (beforePrune s reminderItem .userCancelled).conversation =
      compactedItems ++ [reminderItem] := by
    rw [beforePrune_reminder, hitems]
    decide +kernel
  have hbefore : (beforePrune s reminderItem .userCancelled).promptIndex = 3 :=
    (advances_beforePrune s reminderItem .userCancelled).1.trans hindex
  have hpruned : (s.pushUserMessage { hardClearAgeTurns := 1 } reminderItem
      .userCancelled).conversation = compactedItems ++ [reminderItem] := by
    rw [pushUserMessage_eq, prune_conversation, hbefore, hfirst]
    decide +kernel
  have hsecond := beforePrune_reminder
    (s.pushUserMessage { hardClearAgeTurns := 1 } reminderItem .userCancelled)
  have hlast : (beforePrune (s.pushUserMessage { hardClearAgeTurns := 1 } reminderItem
      .userCancelled) reminderItem .userCancelled).promptIndex = 3 := by
    rw [(advances_beforePrune _ _ _).1, pushUserMessage_promptIndex, hindex]
  have hrepaired : results.mapRuns (fillRun .userCancelled) (results.mapRuns dedupRun
      (compactedItems ++ [reminderItem])) = compactedItems ++ [reminderItem] := by
    decide +kernel
  rw [hpruned, hrepaired] at hsecond
  refine ⟨rfl, 2, ⟨"call".toList, "text".toList, []⟩, ?_, by decide +kernel, ?_, ?_, ?_⟩
  · rw [hsecond]
    rfl
  · rw [hsecond]
    decide +kernel
  · rw [hsecond]
    decide +kernel
  · rw [hsecond, hlast]
    decide +kernel

/-- The turns before a compaction still count in the prompt index, so two reminders make the
result behind the summary old. -/
theorem young_result_cleared :
    ¬ ∀ (config : PruningConfig) (cmds : List Command),
      ∀ s ∈ runPrunes config ⟨[], 0, none, false⟩ cmds, PruneKeepsYoung config s := by
  intro h
  have hprunes := h { hardClearAgeTurns := 1 } compactedSession
  unfold compactedSession at hprunes
  rw [runPrunes_append, runPrunes_append, runPrunes_append] at hprunes
  have hlast := hprunes _ (List.mem_append_right _ (List.mem_append_right _
    (List.mem_append_right _ (List.mem_cons_of_mem _ List.mem_cons_self))))
  refine (pruneKeepsYoung_iff _ _).mp hlast (misjudges_compacted ?_ ?_)
  · refine (replaceConversation_promptIndex _ _ _).trans ?_
    rw [run_askTurn, run_askTurn, run_askTurn]
  · exact replaceConversation_conversation _ _ _

end GrokBuild.Chat
