import GrokBuild.Chat.Actor
import GrokBuild.Chat.Pairing
import GrokBuild.Lib.StepRun
import Mathlib.Data.List.Forall2

/-!
# What a turn capture holds

Runs of the actor between the begin of a turn capture and its take, with a ledger of the
items that were pushed meanwhile.
-/

namespace GrokBuild.Chat

open Text StepRun

/-- An item after edits in place: tool results cleared, images stripped. -/
inductive InPlace (x : ConversationItem) : ConversationItem → Prop
  | refl : InPlace x x
  | cleared {r : ToolResultItem} (h : InPlace x (.toolResult r)) :
      InPlace x (.toolResult { r with content := hardClearPlaceholder })
  | stripped {y : ConversationItem} (h : InPlace x y) (urls : List Str) :
      InPlace x (stripItem urls y)

theorem InPlace.trans {x y z : ConversationItem} (h : InPlace x y) (h' : InPlace y z) :
    InPlace x z := by
  induction h' with
  | refl => exact h
  | cleared _ ih => exact ih.cleared
  | stripped _ urls ih => exact ih.stripped urls

abbrev InPlaceAll : List ConversationItem → List ConversationItem → Prop := List.Forall₂ InPlace

theorem InPlaceAll.refl (l : List ConversationItem) : InPlaceAll l l :=
  List.forall₂_same.mpr fun _ _ => .refl

theorem InPlaceAll.trans {l l' l'' : List ConversationItem} (h : InPlaceAll l l')
    (h' : InPlaceAll l' l'') : InPlaceAll l l'' := by
  induction h generalizing l'' with
  | nil => exact h'
  | cons hxy _ ih =>
    cases h' with
    | cons hyz hrest => exact .cons (hxy.trans hyz) (ih hrest)

theorem clearOld_inPlace (threshold : ℕ) (items : List ConversationItem) :
    InPlaceAll items (clearOld threshold items).1 := by
  induction items with
  | nil => exact .nil
  | cons x items ih =>
    cases x with
    | toolResult r =>
      simp only [clearOld]
      split_ifs
      · exact .cons .refl ih
      · exact .cons (.cleared .refl) ih
    | _ => exact .cons .refl ih

theorem stripImagesByUrl_inPlace (items : List ConversationItem) (urls : List Str) :
    InPlaceAll items (stripImagesByUrl items urls) := by
  rw [stripImagesByUrl, InPlaceAll, List.forall₂_map_right_iff]
  exact List.forall₂_same.mpr fun _ _ => .stripped .refl urls

/-! ## The ledger -/

structure Traced where
  state : ChatState
  pushed : List ConversationItem

/-- The items that a command pushes. -/
def pushes (s : ChatState) : Command → List ConversationItem
  | .pushUserMessages items _ => items
  | .push item => [item]
  | .appendWorkingDirectorySwitch generation (some item) =>
    if s.popStrandedContinueReminder.conversation.any
      fun x => workingDirectorySwitchGeneration x = some generation then [] else [item]
  | _ => []

def Traced.step (config : PruningConfig) (s : Traced) (cmd : Command) : Traced :=
  ⟨(handleCommand config s.state cmd).1, s.pushed ++ pushes s.state cmd⟩

/-- Commands that neither begin nor end a capture. -/
def Command.InTurn : Command → Prop
  | .beginTurnCapture | .truncateToPromptIndex _ | .takeTurnMessages => False
  | _ => True

/-- A history repair finds nothing to change, and a working-directory switch that finds its
generation in the tail of the turn finds the authoritative item. -/
def Command.Sound (s : ChatState) : Command → Prop
  | .repairHistory dryRun blocked => blocked = false → dryRun = false →
      (Chat.repairHistory s.conversation).2.changed = false
  | .appendWorkingDirectorySwitch generation (some item) =>
      ∀ cap i, s.popStrandedContinueReminder.turnCapture = some cap →
        s.popStrandedContinueReminder.conversation.findIdx?
          (fun x => workingDirectorySwitchGeneration x = some generation) = some i →
        cap.turnStartOffset ≤ i → s.popStrandedContinueReminder.conversation[i]? = some item
  | _ => True

/-! ## One command -/

/-- The capture holds what was pushed, in order, and its offset is within the conversation. -/
structure Captures (s : ChatState) (pushed : List ConversationItem) (cap : TurnCaptureState) :
    Prop where
  active : s.turnCapture = some cap
  offset_le : cap.turnStartOffset ≤ s.conversation.length
  holds : InPlaceAll pushed
    (cap.preReplacementMessages ++ s.conversation.drop cap.turnStartOffset)
  no_failure : s.assertFailed = false

def Capturing (s : ChatState) (pushed : List ConversationItem) : Prop :=
  ∃ cap, Captures s pushed cap

variable {s : ChatState} {pushed : List ConversationItem} {cap : TurnCaptureState}

theorem Captures.turnTail_eq (h : Captures s pushed cap) :
    turnTail s.conversation cap.turnStartOffset = s.conversation.drop cap.turnStartOffset := by
  rw [turnTail, if_pos h.offset_le]

theorem Captures.assertTail_eq (h : Captures s pushed cap) :
    s.assertTail cap.turnStartOffset = s := by
  have hle := h.offset_le
  have hnot : decide (s.conversation.length < cap.turnStartOffset) = false := by
    rw [decide_eq_false_iff_not]
    omega
  rw [ChatState.assertTail, hnot, Bool.or_false]

theorem Captures.snapshotTurnSlice_eq (h : Captures s pushed cap) :
    s.snapshotTurnSlice = { s with turnCapture := some { cap with
      preReplacementMessages :=
        cap.preReplacementMessages ++ s.conversation.drop cap.turnStartOffset } } := by
  simp only [ChatState.snapshotTurnSlice, h.active, h.assertTail_eq, h.turnTail_eq]

/-- Saving the tail and setting the offset anew makes room for any conversation. -/
theorem Capturing.rebase (h : Capturing s pushed) (items : List ConversationItem) :
    Capturing { s.snapshotTurnSlice with conversation := items }.rebaseTurnCaptureOffset
      pushed := by
  obtain ⟨cap, hc⟩ := h
  rw [hc.snapshotTurnSlice_eq]
  refine ⟨_, rfl, Nat.le_refl _, ?_, hc.no_failure⟩
  simpa [ChatState.rebaseTurnCaptureOffset] using hc.holds

theorem Capturing.rebase_compaction (h : Capturing s pushed) (items : List ConversationItem) :
    Capturing { s.snapshotTurnSlice.markCompaction with
      conversation := items }.rebaseTurnCaptureOffset pushed := by
  obtain ⟨cap, hc⟩ := h
  rw [hc.snapshotTurnSlice_eq]
  refine ⟨_, rfl, Nat.le_refl _, ?_, hc.no_failure⟩
  simpa [ChatState.rebaseTurnCaptureOffset] using hc.holds

theorem Capturing.inPlace (h : Capturing s pushed) {items : List ConversationItem}
    (hitems : InPlaceAll s.conversation items) :
    Capturing { s with conversation := items } pushed := by
  obtain ⟨cap, hc⟩ := h
  refine ⟨cap, hc.active, ?_, ?_, hc.no_failure⟩
  · exact hitems.length_eq ▸ hc.offset_le
  · apply hc.holds.trans
    exact List.rel_append (InPlaceAll.refl _) (List.forall₂_drop cap.turnStartOffset hitems)

theorem Capturing.pushMessage (h : Capturing s pushed) (item : ConversationItem) :
    Capturing (s.pushMessage item) (pushed ++ [item]) := by
  obtain ⟨cap, hc⟩ := h
  refine ⟨cap, hc.active, ?_, ?_, hc.no_failure⟩
  · have hle := hc.offset_le
    simp only [ChatState.pushMessage, List.length_append, List.length_singleton]
    omega
  · have hdrop : (s.conversation ++ [item]).drop cap.turnStartOffset =
        s.conversation.drop cap.turnStartOffset ++ [item] :=
      List.drop_append_of_le_length hc.offset_le
    simp only [ChatState.pushMessage, hdrop]
    rw [← List.append_assoc]
    exact List.rel_append hc.holds (InPlaceAll.refl _)

theorem Capturing.ensureConversationIntegrity (h : Capturing s pushed)
    (reason : DanglingToolCallReason) : Capturing (s.ensureConversationIntegrity reason) pushed :=
  h.rebase _

theorem Capturing.popStrandedContinueReminder (h : Capturing s pushed) :
    Capturing s.popStrandedContinueReminder pushed := by
  unfold ChatState.popStrandedContinueReminder
  split_ifs
  · exact h.rebase _
  · exact h

theorem Capturing.pruneRetainedConversation (h : Capturing s pushed) (config : PruningConfig) :
    Capturing (s.pruneRetainedConversation config) pushed := by
  unfold ChatState.pruneRetainedConversation
  split_ifs
  · exact h
  · exact h.inPlace (clearOld_inPlace _ _)

theorem Capturing.pushUserMessage (h : Capturing s pushed) (config : PruningConfig)
    (item : ConversationItem) (reason : DanglingToolCallReason) :
    Capturing (s.pushUserMessage config item reason) (pushed ++ [item]) := by
  have hpop : Capturing
      (if endsContinuation item then s.popStrandedContinueReminder else s) pushed := by
    split_ifs
    · exact h.popStrandedContinueReminder
    · exact h
  exact ((hpop.ensureConversationIntegrity reason).pushMessage item).pruneRetainedConversation
    config

theorem Capturing.pushUserMessages (h : Capturing s pushed) (config : PruningConfig)
    (items : List ConversationItem) (reason : DanglingToolCallReason) :
    Capturing (items.foldl (fun s item => s.pushUserMessage config item reason) s)
      (pushed ++ items) := by
  induction items generalizing s pushed with
  | nil => simpa using h
  | cons item items ih =>
    have := ih (h.pushUserMessage config item reason)
    rwa [List.append_assoc] at this

theorem Capturing.replaceConversation (h : Capturing s pushed) (items : List ConversationItem)
    (isCompaction : Bool) : Capturing (s.replaceConversation items isCompaction) pushed := by
  cases isCompaction with
  | false => exact h.rebase items
  | true => exact h.rebase_compaction items

theorem Capturing.repairHistory (h : Capturing s pushed) {dryRun : Bool}
    (hsound : dryRun = false → (Chat.repairHistory s.conversation).2.changed = false) :
    Capturing (s.repairHistory dryRun).1 pushed := by
  cases dryRun with
  | true => exact h
  | false =>
    have hunchanged := hsound rfl
    have hself := repairHistory_eq_self hunchanged
    have hstate : (s.repairHistory false).1 = s := by
      simp only [ChatState.repairHistory, Bool.false_eq_true, if_false, hunchanged, hself]
    rw [hstate]
    exact h

theorem Capturing.replaceSystemHead (h : Capturing s pushed) (prompt : Str) :
    Capturing (s.replaceSystemHead prompt) pushed := by
  simp only [ChatState.replaceSystemHead]
  split_ifs
  · exact h
  · exact h.replaceConversation _ false

theorem Capturing.restoreSnapshot (h : Capturing s pushed) (items : List ConversationItem)
    (promptIndex : ℕ) : Capturing (s.restoreSnapshot items promptIndex) pushed := by
  obtain ⟨cap, hc⟩ := h.rebase items
  exact ⟨cap, hc.active, hc.offset_le, hc.holds, hc.no_failure⟩

theorem Capturing.buildConversationRequest (h : Capturing s pushed) (memoryReminder : Option Str)
    (persist : Bool) : Capturing (s.buildConversationRequest memoryReminder persist) pushed := by
  have hrepaired := h.ensureConversationIntegrity .userCancelled
  simp only [ChatState.buildConversationRequest]
  cases memoryReminder with
  | none => exact hrepaired
  | some reminder =>
    dsimp only
    split_ifs
    · exact hrepaired.rebase _
    · exact hrepaired

/-- The authoritative switch of a generation is pushed, or replaces an item before the turn,
or is there already. -/
theorem Capturing.converge (h : Capturing s pushed) (generation : ℕ) (item : ConversationItem)
    (hsound : ∀ cap i, s.turnCapture = some cap →
      s.conversation.findIdx? (fun x => workingDirectorySwitchGeneration x = some generation) =
        some i → cap.turnStartOffset ≤ i → s.conversation[i]? = some item) :
    Capturing { s with
        conversation := convergeWorkingDirectorySwitch s.conversation generation item }
      (pushed ++ if s.conversation.any
        fun x => workingDirectorySwitchGeneration x = some generation then [] else [item]) := by
  unfold convergeWorkingDirectorySwitch
  cases hidx : s.conversation.findIdx?
      fun x => workingDirectorySwitchGeneration x = some generation with
  | none =>
    have hany : s.conversation.any
        (fun x => workingDirectorySwitchGeneration x = some generation) = false := by
      rw [List.any_eq_false]
      intro x hx
      simpa using List.findIdx?_eq_none_iff.mp hidx x hx
    rw [hany]
    exact h.pushMessage item
  | some i =>
    have hany : s.conversation.any
        (fun x => workingDirectorySwitchGeneration x = some generation) = true := by
      rw [List.any_eq_true]
      obtain ⟨hlt, hp, _⟩ := List.findIdx?_eq_some_iff_getElem.mp hidx
      exact ⟨_, List.getElem_mem hlt, hp⟩
    rw [hany, if_pos rfl, List.append_nil]
    obtain ⟨cap, hc⟩ := h
    refine ⟨cap, hc.active, ?_, ?_, hc.no_failure⟩
    · simpa using hc.offset_le
    · by_cases hlt : i < cap.turnStartOffset
      · simpa [List.drop_set_of_lt hlt] using hc.holds
      · have hget := hsound cap i hc.active hidx (by omega)
        obtain ⟨hi, heq⟩ := List.getElem?_eq_some_iff.mp hget
        have hset : s.conversation.set i item = s.conversation := by
          rw [← heq, List.set_getElem_self]
        change InPlaceAll pushed (_ ++ (s.conversation.set i item).drop cap.turnStartOffset)
        rw [hset]
        exact hc.holds

theorem Capturing.append_nil {new : List ConversationItem} (h : Capturing s pushed)
    (hnew : new = []) : Capturing s (pushed ++ new) := by
  rw [hnew, List.append_nil]
  exact h

/-- Every command of a turn keeps the capture. -/
theorem Capturing.handleCommand (h : Capturing s pushed) (config : PruningConfig) {cmd : Command}
    (hturn : cmd.InTurn) (hsound : cmd.Sound s) :
    Capturing (handleCommand config s cmd).1 (pushed ++ pushes s cmd) := by
  have hpop := h.popStrandedContinueReminder
  cases cmd with
  | pushUserMessages items reason => exact h.pushUserMessages config items reason
  | push item => exact h.pushMessage item
  | appendWorkingDirectorySwitch generation authoritative =>
    cases authoritative with
    | none => exact hpop.append_nil rfl
    | some item => exact hpop.converge generation item hsound
  | incrementPromptIndex =>
    apply Capturing.append_nil _ rfl
    obtain ⟨cap, hc⟩ := h
    exact ⟨cap, hc.active, hc.offset_le, hc.holds, hc.no_failure⟩
  | replaceConversation items isCompaction =>
    exact (h.replaceConversation items isCompaction).append_nil rfl
  | repairHistory dryRun blocked =>
    apply Capturing.append_nil _ rfl
    cases blocked with
    | true => exact h
    | false => exact h.repairHistory fun hdry => hsound rfl hdry
  | stripConversationImages urls =>
    exact (h.inPlace (stripImagesByUrl_inPlace _ urls)).append_nil rfl
  | replaceSystemHead prompt => exact (h.replaceSystemHead prompt).append_nil rfl
  | restoreSnapshot items promptIndex => exact (h.restoreSnapshot items promptIndex).append_nil rfl
  | repairDanglingAfterHarnessHalt haltClass =>
    exact (hpop.ensureConversationIntegrity _).append_nil rfl
  | popStrandedContinueReminder => exact hpop.append_nil rfl
  | buildConversationRequest memoryReminder persist =>
    exact (h.buildConversationRequest memoryReminder persist).append_nil rfl
  | query => exact h.append_nil rfl
  -- the commands that begin or end a capture
  | beginTurnCapture => exact hturn.elim
  | truncateToPromptIndex target => exact hturn.elim
  | takeTurnMessages => exact hturn.elim

/-! ## Runs -/

end GrokBuild.Chat
