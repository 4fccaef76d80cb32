import GrokBuild.ChatRebuild.Reducer
import GrokBuild.Lib.Since
import GrokBuild.Transcript.Runs

/-!
# Rewinds and the rebuilt history

The updates of a session with their rewind markers. The replay filters the branches away that
were rewound, the rebuilt chat history is reduced from all updates and passes over the markers.
-/

namespace GrokBuild.Transcript

open GrokBuild.Text GrokBuild.ChatRebuild GrokBuild.Past

variable {A R : Type} {extract : R → List A}

/-- An update as the log has it: the prompt index of a chunk, and the markers of rewinds. -/
inductive LoggedUpdate (A R : Type) where
  | update (update : SessionUpdate A R) (promptIndex : Option ℕ := none)
  | rewindMarker (targetPromptIndex : ℕ)
deriving DecidableEq

def rewindStepForUpdate : LoggedUpdate A R → RewindStep
  | .rewindMarker target => .rewind target
  | .update (.userMessageChunk chunk) promptIndex =>
    if chunk.isHostTurn then .other else .userChunk promptIndex
  | .update _ _ => .other

def LoggedUpdate.isRewindMarker : LoggedUpdate A R → Bool
  | .rewindMarker _ => true
  | .update _ _ => false

def filterRewindUpdates (updates : List (LoggedUpdate A R)) : List (LoggedUpdate A R) :=
  if !updates.any LoggedUpdate.isRewindMarker then updates
  else filterRewindBy updates rewindStepForUpdate

/-- What the reducer makes of an update; a marker is one of the many it passes over. -/
def LoggedUpdate.processed : LoggedUpdate A R → SessionUpdate A R
  | .update u _ => u
  | .rewindMarker _ => .other

/-- The history that is written for a log. -/
def rebuiltHistory (extract : R → List A) (updates : List (LoggedUpdate A R)) :
    List (ConversationItem A) :=
  rebuildChatHistory extract (updates.map LoggedUpdate.processed)

section Definitions

/-- The prompts that are kept up to a point of the log. -/
def promptCount (before : List (LoggedUpdate A R)) : ℕ :=
  (KeptRuns.ofItems rewindStepForUpdate before).runs.length

/-- A rewind to a prompt that there is. -/
def Cuts (before : List (LoggedUpdate A R)) (update : LoggedUpdate A R) : Prop :=
  ∃ target, update = .rewindMarker target ∧ target < promptCount before

def Compacts (_ : List (LoggedUpdate A R)) (update : LoggedUpdate A R) : Prop :=
  update.processed = .compactionCheckpoint

/-- A chunk of the user that becomes a part of an item. -/
def LoggedUpdate.isSpoken (update : LoggedUpdate A R) : Bool :=
  match update.processed with
  | .userMessageChunk chunk =>
    !chunk.isHostTurn &&
      match chunk.content with
      | .text _ => true
      | .image uri => uri.isSome
      | .other => false
  | _ => false

/-- The updates that a rewind drops. -/
def droppedBy (before : List (LoggedUpdate A R)) (target : ℕ) : List (LoggedUpdate A R) :=
  ((KeptRuns.ofItems rewindStepForUpdate before).runs.drop target).flatMap CountedRun.all

end Definitions

section Written

variable {updates : List (LoggedUpdate A R)} {update : LoggedUpdate A R}

/-- The reducer with the items written, after a log. -/
def written (extract : R → List A) (updates : List (LoggedUpdate A R)) : ChatReducer.Emits A :=
  StepRun.run (writeStep extract) ({}, []) (updates.map LoggedUpdate.processed)

theorem written_concat (updates : List (LoggedUpdate A R)) (update : LoggedUpdate A R) :
    written extract (updates ++ [update]) =
      writeStep extract (written extract updates) update.processed := by
  rw [written, List.map_append, StepRun.run_append]
  rfl

theorem rebuiltHistory_eq (updates : List (LoggedUpdate A R)) :
    rebuiltHistory extract updates =
      (written extract updates).2 ++ (written extract updates).1.flush.2 := rfl

theorem written_needsTruncate (updates : List (LoggedUpdate A R)) :
    (written extract updates).1.needsTruncate = false := by
  induction updates using List.reverseRecOn with
  | nil => rfl
  | append_singleton updates update ih =>
    rw [written_concat, writeStep]
    dsimp only
    split
    · rfl
    · next h => exact eq_false_of_ne_true h

theorem written_checkpoint (h : update.processed = .compactionCheckpoint) :
    written extract (updates ++ [update]) = ({}, []) := by
  rw [written_concat, h]
  rfl

theorem written_other (h : update.processed = .other) :
    written extract (updates ++ [update]) = written extract updates := by
  rw [written_concat, h, writeStep, ChatReducer.process]
  dsimp only
  rw [if_neg (ne_true_of_eq_false (written_needsTruncate updates)), List.append_nil]

end Written

section Filtered

variable {updates p : List (LoggedUpdate A R)} {update : LoggedUpdate A R}

/-- What the rewind filter keeps of a log. -/
def keptUpdates (updates : List (LoggedUpdate A R)) : List (LoggedUpdate A R) :=
  (KeptRuns.ofItems rewindStepForUpdate updates).lines

theorem filterRewindUpdates_eq (updates : List (LoggedUpdate A R)) :
    filterRewindUpdates updates = keptUpdates updates := by
  rw [filterRewindUpdates, keptUpdates, ← KeptRuns.filterRewindBy_eq]
  split
  · next hnone =>
    rw [Bool.not_eq_true', List.any_eq_false] at hnone
    refine (filterRewindBy_eq_self fun update hmem target heq => ?_).symm
    cases update with
    | rewindMarker _ => exact hnone _ hmem rfl
    | update u promptIndex =>
      cases u with
      | userMessageChunk chunk =>
        rw [rewindStepForUpdate] at heq
        split at heq <;> cases heq
      | _ => cases heq
  · rfl

/-- Every update but a marker is kept at first. -/
theorem keptUpdates_concat (u : SessionUpdate A R) (promptIndex : Option ℕ) :
    keptUpdates (p ++ [.update u promptIndex]) = keptUpdates p ++ [.update u promptIndex] := by
  rw [keptUpdates, ← KeptRuns.filterRewindBy_eq, keptUpdates, ← KeptRuns.filterRewindBy_eq,
    filterRewindBy, filterRewindBy, StepRun.run_append, StepRun.run_cons, StepRun.run_nil,
    rewindFilterStep]
  cases u with
  | userMessageChunk chunk =>
    rw [rewindStepForUpdate]
    cases chunk.isHostTurn <;> rfl
  | _ => rfl

theorem keptUpdates_marker (target : ℕ) :
    keptUpdates p = keptUpdates (p ++ [.rewindMarker target]) ++ droppedBy p target := by
  rw [keptUpdates, keptUpdates, KeptRuns.ofItems_concat, KeptRuns.step, rewindStepForUpdate,
    droppedBy]
  dsimp only
  rw [KeptRuns.lines, KeptRuns.lines, List.append_assoc, ← List.flatMap_append,
    List.take_append_drop]

theorem droppedBy_eq_nil {target : ℕ} (h : promptCount p ≤ target) : droppedBy p target = [] := by
  rw [droppedBy, List.drop_of_length_le h, List.flatMap_nil]

/-- As long as no rewind cuts, the reducer is where it would be on the filtered log. -/
theorem written_keptUpdates (h : ¬Since Cuts Compacts p) :
    written extract (keptUpdates p) = written extract p := by
  induction p using List.reverseRecOn with
  | nil => rfl
  | append_singleton p update ih =>
    rw [since_concat, not_or, not_and_not_right] at h
    cases update with
    | rewindMarker target =>
      have hle : promptCount p ≤ target := by
        by_contra hlt
        exact h.1 ⟨target, rfl, by omega⟩
      have hsame := keptUpdates_marker (p := p) target
      rw [droppedBy_eq_nil hle, List.append_nil] at hsame
      rw [← hsame, written_other rfl]
      exact ih fun hsince => by (cases h.2 hsince)
    | update u promptIndex =>
      rw [keptUpdates_concat]
      by_cases hu : u = .compactionCheckpoint
      · have hcompacts : (LoggedUpdate.update u promptIndex).processed = .compactionCheckpoint := hu
        rw [written_checkpoint hcompacts, written_checkpoint hcompacts]
      · rw [written_concat, written_concat, ih fun hsince => hu (h.2 hsince)]

end Filtered

section Counting

/-- The parts of the user that items hold. -/
def partCount : List (ConversationItem A) → ℕ
  | [] => 0
  | .user content _ :: items => content.length + partCount items
  | _ :: items => partCount items

theorem partCount_append (items items' : List (ConversationItem A)) :
    partCount (items ++ items') = partCount items + partCount items' := by
  induction items with
  | nil => exact (Nat.zero_add _).symm
  | cons item items ih =>
    cases item <;> simp only [List.cons_append, partCount, ih]
    omega

/-- The parts of the user, written or not yet. -/
def spokenCount (s : ChatReducer.Emits A) : ℕ := partCount s.2 + s.1.userParts.length

theorem spokenCount_flushUser (r : ChatReducer A) : spokenCount r.flushUser = r.userParts.length := by
  rw [ChatReducer.flushUser]
  split
  · next h => simp [spokenCount, partCount, h]
  · simp [spokenCount, partCount]

theorem spokenCount_flushAgent (r : ChatReducer A) :
    spokenCount r.flushAgent = r.userParts.length := by
  rw [ChatReducer.flushAgent]
  split <;> simp [spokenCount, partCount]

theorem spokenCount_andThen (s : ChatReducer.Emits A) {next : ChatReducer A → ChatReducer.Emits A}
    (h : ∀ r, spokenCount (next r) = r.userParts.length) :
    spokenCount (ChatReducer.andThen s next) = spokenCount s := by
  have hnext := h s.1
  rw [spokenCount] at hnext
  change partCount (s.2 ++ (next s.1).2) + (next s.1).1.userParts.length = _
  rw [partCount_append, spokenCount]
  omega

theorem spokenCount_closeUserTurn (r : ChatReducer A) :
    spokenCount r.closeUserTurn = r.userParts.length := by
  rw [ChatReducer.closeUserTurn]
  split
  · exact spokenCount_flushUser r
  · simp [spokenCount, partCount]

theorem spokenCount_openUserTurn (r : ChatReducer A) :
    spokenCount r.openUserTurn = r.userParts.length := by
  rw [ChatReducer.openUserTurn]
  split
  · exact spokenCount_flushAgent r
  · simp [spokenCount, partCount]

theorem spokenCount_separateInterjection (chunk : ContentChunk A) (r : ChatReducer A) :
    spokenCount (ChatReducer.separateInterjection chunk r) = r.userParts.length := by
  rw [ChatReducer.separateInterjection]
  split
  · exact spokenCount_flushUser r
  · simp [spokenCount, partCount]

theorem spokenCount_flushHostTurnBoundary (r : ChatReducer A) :
    spokenCount r.flushHostTurnBoundary = r.userParts.length := by
  rw [ChatReducer.flushHostTurnBoundary, spokenCount_andThen _ spokenCount_flushAgent,
    spokenCount_closeUserTurn]

theorem spokenCount_pushUserPart (chunk : ContentChunk A) (r : ChatReducer A)
    (items : List (ConversationItem A)) (hhost : chunk.isHostTurn = false) (promptIndex : Option ℕ) :
    spokenCount (ChatReducer.pushUserPart chunk r, items) =
      spokenCount (r, items) +
        if (LoggedUpdate.update (R := R) (.userMessageChunk chunk) promptIndex).isSpoken then 1
        else 0 := by
  rw [ChatReducer.pushUserPart, LoggedUpdate.isSpoken, LoggedUpdate.processed]
  rcases chunk with ⟨content, isHostTurn, isInterjection⟩
  obtain rfl : isHostTurn = false := hhost
  cases content with
  | text t => simp [spokenCount, Nat.add_assoc]
  | image uri => cases uri <;> simp [spokenCount, Nat.add_assoc]
  | other => rfl

/-- A step of the reducer adds the part that the update has, if it is no checkpoint. -/
theorem spokenCount_process (extract : R → List A) (r : ChatReducer A) (update : LoggedUpdate A R)
    (h : update.processed ≠ .compactionCheckpoint) :
    spokenCount (r.process extract update.processed) =
      r.userParts.length + if update.isSpoken then 1 else 0 := by
  cases update with
  | rewindMarker target => simp [LoggedUpdate.processed, LoggedUpdate.isSpoken, ChatReducer.process,
      spokenCount, partCount]
  | update u promptIndex =>
    cases u with
    | userMessageChunk chunk =>
      rw [LoggedUpdate.processed, ChatReducer.process, ChatReducer.onUserChunk]
      split
      · next hhost =>
        rw [spokenCount_flushHostTurnBoundary]
        simp [LoggedUpdate.isSpoken, LoggedUpdate.processed, hhost]
      · next hhost =>
        dsimp only
        rw [spokenCount_pushUserPart _ _ _ (eq_false_of_ne_true hhost) promptIndex]
        have hcount := spokenCount_andThen r.openUserTurn (spokenCount_separateInterjection chunk)
        rw [spokenCount_openUserTurn] at hcount
        exact congrArg (· + _) hcount
    | agentMessageChunk chunk =>
      rw [LoggedUpdate.processed, ChatReducer.process, ChatReducer.onAgentChunk]
      split
      · exact spokenCount_flushHostTurnBoundary r
      · dsimp only
        split
        · exact spokenCount_closeUserTurn r
        · exact spokenCount_closeUserTurn r
    | toolCall id title rawInput =>
      simp [LoggedUpdate.processed, LoggedUpdate.isSpoken, ChatReducer.process,
        ChatReducer.onToolCall, spokenCount, partCount]
    | toolCallUpdate id fields =>
      have hback : (r.maybeBackfillArgs id fields.rawInput).userParts = r.userParts := by
        rw [ChatReducer.maybeBackfillArgs.eq_def]
        split
        · rfl
        · split <;> rfl
      rw [LoggedUpdate.processed, ChatReducer.process, ChatReducer.onToolCallUpdate]
      split
      · rw [ChatReducer.emitToolResult, spokenCount, partCount_append, ← hback]
        exact spokenCount_flushAgent
          { r.maybeBackfillArgs id fields.rawInput with
            emittedToolResults := id :: (r.maybeBackfillArgs id fields.rawInput).emittedToolResults }
      · simp [spokenCount, partCount, hback, LoggedUpdate.isSpoken, LoggedUpdate.processed]
    | compactionCheckpoint => exact absurd rfl h
    | other => simp [LoggedUpdate.processed, LoggedUpdate.isSpoken, ChatReducer.process,
        spokenCount, partCount]

end Counting

section Compared

variable {p : List (LoggedUpdate A R)} {update : LoggedUpdate A R}

theorem flushUser_needsTruncate (r : ChatReducer A) :
    r.flushUser.1.needsTruncate = r.needsTruncate := by
  rw [ChatReducer.flushUser]
  split <;> rfl

theorem flushAgent_needsTruncate (r : ChatReducer A) :
    r.flushAgent.1.needsTruncate = r.needsTruncate := by
  rw [ChatReducer.flushAgent]
  split <;> rfl

theorem closeUserTurn_needsTruncate (r : ChatReducer A) :
    r.closeUserTurn.1.needsTruncate = r.needsTruncate := by
  rw [ChatReducer.closeUserTurn]
  split
  · exact flushUser_needsTruncate r
  · rfl

theorem openUserTurn_needsTruncate (r : ChatReducer A) :
    r.openUserTurn.1.needsTruncate = r.needsTruncate := by
  rw [ChatReducer.openUserTurn]
  split
  · exact flushAgent_needsTruncate r
  · rfl

theorem separateInterjection_needsTruncate (chunk : ContentChunk A) (r : ChatReducer A) :
    (ChatReducer.separateInterjection chunk r).1.needsTruncate = r.needsTruncate := by
  rw [ChatReducer.separateInterjection]
  split
  · exact flushUser_needsTruncate r
  · rfl

theorem flushHostTurnBoundary_needsTruncate (r : ChatReducer A) :
    r.flushHostTurnBoundary.1.needsTruncate = r.needsTruncate :=
  (flushAgent_needsTruncate _).trans (closeUserTurn_needsTruncate r)

/-- Only a checkpoint asks to truncate. -/
theorem process_needsTruncate (extract : R → List A) (r : ChatReducer A) {u : SessionUpdate A R}
    (h : u ≠ .compactionCheckpoint) :
    (r.process extract u).1.needsTruncate = r.needsTruncate := by
  cases u with
  | userMessageChunk chunk =>
    rw [ChatReducer.process, ChatReducer.onUserChunk]
    split
    · exact flushHostTurnBoundary_needsTruncate r
    · have hpush : ∀ r' : ChatReducer A,
          (ChatReducer.pushUserPart chunk r').needsTruncate = r'.needsTruncate := by
        intro r'
        rw [ChatReducer.pushUserPart]
        split <;> rfl
      exact (hpush _).trans
        ((separateInterjection_needsTruncate chunk _).trans (openUserTurn_needsTruncate r))
  | agentMessageChunk chunk =>
    rw [ChatReducer.process, ChatReducer.onAgentChunk]
    split
    · exact flushHostTurnBoundary_needsTruncate r
    · dsimp only
      split
      · exact closeUserTurn_needsTruncate r
      · exact closeUserTurn_needsTruncate r
  | toolCall id title rawInput => rfl
  | toolCallUpdate id fields =>
    have hback : (r.maybeBackfillArgs id fields.rawInput).needsTruncate = r.needsTruncate := by
      rw [ChatReducer.maybeBackfillArgs.eq_def]
      split
      · rfl
      · split <;> rfl
    rw [ChatReducer.process, ChatReducer.onToolCallUpdate]
    split
    · exact (flushAgent_needsTruncate _).trans hback
    · exact hback
  | compactionCheckpoint => exact absurd rfl h
  | other => rfl

theorem spokenCount_written_concat (extract : R → List A) (p : List (LoggedUpdate A R))
    (h : update.processed ≠ .compactionCheckpoint) :
    spokenCount (written extract (p ++ [update])) =
      spokenCount (written extract p) + if update.isSpoken then 1 else 0 := by
  have hcount := spokenCount_process extract (written extract p).1 update h
  have hflag := process_needsTruncate extract (written extract p).1 h
  rw [written_needsTruncate] at hflag
  rw [written_concat, writeStep]
  dsimp only
  rw [if_neg (ne_true_of_eq_false hflag)]
  rw [spokenCount] at hcount ⊢
  dsimp only
  rw [partCount_append, spokenCount]
  omega

theorem spokenCount_written_append (extract : R → List A) (p : List (LoggedUpdate A R))
    {added : List (LoggedUpdate A R)}
    (h : ∀ update ∈ added, update.processed ≠ .compactionCheckpoint) :
    spokenCount (written extract (p ++ added)) =
      spokenCount (written extract p) + added.countP LoggedUpdate.isSpoken := by
  induction added using List.reverseRecOn with
  | nil => simp
  | append_singleton added update ih =>
    rw [← List.append_assoc, spokenCount_written_concat extract _ (h update (by simp)),
      ih fun u hu => h u (List.mem_append_left _ hu), List.countP_append, List.countP_singleton]
    omega

theorem partCount_rebuiltHistory (updates : List (LoggedUpdate A R)) :
    partCount (rebuiltHistory extract updates) = spokenCount (written extract updates) := by
  have hempty : ∀ r : ChatReducer A, r.flush.1.userParts = [] := by
    intro r
    have huser : r.flushUser.1.userParts = [] := by
      rw [ChatReducer.flushUser]
      split
      · next h => exact h
      · rfl
    have hagent : ∀ r' : ChatReducer A, r'.flushAgent.1.userParts = r'.userParts := by
      intro r'
      rw [ChatReducer.flushAgent]
      split <;> rfl
    exact (hagent _).trans huser
  have hflush := spokenCount_andThen (written extract updates).1.flushUser spokenCount_flushAgent
  rw [spokenCount_flushUser] at hflush
  change spokenCount (written extract updates).1.flush = _ at hflush
  rw [spokenCount, hempty, List.length_nil, Nat.add_zero] at hflush
  rw [rebuiltHistory_eq, partCount_append, hflush, spokenCount]

end Compared

section Main

variable {p updates : List (LoggedUpdate A R)}

/-- Every prompt has a part for its item. -/
def Speaks (updates : List (LoggedUpdate A R)) : Prop :=
  ∀ update ∈ updates, ∀ promptIndex, rewindStepForUpdate update = .userChunk promptIndex →
    update.isSpoken = true

/-- No rewind drops a checkpoint. -/
def KeepsCheckpoints (updates : List (LoggedUpdate A R)) : Prop :=
  ∀ before target after, updates = before ++ .rewindMarker target :: after →
    ∀ update ∈ droppedBy before target, update.processed ≠ .compactionCheckpoint

theorem spoken_droppedBy {target : ℕ} (h : Speaks p) (hlt : target < promptCount p) :
    0 < (droppedBy p target).countP LoggedUpdate.isSpoken := by
  rw [List.countP_pos_iff]
  have hrun := List.getElem_mem hlt
  have hopened : KeptRuns.Opened rewindStepForUpdate _ _ := KeptRuns.opened_ofItems h
  obtain ⟨opener, hmem, hopener, promptIndex, hstep⟩ := hopened _ hrun
  refine ⟨opener, ?_, hopener promptIndex hstep⟩
  rw [droppedBy, List.mem_flatMap]
  refine ⟨_, ?_, List.mem_append_left _ hmem⟩
  rw [List.drop_eq_getElem_cons hlt]
  exact List.mem_cons_self

/-- The filtered log has no more parts of the user, and fewer when a rewind cut. -/
theorem spokenCount_keptUpdates (extract : R → List A) (hspeaks : Speaks p)
    (hkeeps : KeepsCheckpoints p) :
    spokenCount (written extract (keptUpdates p)) ≤ spokenCount (written extract p) ∧
      (Since Cuts Compacts p →
        spokenCount (written extract (keptUpdates p)) < spokenCount (written extract p)) := by
  induction p using List.reverseRecOn with
  | nil => exact ⟨le_rfl, fun h => absurd h not_since_nil⟩
  | append_singleton p update ih =>
    have hbefore : Speaks p := fun u hu => hspeaks u (List.mem_append_left _ hu)
    obtain ⟨hle, hlt⟩ := ih hbefore fun before target after heq =>
      hkeeps before target (after ++ [update]) (by simp [heq])
    rw [since_concat]
    cases update with
    | rewindMarker target =>
      have hsame : written extract (p ++ [.rewindMarker target]) = written extract p :=
        written_other rfl
      have hdrop := spokenCount_written_append extract
        (keptUpdates (p ++ [.rewindMarker target])) (hkeeps p target [] rfl)
      rw [← keptUpdates_marker] at hdrop
      rw [hsame]
      refine ⟨by omega, ?_⟩
      rintro (⟨target', heq, hcuts⟩ | ⟨hsince, -⟩)
      · obtain rfl := LoggedUpdate.rewindMarker.inj heq
        have hpos := spoken_droppedBy hbefore hcuts
        omega
      · have := hlt hsince
        omega
    | update u promptIndex =>
      rw [keptUpdates_concat]
      by_cases hu : (LoggedUpdate.update u promptIndex).processed = .compactionCheckpoint
      · rw [written_checkpoint hu, written_checkpoint hu]
        refine ⟨le_rfl, ?_⟩
        rintro (⟨_, heq, -⟩ | ⟨-, hnot⟩)
        · cases heq
        · exact absurd hu hnot
      · rw [spokenCount_written_concat extract _ hu, spokenCount_written_concat extract _ hu]
        refine ⟨by omega, ?_⟩
        rintro (⟨_, heq, -⟩ | ⟨hsince, -⟩)
        · cases heq
        · have := hlt hsince
          omega

/-- The rebuilt history is that of the filtered log if no rewind since the last checkpoint cuts.
If one does, the histories differ, unless what it dropped was a checkpoint or empty prompts. -/
theorem rebuiltHistory_filterRewindUpdates (updates : List (LoggedUpdate A R)) :
    (¬Since Cuts Compacts updates →
      rebuiltHistory extract updates = rebuiltHistory extract (filterRewindUpdates updates)) ∧
    (Speaks updates → KeepsCheckpoints updates →
      rebuiltHistory extract updates = rebuiltHistory extract (filterRewindUpdates updates) →
      ¬Since Cuts Compacts updates) := by
  rw [filterRewindUpdates_eq]
  constructor
  · intro hnot
    rw [rebuiltHistory_eq, rebuiltHistory_eq, written_keptUpdates hnot]
  · intro hspeaks hkeeps heq hsince
    have hcount := congrArg partCount heq
    rw [partCount_rebuiltHistory, partCount_rebuiltHistory] at hcount
    have hlt := (spokenCount_keptUpdates extract hspeaks hkeeps).2 hsince
    omega

/-- A turn that was rewound is in the rebuilt history. -/
theorem rewound_turn_rebuilt :
    ¬∀ updates : List (LoggedUpdate Char ToolOutput),
      rebuiltHistory extractToolResultText updates =
        rebuiltHistory extractToolResultText (filterRewindUpdates updates) := by
  intro h
  exact absurd (h [.update (.userMessageChunk ⟨.text "a".toList, false, false⟩),
    .update (.agentMessageChunk ⟨.text "x".toList, false, false⟩), .rewindMarker 0]) (by decide)

end Main

end GrokBuild.Transcript
