import Mathlib
import GrokBuild.Chat.Pairing

/-!
# Pairing in the request

Messages built from a well paired history pair tool uses with tool results, and carry at
most three cache breakpoints.
-/

namespace GrokBuild.Chat

open Text Sections

/-! ## Tool uses and tool results of a message -/

namespace ContentBlock

def toolUseId : ContentBlock → Option Str
  | .toolUse id _ _ _ => some id
  | _ => none

def answeredId : ContentBlock → Option Str
  | .toolResult id _ _ => some id
  | _ => none

end ContentBlock

namespace Message

def blocks (m : Message) : List ContentBlock :=
  match m.content with
  | .text _ => []
  | .blocks blocks => blocks

def toolUseIds (m : Message) : List Str := m.blocks.filterMap ContentBlock.toolUseId

def answeredIds (m : Message) : List Str := m.blocks.filterMap ContentBlock.answeredId

end Message

/-- Each message answers the tool uses of the message before it, each by one tool result and
nothing else; `opened` are the uses before the first message, `left` those of the last. -/
def PairedFrom (opened left : List Str) : List Message → Prop
  | [] => opened = left
  | m :: ms =>
    m.answeredIds.Perm opened ∧ m.toolUseIds.Nodup ∧ PairedFrom m.toolUseIds left ms

def Paired (ms : List Message) : Prop := PairedFrom [] [] ms

variable {ms ms' : List Message} {opened left : List Str}

theorem PairedFrom.append {mid : List Str} (h : PairedFrom opened mid ms)
    (h' : PairedFrom mid left ms') : PairedFrom opened left (ms ++ ms') := by
  induction ms generalizing opened with
  | nil =>
    cases h
    exact h'
  | cons m ms ih => exact ⟨h.1, h.2.1, ih h.2.2⟩

/-- Pairing sees only the ids of a message. -/
def toolIds (m : Message) : List Str × List Str := (m.answeredIds, m.toolUseIds)

theorem PairedFrom.congr (h : PairedFrom opened left ms) (hids : ms'.map toolIds = ms.map toolIds) :
    PairedFrom opened left ms' := by
  induction ms generalizing ms' opened with
  | nil =>
    cases List.map_eq_nil_iff.mp hids
    exact h
  | cons m ms ih =>
    cases ms' with
    | nil => cases hids
    | cons m' ms' =>
      rw [List.map_cons, List.map_cons, List.cons.injEq, toolIds, toolIds, Prod.mk.injEq] at hids
      obtain ⟨⟨hans, huse⟩, hrest⟩ := hids
      refine ⟨?_, ?_, ?_⟩
      · rw [hans]
        exact h.1
      · rw [huse]
        exact h.2.1
      · rw [huse]
        exact ih h.2.2 hrest

/-- A block that neither uses a tool nor answers one. -/
def Plain (b : ContentBlock) : Prop := b.toolUseId = none ∧ b.answeredId = none

theorem filterMap_plain {blocks : List ContentBlock} (h : ∀ b ∈ blocks, Plain b) :
    blocks.filterMap ContentBlock.toolUseId = [] ∧
      blocks.filterMap ContentBlock.answeredId = [] :=
  ⟨List.filterMap_eq_nil_iff.mpr fun b hb => (h b hb).1,
    List.filterMap_eq_nil_iff.mpr fun b hb => (h b hb).2⟩

theorem PairedFrom.plain {role : MessageRole} {blocks : List ContentBlock}
    (h : ∀ b ∈ blocks, Plain b) : PairedFrom [] [] [⟨role, .blocks blocks⟩] := by
  obtain ⟨huse, hans⟩ := filterMap_plain h
  refine ⟨?_, ?_, ?_⟩
  · rw [Message.answeredIds, Message.blocks, hans]
  · rw [Message.toolUseIds, Message.blocks, huse]
    exact List.nodup_nil
  · rw [Message.toolUseIds, Message.blocks, huse]
    rfl

/-! ## The encoder between two sections -/

variable {wire : Wire} {s s' : Encoding}

/-- The messages so far are paired when the pending tool results are flushed, and the other
buffer has no tool uses. -/
structure Settled (s : Encoding) : Prop where
  paired : Paired s.flushToolResults.messages
  plain : ∀ b ∈ s.pendingAssistant, Plain b
  one : s.pendingAssistant = [] ∨ s.pendingToolResults = []

theorem plain_contentPartToBlock (part : ContentPart) : Plain (contentPartToBlock part) := by
  cases part with
  | text t => exact ⟨rfl, rfl⟩
  | image url =>
    simp only [contentPartToBlock]
    split_ifs
    · split <;> exact ⟨rfl, rfl⟩
    · exact ⟨rfl, rfl⟩
    · exact ⟨rfl, rfl⟩

theorem plain_textBlocks (t : Str) : ∀ b ∈ textBlocks t, Plain b := by
  intro b hb
  unfold textBlocks at hb
  split_ifs at hb
  · cases hb
  · rw [List.mem_singleton.mp hb]
    exact ⟨rfl, rfl⟩

theorem plain_thinkingBlocks (r : ReasoningItem) : ∀ b ∈ thinkingBlocks r, Plain b := by
  intro b hb
  simp only [thinkingBlocks] at hb
  split_ifs at hb
  · rw [List.mem_singleton.mp hb]
    exact ⟨rfl, rfl⟩
  · cases hb

@[simp] theorem flushToolResults_pendingAssistant (s : Encoding) :
    s.flushToolResults.pendingAssistant = s.pendingAssistant := by
  unfold Encoding.flushToolResults
  split_ifs <;> rfl

@[simp] theorem flushToolResults_pendingToolResults (s : Encoding) :
    s.flushToolResults.pendingToolResults = [] := by
  unfold Encoding.flushToolResults
  split_ifs with h
  · exact List.isEmpty_iff.mp h
  · rfl

@[simp] theorem flushAssistant_pendingAssistant (s : Encoding) :
    s.flushAssistant.pendingAssistant = [] := by
  unfold Encoding.flushAssistant
  split_ifs with h
  · exact List.isEmpty_iff.mp h
  · rfl

@[simp] theorem flushAssistant_pendingToolResults (s : Encoding) :
    s.flushAssistant.pendingToolResults = s.pendingToolResults := by
  unfold Encoding.flushAssistant
  split_ifs <;> rfl

theorem flushToolResults_of_nil (h : s.pendingToolResults = []) : s.flushToolResults = s := by
  simp [Encoding.flushToolResults, h]

theorem flushAssistant_of_nil (h : s.pendingAssistant = []) : s.flushAssistant = s := by
  simp [Encoding.flushAssistant, h]

theorem Settled.flushToolResults (h : Settled s) : Settled s.flushToolResults := by
  refine ⟨?_, ?_, Or.inr (flushToolResults_pendingToolResults s)⟩
  · rw [flushToolResults_of_nil (flushToolResults_pendingToolResults s)]
    exact h.paired
  · rw [flushToolResults_pendingAssistant]
    exact h.plain

theorem Settled.pushAssistant (h : Settled s) (hnil : s.pendingToolResults = [])
    {blocks : List ContentBlock} (hplain : ∀ b ∈ blocks, Plain b) :
    Settled (s.pushAssistant blocks) := by
  refine ⟨?_, ?_, Or.inr hnil⟩
  · have hpaired := h.paired
    rw [flushToolResults_of_nil hnil] at hpaired
    rw [flushToolResults_of_nil (by exact hnil)]
    exact hpaired
  · intro b hb
    rcases List.mem_append.mp hb with hb | hb
    · exact h.plain b hb
    · exact hplain b hb

/-- Both buffers flushed, as a user or system item does it. -/
theorem Settled.flush (h : Settled s) : Paired s.flushAssistant.flushToolResults.messages := by
  rcases h.one with hnil | hnil
  · rw [flushAssistant_of_nil hnil]
    exact h.paired
  · have hpaired := h.paired
    rw [flushToolResults_of_nil hnil] at hpaired
    rw [flushToolResults_of_nil (by rw [flushAssistant_pendingToolResults, hnil])]
    unfold Encoding.flushAssistant
    split_ifs
    · exact hpaired
    · exact hpaired.append (PairedFrom.plain h.plain)

theorem Settled.start : Settled {} := ⟨rfl, by simp, Or.inl rfl⟩

/-! ## One section -/

/-- The summary of a backend call that is encoded does not panic. -/
def Summarized (x : ConversationItem) : Prop :=
  ∀ b, x = .backendToolCall b → b.textSummary.isSome

/-- An item that declares no calls leaves the encoder settled. -/
theorem Settled.encodeItem_head (wire : Wire) (h : Settled s) {x : ConversationItem}
    (hx : x.asToolResult = none) (hcalls : declared (some x) = []) (hsum : Summarized x) :
    ∃ s', encodeItem wire s x = some s' ∧ Settled s' := by
  have hflush := h.flushToolResults
  have hnil := flushToolResults_pendingToolResults s
  cases x with
  | toolResult r => cases hx
  | system sys =>
    refine ⟨_, rfl, ?_, ?_, ?_⟩
    · rw [flushToolResults_of_nil (by simp)]
      exact h.flush
    · simp
    · exact Or.inr (by simp)
  | user u =>
    refine ⟨_, rfl, ?_, ?_, ?_⟩
    · rw [flushToolResults_of_nil (by simp)]
      apply h.flush.append (PairedFrom.plain _)
      intro b hb
      obtain ⟨part, _, rfl⟩ := List.mem_map.mp hb
      exact plain_contentPartToBlock part
    · simp
    · exact Or.inr (by simp)
  | assistant a =>
    have ha : a.toolCalls = [] := hcalls
    refine ⟨_, rfl, hflush.pushAssistant hnil ?_⟩
    rw [ha]
    simpa using plain_textBlocks a.content
  | backendToolCall b =>
    obtain ⟨summary, hb⟩ := Option.isSome_iff_exists.mp (hsum b rfl)
    refine ⟨s.flushToolResults.pushAssistant [.text summary none], by simp [encodeItem, hb],
      hflush.pushAssistant hnil ?_⟩
    intro b' hb'
    rw [List.mem_singleton.mp hb']
    exact ⟨rfl, rfl⟩
  | reasoning r => exact ⟨_, rfl, hflush.pushAssistant hnil (plain_thinkingBlocks r)⟩

/-- A run of results is collected behind the flushed assistant blocks. -/
theorem encode_results (s : Encoding) (r : ToolResultItem) (run : List ToolResultItem) :
    ((r :: run).map ConversationItem.toolResult).foldlM (encodeItem wire) s =
      some { s.flushAssistant with
        pendingToolResults := s.pendingToolResults ++ (r :: run).map (toolResultBlock wire) } := by
  induction run generalizing s r with
  | nil => simp [encodeItem]
  | cons r' run ih =>
    rw [List.map_cons, List.foldlM_cons]
    simp only [encodeItem, Option.bind_eq_bind, Option.bind_some]
    rw [ih, flushAssistant_of_nil (by simp)]
    simp

theorem toolUseIds_calls (wire : Wire) (calls : List ToolCall) :
    (calls.map (toolUseBlock wire)).filterMap ContentBlock.toolUseId =
      calls.map fun c => sanitizeToolCallId wire c.id := by
  induction calls with
  | nil => rfl
  | cons c calls ih => simpa [toolUseBlock, ContentBlock.toolUseId] using ih

theorem answeredIds_calls (wire : Wire) (calls : List ToolCall) :
    (calls.map (toolUseBlock wire)).filterMap ContentBlock.answeredId = [] := by
  apply List.filterMap_eq_nil_iff.mpr
  intro b hb
  obtain ⟨c, _, rfl⟩ := List.mem_map.mp hb
  rfl

theorem answeredIds_results (wire : Wire) (run : List ToolResultItem) :
    (run.map (toolResultBlock wire)).filterMap ContentBlock.answeredId =
      run.map fun r => sanitizeToolCallId wire r.toolCallId := by
  induction run with
  | nil => rfl
  | cons r run ih => simpa [toolResultBlock, ContentBlock.answeredId] using ih

theorem toolUseIds_results (wire : Wire) (run : List ToolResultItem) :
    (run.map (toolResultBlock wire)).filterMap ContentBlock.toolUseId = [] := by
  apply List.filterMap_eq_nil_iff.mpr
  intro b hb
  obtain ⟨r, _, rfl⟩ := List.mem_map.mp hb
  rfl

/-- An assistant item with calls and the run that answers them become two messages. -/
theorem Settled.encode_calls (h : Settled s) (a : AssistantItem) {run : List ToolResultItem}
    (hne : a.toolCalls ≠ []) (hrun : (ids run).Perm (a.toolCalls.map ToolCall.id))
    (hdistinct : (a.toolCalls.map fun c => sanitizeToolCallId wire c.id).Nodup) :
    ∃ s', (ConversationItem.assistant a :: run.map .toolResult).foldlM (encodeItem wire) s =
      some s' ∧ Settled s' := by
  obtain ⟨r, run, rfl⟩ : ∃ r run', run = r :: run' := by
    cases run with
    | nil => exact absurd (List.map_eq_nil_iff.mp hrun.symm.eq_nil) hne
    | cons r run => exact ⟨r, run, rfl⟩
  let blocks := s.pendingAssistant ++
    (textBlocks a.content ++ a.toolCalls.map (toolUseBlock wire))
  let s₁ := s.flushToolResults.pushAssistant
    (textBlocks a.content ++ a.toolCalls.map (toolUseBlock wire))
  have hpending : s₁.pendingAssistant = blocks := by
    simp only [s₁, blocks, Encoding.pushAssistant, flushToolResults_pendingAssistant]
  have hnone : s₁.pendingToolResults = [] := flushToolResults_pendingToolResults s
  have hblocks : blocks.isEmpty = false := by
    simp [blocks, hne]
  have hflushed : s₁.flushAssistant.messages =
      s.flushToolResults.messages ++ [⟨.assistant, .blocks blocks⟩] := by
    rw [Encoding.flushAssistant, hpending, hblocks]
    rfl
  have huse : blocks.filterMap ContentBlock.toolUseId =
      a.toolCalls.map fun c => sanitizeToolCallId wire c.id := by
    simp only [blocks, List.filterMap_append, (filterMap_plain h.plain).1,
      (filterMap_plain (plain_textBlocks a.content)).1, toolUseIds_calls, List.nil_append]
  have hans : blocks.filterMap ContentBlock.answeredId = [] := by
    simp only [blocks, List.filterMap_append, (filterMap_plain h.plain).2,
      (filterMap_plain (plain_textBlocks a.content)).2, answeredIds_calls, List.nil_append]
  have hmatch : ((r :: run).map fun r => sanitizeToolCallId wire r.toolCallId).Perm
      (a.toolCalls.map fun c => sanitizeToolCallId wire c.id) := by
    have := hrun.map (sanitizeToolCallId wire)
    rwa [List.map_map, List.map_map] at this
  refine ⟨_, by rw [List.foldlM_cons]; exact encode_results s₁ r run, ?_, ?_, Or.inl (by simp)⟩
  · have htail : PairedFrom [] [] [⟨.assistant, .blocks blocks⟩,
        ⟨.user, .blocks ((r :: run).map (toolResultBlock wire))⟩] := by
      refine ⟨?_, ?_, ?_, ?_, ?_⟩
      · rw [Message.answeredIds, Message.blocks, hans]
      · rw [Message.toolUseIds, Message.blocks, huse]
        exact hdistinct
      · rw [Message.toolUseIds, Message.blocks, huse, Message.answeredIds, Message.blocks,
          answeredIds_results]
        exact hmatch
      · rw [Message.toolUseIds, Message.blocks, toolUseIds_results]
        exact List.nodup_nil
      · rw [Message.toolUseIds, Message.blocks, toolUseIds_results]
        rfl
    have hall := h.paired.append htail
    simp only [Encoding.flushToolResults, hnone, List.nil_append, List.map_cons,
      List.isEmpty_cons, Bool.false_eq_true, if_false, hflushed]
    rw [List.append_assoc]
    exact hall
  · simp

/-! ## The whole history -/

/-- The sanitized ids of each assistant item stay distinct. -/
def DistinctSanitized (wire : Wire) (items : List ConversationItem) : Prop :=
  ∀ a, .assistant a ∈ items → (a.toolCalls.map fun c => sanitizeToolCallId wire c.id).Nodup

variable {secs : List (ConversationItem × List ToolResultItem)}

theorem Settled.encode_section (h : Settled s) {x : ConversationItem} {run : List ToolResultItem}
    (hx : x.asToolResult = none) (hrun : (ids run).Perm (declaredIds (some x)))
    (hdistinct : ((declared (some x)).map fun c => sanitizeToolCallId wire c.id).Nodup)
    (hsum : Summarized x) :
    ∃ s', (x :: run.map .toolResult).foldlM (encodeItem wire) s = some s' ∧ Settled s' := by
  by_cases hcalls : declared (some x) = []
  · obtain ⟨s', hs', hsettled⟩ := h.encodeItem_head wire hx hcalls hsum
    have hnil : run = [] := by
      rw [declaredIds, hcalls] at hrun
      exact List.map_eq_nil_iff.mp hrun.eq_nil
    refine ⟨s', ?_, hsettled⟩
    rw [hnil, List.map_nil, List.foldlM_cons, hs']
    rfl
  · cases x with
    | assistant a => exact h.encode_calls a hcalls hrun hdistinct
    | _ => exact absurd rfl hcalls

theorem Settled.encode_sections (wire : Wire) (h : Settled s) (hheads : Heads secs)
    (hruns : ∀ t ∈ secs, (ids t.2).Perm (declaredIds (some t.1)))
    (hdistinct : ∀ t ∈ secs,
      ((declared (some t.1)).map fun c => sanitizeToolCallId wire c.id).Nodup)
    (hsum : ∀ t ∈ secs, Summarized t.1) :
    ∃ s', (results.joinSections secs).foldlM (encodeItem wire) s = some s' ∧ Settled s' := by
  induction secs generalizing s with
  | nil => exact ⟨s, rfl, h⟩
  | cons t secs ih =>
    obtain ⟨x, run⟩ := t
    obtain ⟨s₁, hs₁, hsettled⟩ := h.encode_section (hheads _ List.mem_cons_self)
      (hruns _ List.mem_cons_self) (hdistinct _ List.mem_cons_self) (hsum _ List.mem_cons_self)
    obtain ⟨s₂, hs₂, hsettled₂⟩ := ih hsettled hheads.tail
      (fun t ht => hruns t (List.mem_cons_of_mem _ ht))
      (fun t ht => hdistinct t (List.mem_cons_of_mem _ ht))
      (fun t ht => hsum t (List.mem_cons_of_mem _ ht))
    refine ⟨s₂, ?_, hsettled₂⟩
    have hsplit : results.joinSections ((x, run) :: secs) =
        (x :: run.map .toolResult) ++ results.joinSections secs := by
      rw [Followers.joinSections_cons]
      rfl
    rw [hsplit, List.foldlM_append, hs₁]
    exact hs₂

variable {items : List ConversationItem}

/-- A well paired history is encoded, and the messages are paired. -/
theorem WellPaired.encode (h : WellPaired items) (hdistinct : DistinctSanitized wire items)
    (hsum : ∀ x ∈ items, Summarized x) :
    ∃ s, items.foldlM (encodeItem wire) {} = some s ∧ Settled s := by
  have hjoin := results.join_sections items
  rw [h.lead, Followers.join_nil] at hjoin
  have hencode := (Settled.start).encode_sections wire (heads_sections items) h.runs
    (fun t ht => ?_) fun t ht => hsum _ (mem_of_mem_sections ht)
  · rw [hjoin] at hencode
    exact hencode
  · have hmem := mem_of_mem_sections ht
    cases hx : t.1 with
    | assistant a =>
      rw [hx] at hmem
      exact hdistinct a hmem
    | _ => exact List.nodup_nil

/-! ## Cache breakpoints -/

mutual

/-- The breakpoints on a block and inside it. -/
def ContentBlock.breakpoints : ContentBlock → ℕ
  | .text _ c | .image _ c | .toolUse _ _ _ c => c.toList.length
  | .toolResult _ content c => c.toList.length + content.breakpoints
  | .thinking _ _ | .redactedThinking _ => 0

def ToolResultContent.breakpoints : ToolResultContent → ℕ
  | .text _ => 0
  | .blocks bs => blocksBreakpoints bs

def blocksBreakpoints : List ContentBlock → ℕ
  | [] => 0
  | b :: bs => b.breakpoints + blocksBreakpoints bs

end

def Message.breakpoints (m : Message) : ℕ := blocksBreakpoints m.blocks

def messagesBreakpoints (ms : List Message) : ℕ := (ms.map Message.breakpoints).sum

def systemBreakpoints (blocks : List TextBlock) : ℕ :=
  (blocks.map fun b => b.cacheControl.toList.length).sum

def SystemParam.breakpoints : SystemParam → ℕ
  | .text _ => 0
  | .blocks bs => systemBreakpoints bs

def MessagesRequest.breakpoints (req : MessagesRequest) : ℕ :=
  (req.system.map SystemParam.breakpoints).getD 0 + messagesBreakpoints req.messages

theorem ContentBlock.mark_spec {b b' : ContentBlock} (h : b.mark = some b') :
    b'.toolUseId = b.toolUseId ∧ b'.answeredId = b.answeredId ∧
      b'.breakpoints ≤ b.breakpoints + 1 := by
  cases b with
  | toolResult id content c =>
    cases h
    refine ⟨rfl, rfl, ?_⟩
    simp only [ContentBlock.breakpoints, Option.toList_some, List.length_singleton]
    omega
  | thinking t signature => cases h
  | redactedThinking data => cases h
  | _ =>
    cases h
    refine ⟨rfl, rfl, ?_⟩
    simp [ContentBlock.breakpoints]

theorem markLastBlock_spec {blocks blocks' : List ContentBlock}
    (h : markLastBlock blocks = some blocks') :
    blocks'.filterMap ContentBlock.toolUseId = blocks.filterMap ContentBlock.toolUseId ∧
      blocks'.filterMap ContentBlock.answeredId = blocks.filterMap ContentBlock.answeredId ∧
      blocksBreakpoints blocks' ≤ blocksBreakpoints blocks + 1 := by
  induction blocks generalizing blocks' with
  | nil => cases h
  | cons b bs ih =>
    rw [markLastBlock] at h
    cases hrec : markLastBlock bs with
    | some bs' =>
      rw [hrec] at h
      cases h
      obtain ⟨huse, hans, hle⟩ := ih hrec
      simp only [List.filterMap_cons, huse, hans, blocksBreakpoints, true_and]
      omega
    | none =>
      rw [hrec] at h
      obtain ⟨b', hb', rfl⟩ := Option.map_eq_some_iff.mp h
      obtain ⟨huse, hans, hle⟩ := ContentBlock.mark_spec hb'
      simp only [List.filterMap_cons, huse, hans, blocksBreakpoints, true_and]
      omega

theorem Message.mark_spec {m m' : Message} (h : m.mark = some m') :
    toolIds m' = toolIds m ∧ m'.breakpoints ≤ m.breakpoints + 1 := by
  obtain ⟨role, content⟩ := m
  cases content with
  | text t =>
    cases h
    refine ⟨rfl, ?_⟩
    simp [Message.breakpoints, Message.blocks, blocksBreakpoints, ContentBlock.breakpoints]
  | blocks blocks =>
    obtain ⟨blocks', hb, rfl⟩ := Option.map_eq_some_iff.mp h
    obtain ⟨huse, hans, hle⟩ := markLastBlock_spec hb
    refine ⟨?_, hle⟩
    rw [toolIds, toolIds, Message.answeredIds, Message.toolUseIds, Message.answeredIds,
      Message.toolUseIds]
    exact Prod.ext hans huse

theorem markTip_spec {ms ms' : List Message} {tip : ℕ} (h : markTip ms = some (ms', tip)) :
    ms'.map toolIds = ms.map toolIds ∧ messagesBreakpoints ms' ≤ messagesBreakpoints ms + 1 := by
  induction ms generalizing ms' tip with
  | nil => cases h
  | cons m ms ih =>
    rw [markTip] at h
    cases hrec : markTip ms with
    | some p =>
      rw [hrec] at h
      cases h
      obtain ⟨hids, hle⟩ := ih hrec
      simp only [messagesBreakpoints, List.map_cons, List.sum_cons, hids, true_and] at hle ⊢
      omega
    | none =>
      rw [hrec] at h
      obtain ⟨m', hm', heq⟩ := Option.map_eq_some_iff.mp h
      cases heq
      obtain ⟨hids, hle⟩ := Message.mark_spec hm'
      simp only [messagesBreakpoints, List.map_cons, List.sum_cons, hids, true_and]
      omega

theorem mark_getD_spec (m : Message) :
    toolIds (m.mark.getD m) = toolIds m ∧ (m.mark.getD m).breakpoints ≤ m.breakpoints + 1 := by
  cases h : m.mark with
  | none => exact ⟨rfl, Nat.le_succ _⟩
  | some m' => exact Message.mark_spec h

theorem modify_mark_spec (ms : List Message) (i : ℕ) :
    (ms.modify i fun m => m.mark.getD m).map toolIds = ms.map toolIds ∧
      messagesBreakpoints (ms.modify i fun m => m.mark.getD m) ≤ messagesBreakpoints ms + 1 := by
  induction ms generalizing i with
  | nil => cases i <;> exact ⟨rfl, Nat.zero_le _⟩
  | cons m ms ih =>
    cases i with
    | zero =>
      obtain ⟨hids, hle⟩ := mark_getD_spec m
      simp only [List.modify_zero_cons, messagesBreakpoints, List.map_cons, List.sum_cons, hids,
        true_and]
      omega
    | succ i =>
      obtain ⟨hids, hle⟩ := ih i
      simp only [List.modify_succ_cons, messagesBreakpoints, List.map_cons, List.sum_cons, hids,
        true_and] at hle ⊢
      omega

theorem markLastSystem_le {blocks : List TextBlock} (h : systemBreakpoints blocks = 0) :
    systemBreakpoints (markLastSystem blocks) ≤ 1 := by
  fun_induction markLastSystem blocks with
  | case1 => exact Nat.zero_le _
  | case2 b => simp [systemBreakpoints]
  | case3 b bs hbs ih =>
    simp only [systemBreakpoints, List.map_cons, List.sum_cons] at h ih ⊢
    have := ih (by omega)
    omega

/-- Setting the breakpoints keeps the ids of every message and adds at most three. -/
theorem applyCacheBreakpoints_spec {system : List TextBlock} (hsystem : systemBreakpoints system = 0)
    (ms : List Message) :
    (applyCacheBreakpoints system ms).2.map toolIds = ms.map toolIds ∧
      systemBreakpoints (applyCacheBreakpoints system ms).1 +
        messagesBreakpoints (applyCacheBreakpoints system ms).2 ≤ messagesBreakpoints ms + 3 := by
  have hsys := markLastSystem_le hsystem
  unfold applyCacheBreakpoints
  cases htip : markTip ms with
  | none => exact ⟨rfl, by simp only; omega⟩
  | some p =>
    obtain ⟨ms₁, tip⟩ := p
    obtain ⟨hids, hle⟩ := markTip_spec htip
    cases hprev : previousTip ms₁ tip with
    | none => exact ⟨by simp [hprev, hids], by simp only [hprev]; omega⟩
    | some prev =>
      obtain ⟨hids', hle'⟩ := modify_mark_spec ms₁ prev
      exact ⟨by simp only [hprev, hids', hids], by simp only [hprev]; omega⟩

/-- Before the breakpoints are set there are none. -/
structure Unmarked (s : Encoding) : Prop where
  system : systemBreakpoints s.systemBlocks = 0
  messages : messagesBreakpoints s.messages = 0
  assistant : blocksBreakpoints s.pendingAssistant = 0
  toolResults : blocksBreakpoints s.pendingToolResults = 0

theorem blocksBreakpoints_append (bs bs' : List ContentBlock) :
    blocksBreakpoints (bs ++ bs') = blocksBreakpoints bs + blocksBreakpoints bs' := by
  induction bs with
  | nil => simp [blocksBreakpoints]
  | cons b bs ih =>
    simp only [List.cons_append, blocksBreakpoints, ih]
    omega

theorem blocksBreakpoints_map {α : Type*} {f : α → ContentBlock} (h : ∀ x, (f x).breakpoints = 0)
    (l : List α) : blocksBreakpoints (l.map f) = 0 := by
  induction l with
  | nil => rfl
  | cons x l ih => simp only [List.map_cons, blocksBreakpoints, h, ih]

theorem messagesBreakpoints_concat (ms : List Message) (role : MessageRole)
    (blocks : List ContentBlock) :
    messagesBreakpoints (ms ++ [⟨role, .blocks blocks⟩]) =
      messagesBreakpoints ms + blocksBreakpoints blocks := by
  simp [messagesBreakpoints, Message.breakpoints, Message.blocks]

theorem breakpoints_contentPartToBlock (part : ContentPart) :
    (contentPartToBlock part).breakpoints = 0 := by
  cases part with
  | text t => rfl
  | image url =>
    simp only [contentPartToBlock]
    split_ifs
    · split <;> rfl
    · rfl
    · rfl

theorem breakpoints_toolResultBlock (wire : Wire) (r : ToolResultItem) :
    (toolResultBlock wire r).breakpoints = 0 := by
  have himages : blocksBreakpoints (r.images.filterMap resultImage) = 0 := by
    induction r.images with
    | nil => rfl
    | cons part images ih =>
      cases part with
      | text t => exact ih
      | image url =>
        rw [List.filterMap_cons]
        simp only [resultImage, blocksBreakpoints, ContentBlock.breakpoints, ih]
        rfl
  unfold toolResultBlock toolResultContent
  split_ifs
  · rfl
  · simp [ContentBlock.breakpoints, ToolResultContent.breakpoints, blocksBreakpoints, himages]

theorem Unmarked.flushAssistant (h : Unmarked s) : Unmarked s.flushAssistant := by
  unfold Encoding.flushAssistant
  split_ifs
  · exact h
  · refine ⟨h.system, ?_, rfl, h.toolResults⟩
    rw [messagesBreakpoints_concat, h.messages, h.assistant]

theorem Unmarked.flushToolResults (h : Unmarked s) : Unmarked s.flushToolResults := by
  unfold Encoding.flushToolResults
  split_ifs
  · exact h
  · refine ⟨h.system, ?_, h.assistant, rfl⟩
    rw [messagesBreakpoints_concat, h.messages, h.toolResults]

theorem Unmarked.pushAssistant (h : Unmarked s) {blocks : List ContentBlock}
    (hblocks : blocksBreakpoints blocks = 0) : Unmarked (s.pushAssistant blocks) := by
  refine ⟨h.system, h.messages, ?_, h.toolResults⟩
  rw [Encoding.pushAssistant, blocksBreakpoints_append, h.assistant, hblocks]

theorem Unmarked.encodeItem (h : Unmarked s) {x : ConversationItem}
    (hx : encodeItem wire s x = some s') : Unmarked s' := by
  have hboth := h.flushAssistant.flushToolResults
  cases x with
  | system sys =>
    cases hx
    refine ⟨?_, hboth.messages, hboth.assistant, hboth.toolResults⟩
    have := hboth.system
    simp only [systemBreakpoints, List.map_append, List.sum_append] at this ⊢
    simp [this]
  | user u =>
    cases hx
    refine ⟨hboth.system, ?_, hboth.assistant, hboth.toolResults⟩
    rw [messagesBreakpoints_concat, hboth.messages,
      blocksBreakpoints_map breakpoints_contentPartToBlock]
  | assistant a =>
    cases hx
    apply h.flushToolResults.pushAssistant
    have htext : blocksBreakpoints (textBlocks a.content) = 0 := by
      unfold textBlocks
      split_ifs <;> rfl
    have hcalls : blocksBreakpoints (a.toolCalls.map (toolUseBlock wire)) = 0 :=
      blocksBreakpoints_map (f := toolUseBlock wire) (fun c => rfl) a.toolCalls
    rw [blocksBreakpoints_append, htext, hcalls]
  | toolResult r =>
    cases hx
    have hflush := h.flushAssistant
    refine ⟨hflush.system, hflush.messages, hflush.assistant, ?_⟩
    rw [blocksBreakpoints_append, hflush.toolResults]
    simp [blocksBreakpoints, breakpoints_toolResultBlock]
  | backendToolCall b =>
    obtain ⟨summary, _, rfl⟩ := Option.map_eq_some_iff.mp hx
    exact h.flushToolResults.pushAssistant rfl
  | reasoning r =>
    cases hx
    apply h.flushToolResults.pushAssistant
    simp only [thinkingBlocks]
    split_ifs <;> rfl

theorem Unmarked.encode (h : Unmarked s) {items : List ConversationItem}
    (hs : items.foldlM (Chat.encodeItem wire) s = some s') : Unmarked s' := by
  induction items generalizing s with
  | nil =>
    cases hs
    exact h
  | cons x items ih =>
    rw [List.foldlM_cons, Option.bind_eq_bind] at hs
    obtain ⟨s₁, hx, hrest⟩ := Option.bind_eq_some_iff.mp hs
    exact ih (h.encodeItem hx) hrest

theorem systemParam_breakpoints_le (blocks : List TextBlock) :
    ((systemParam blocks).map SystemParam.breakpoints).getD 0 ≤ systemBreakpoints blocks := by
  fun_cases systemParam blocks with
  | case1 => exact Nat.zero_le _
  | case2 b hb => exact Nat.zero_le _
  | case3 b hb => exact Nat.le_refl _
  | case4 bs h1 h2 => exact Nat.le_refl _

/-- A request built from a well paired history is paired and has at most three breakpoints. -/
theorem WellPaired.request (h : WellPaired items) (hdistinct : DistinctSanitized wire items)
    (hsum : ∀ x ∈ items, Summarized x) :
    ∃ req, buildMessagesRequest wire items = some req ∧ Paired req.messages ∧
      req.breakpoints ≤ 3 := by
  obtain ⟨s, hs, hsettled⟩ := h.encode hdistinct hsum
  have hunmarked : Unmarked s := Unmarked.encode ⟨rfl, rfl, rfl, rfl⟩ hs
  have hflush := hunmarked.flushAssistant.flushToolResults
  obtain ⟨hids, hle⟩ := applyCacheBreakpoints_spec hflush.system
    s.flushAssistant.flushToolResults.messages
  refine ⟨_, by rw [buildMessagesRequest, hs]; rfl, hsettled.flush.congr hids, ?_⟩
  rw [hflush.messages] at hle
  have hsystem := systemParam_breakpoints_le (applyCacheBreakpoints
    s.flushAssistant.flushToolResults.systemBlocks s.flushAssistant.flushToolResults.messages).1
  exact (Nat.add_le_add_right hsystem _).trans (by omega)

/-! ## Panics of the encoder -/

/-- Byte 100 of the code, if it has as many, is not inside a character. -/
def CutsCleanly (code : Str) : Prop :=
  100 < utf8Len code → ∃ pre post, code = pre ++ post ∧ utf8Len pre = 100

def CodeCutsCleanly (items : List ConversationItem) : Prop :=
  ∀ code, .backendToolCall ⟨.codeInterpreter (some code)⟩ ∈ items → CutsCleanly code

theorem codePreview_isSome_iff (code : Str) : (codePreview (some code)).isSome ↔ CutsCleanly code := by
  simp only [codePreview, CutsCleanly]
  split_ifs with h
  · rw [Option.isSome_map, takeBytes_isSome_iff]
    exact ⟨fun hcut _ => hcut, fun hcut => hcut h⟩
  · exact ⟨fun _ hlong => absurd hlong h, fun _ => rfl⟩

theorem summarized_iff : (∀ x ∈ items, Summarized x) ↔ CodeCutsCleanly items := by
  constructor
  · intro h code hcode
    have hsome := h _ hcode _ rfl
    rw [BackendToolCallItem.textSummary, Option.isSome_map] at hsome
    exact (codePreview_isSome_iff code).mp hsome
  · rintro h x hx ⟨kind⟩ rfl
    cases kind with
    | webSearch action => rfl
    | xSearch name input => rfl
    | codeInterpreter code =>
      cases code with
      | none => rfl
      | some code =>
        rw [BackendToolCallItem.textSummary, Option.isSome_map]
        exact (codePreview_isSome_iff code).mpr (h code hx)

/-- What is encoded has been summarized. -/
theorem summarized_of_encode (hs : items.foldlM (encodeItem wire) s = some s') :
    ∀ x ∈ items, Summarized x := by
  induction items generalizing s with
  | nil => simp
  | cons x items ih =>
    rw [List.foldlM_cons, Option.bind_eq_bind] at hs
    obtain ⟨s₁, hx, hrest⟩ := Option.bind_eq_some_iff.mp hs
    intro y hy
    rcases List.mem_cons.mp hy with rfl | hy
    · rintro b rfl
      obtain ⟨summary, hb, _⟩ := Option.map_eq_some_iff.mp hx
      rw [hb]
      rfl
    · exact ih hrest y hy

/-! ## The repaired history and its request -/

/-- What a repair is for. -/
structure RepairedFor (wire : Wire) (items repaired : List ConversationItem) : Prop where
  /-- A tool result is in the run directly after an item that declares its id. -/
  adjacent : (results.sections repaired).1 = [] ∧
    ∀ s ∈ (results.sections repaired).2, ∀ r ∈ s.2, r.toolCallId ∈ s.1.toolCallIds
  /-- A tool call has one result in the run of its item. -/
  answered : ∀ s ∈ (results.sections repaired).2, ∀ id ∈ s.1.toolCallIds,
    s.2.countP (fun r => r.toolCallId = id) = 1
  others : repaired.filter (fun x => x.asToolResult.isNone) =
    items.filter fun x => x.asToolResult.isNone
  /-- The result of an answered call is the last one that was in its run. -/
  last : List.Forall₂ (fun before after => after.1 = before.1 ∧
      ∀ id ∈ before.1.toolCallIds, ∀ r,
        (before.2.filter fun r => r.toolCallId = id).getLast? = some r → r ∈ after.2)
    (results.sections items).2 (results.sections repaired).2
  stable : (repairHistory repaired).2.changed = false ∧ hasDanglingToolCalls repaired = false
  request : DistinctSanitized wire repaired →
    ∃ req, buildMessagesRequest wire repaired = some req ∧ Paired req.messages ∧
      req.breakpoints ≤ 3 ∧ ∀ m ∈ req.messages, ∀ t signature,
        (.thinking t signature) ∈ m.blocks → (ContentBlock.thinking t signature).breakpoints = 0

theorem declaredIds_eq (x : ConversationItem) : declaredIds (some x) = x.toolCallIds := by
  cases x <;> rfl

/-- Two histories with the same other items have the same assistant items and backend calls. -/
theorem mem_iff_of_filter_eq {repaired : List ConversationItem}
    (h : repaired.filter (fun x => x.asToolResult.isNone) =
      items.filter fun x => x.asToolResult.isNone) {x : ConversationItem}
    (hx : x.asToolResult = none) : x ∈ repaired ↔ x ∈ items := by
  have hmem : ∀ l : List ConversationItem,
      x ∈ l ↔ x ∈ l.filter fun x => x.asToolResult.isNone := by
    intro l
    rw [List.mem_filter, hx]
    simp
  rw [hmem repaired, h, ← hmem items]

theorem others_repairHistory (items : List ConversationItem) :
    (repairHistory items).1.filter (fun x => x.asToolResult.isNone) =
      items.filter fun x => x.asToolResult.isNone := by
  have hheads := results.heads_mapRuns answers items
  rw [results.heads_eq_filter, results.heads_eq_filter, ← repairHistory_eq_mapRuns] at hheads
  exact hheads

/-- The repair of a history in which no assistant item repeats an id does all it is for,
unless the request to be built from it panics in the preview of a code-interpreter call. -/
theorem repairHistory_repairedFor_iff (wire : Wire) (items : List ConversationItem)
    (h : DistinctIds items) :
    RepairedFor wire items (repairHistory items).1 ↔
      (DistinctSanitized wire items → CodeCutsCleanly items) := by
  have hpaired := repairHistory_wellPaired h
  have hothers := others_repairHistory items
  have hassistant : ∀ a, .assistant a ∈ (repairHistory items).1 ↔ .assistant a ∈ items :=
    fun a => mem_iff_of_filter_eq hothers rfl
  have hcode : ∀ b, .backendToolCall b ∈ (repairHistory items).1 ↔ .backendToolCall b ∈ items :=
    fun b => mem_iff_of_filter_eq hothers rfl
  constructor
  · intro hr hdistinct
    obtain ⟨req, hreq, _⟩ := hr.request fun a ha => hdistinct a ((hassistant a).mp ha)
    obtain ⟨s, hs, _⟩ := Option.map_eq_some_iff.mp hreq
    have hclean := summarized_iff.1 (summarized_of_encode hs)
    exact fun code hmem => hclean code ((hcode _).mpr hmem)
  · intro hclean
    refine ⟨⟨hpaired.lead, ?_⟩, ?_, hothers, ?_, ⟨hpaired.repairHistory_unchanged,
      hpaired.not_dangling⟩, ?_⟩
    · intro s hs r hr
      rw [← declaredIds_eq]
      exact (hpaired.runs s hs).mem_iff.mp (List.mem_map_of_mem hr)
    · intro s hs id hid
      rw [← declaredIds_eq] at hid
      have hcount := (hpaired.runs s hs).count_eq id
      rw [List.count_eq_one_of_mem (hpaired.distinct s hs) hid, ids, List.count, List.countP_map]
        at hcount
      rw [← hcount]
      apply List.countP_congr
      intro r _
      simp
    · rw [sections_repairHistory, List.forall₂_map_right_iff]
      apply List.forall₂_same.mpr
      intro s _
      refine ⟨rfl, fun id hid r hr => ?_⟩
      rw [← declaredIds_eq] at hid
      exact last_mem_answers hid hr
    · intro hdistinct
      have hcuts := hclean fun a ha => hdistinct a ((hassistant a).mpr ha)
      have hsum := summarized_iff.2 fun code hmem => hcuts code ((hcode _).mp hmem)
      obtain ⟨req, hreq, hpairs, hle⟩ := hpaired.request hdistinct hsum
      exact ⟨req, hreq, hpairs, hle, fun _ _ _ _ _ => rfl⟩

/-- A wire that knows the ASCII letters and digits and reads empty objects. -/
def asciiWire : Wire := ⟨Char.isAlphanum, fun _ => some (.object [])⟩

def readCall : ToolCall := ⟨"call_1".toList, "read_file".toList, "\x7b\x7d".toList⟩

/-- A call answered twice, a displaced result, and a call that nothing answers. -/
def brokenHistory : List ConversationItem :=
  [.user { content := [.text "hi".toList] }, .assistant ⟨[], [readCall]⟩,
    .ofToolResult "call_1".toList "old".toList, .ofToolResult "call_1".toList "new".toList,
    .user { content := [] }, .ofToolResult "call_1".toList "late".toList,
    .assistant ⟨"again".toList, [readCall]⟩]

theorem brokenHistory_distinct : DistinctIds brokenHistory := by
  intro a ha
  simp only [brokenHistory, List.mem_cons, ConversationItem.assistant.injEq, reduceCtorEq,
    ConversationItem.ofToolResult, List.not_mem_nil, or_false, false_or] at ha
  rcases ha with rfl | rfl <;> decide

theorem brokenHistory_repaired :
    DistinctIds brokenHistory ∧
      RepairedFor asciiWire brokenHistory (repairHistory brokenHistory).1 := by
  refine ⟨brokenHistory_distinct, ?_⟩
  rw [repairHistory_repairedFor_iff asciiWire brokenHistory brokenHistory_distinct]
  intro _ code hcode
  simp [brokenHistory, ConversationItem.ofToolResult] at hcode

/-- A code-interpreter call whose code has a two-byte character at bytes 99 and 100. -/
def accentedCode : List ConversationItem :=
  [.backendToolCall ⟨.codeInterpreter (some (List.replicate 99 'x' ++ "\u00e9\u00e9".toList))⟩]

theorem repairHistory_accentedCode : (repairHistory accentedCode).1 = accentedCode := by
  rw [repairHistory_eq_mapRuns]
  rfl

theorem accentedCode_panics : buildMessagesRequest asciiWire accentedCode = none := by
  decide +kernel

/-- Nothing has to be repaired in it, and no request can be built from it. -/
theorem accentedCode_not_repairedFor :
    DistinctIds accentedCode ∧ DistinctSanitized asciiWire accentedCode ∧
      ¬ RepairedFor asciiWire accentedCode (repairHistory accentedCode).1 := by
  have hdistinct : DistinctSanitized asciiWire accentedCode := by
    simp [DistinctSanitized, accentedCode]
  refine ⟨by simp [DistinctIds, accentedCode], hdistinct, ?_⟩
  rw [repairHistory_accentedCode]
  intro h
  obtain ⟨req, hreq, _⟩ := h.request hdistinct
  rw [accentedCode_panics] at hreq
  cases hreq

end GrokBuild.Chat
