import Mathlib
import GrokBuild.Chat.Repair

/-!
# The repair passes, run by run

Each pass of the repair changes only the runs of tool results, and what it makes of a run
depends on the item that the run follows.
-/

namespace GrokBuild.Chat

open Text Sections KeepLast

/-- Tool results follow the item before their run. -/
def results : Followers ConversationItem ToolResultItem where
  embed := .toolResult
  proj := ConversationItem.asToolResult
  proj_eq_some := ConversationItem.asToolResult_eq_some

/-- The calls that a run may answer: those of the assistant item it follows. -/
def declared : Option ConversationItem → List ToolCall
  | some (.assistant a) => a.toolCalls
  | _ => []

def dedupRun (head : Option ConversationItem) (run : List ToolResultItem) : List ToolResultItem :=
  if declared head = [] then run else keepLastResults run

def stripRun (head : Option ConversationItem) (run : List ToolResultItem) : List ToolResultItem :=
  run.filter fun r => r.toolCallId ∈ (declared head).map ToolCall.id

def fillRun (reason : DanglingToolCallReason) (head : Option ConversationItem)
    (run : List ToolResultItem) : List ToolResultItem :=
  run ++ syntheticResults reason (declared head) run

/-- Heads of sections. -/
def Heads (secs : List (ConversationItem × List ToolResultItem)) : Prop :=
  ∀ s ∈ secs, s.1.asToolResult = none

variable {secs : List (ConversationItem × List ToolResultItem)}

theorem Heads.tail {s : ConversationItem × List ToolResultItem} (h : Heads (s :: secs)) :
    Heads secs :=
  fun s' hs' => h s' (List.mem_cons_of_mem _ hs')

theorem heads_sections (items : List ConversationItem) : Heads (results.sections items).2 :=
  fun _ hs => Followers.proj_of_mem_sections hs

theorem leadingResults_join (h : Heads secs) (run : List ToolResultItem) :
    leadingResults (results.join run secs) = (run, results.joinSections secs) := by
  induction run with
  | nil =>
    cases secs with
    | nil => rfl
    | cons s secs =>
      obtain ⟨x, run'⟩ := s
      have hx : x.asToolResult = none := h (x, run') List.mem_cons_self
      rw [Followers.join_nil, Followers.joinSections_cons]
      cases x <;> first | rfl | cases hx
  | cons r run ih =>
    rw [Followers.join_cons]
    change leadingResults (.toolResult r :: results.join run secs) = _
    rw [leadingResults, ih]

/-! ## Duplicates -/

theorem dedup_cons {x : ConversationItem} (hx : declared (some x) = [])
    (items : List ConversationItem) :
    (dedupDuplicateToolResults (x :: items)).1 = x :: (dedupDuplicateToolResults items).1 := by
  cases x with
  | assistant a =>
    have ha : a.toolCalls = [] := hx
    rw [dedupDuplicateToolResults, if_pos ha]
  | _ =>
    rw [dedupDuplicateToolResults]
    simp

theorem dedup_leading (run : List ToolResultItem) (items : List ConversationItem) :
    (dedupDuplicateToolResults (run.map .toolResult ++ items)).1 =
      run.map .toolResult ++ (dedupDuplicateToolResults items).1 := by
  induction run with
  | nil => rfl
  | cons r run ih =>
    rw [List.map_cons, List.cons_append, dedup_cons rfl, ih]
    rfl

theorem dedup_assistant_distinct {a : AssistantItem} (ha : a.toolCalls ≠ []) (h : Heads secs)
    {run : List ToolResultItem} (hrun : (run.map ToolResultItem.toolCallId).Nodup) :
    (dedupDuplicateToolResults (.assistant a :: results.join run secs)).1 =
      .assistant a :: (run.map .toolResult ++
        (dedupDuplicateToolResults (results.joinSections secs)).1) := by
  rw [dedupDuplicateToolResults, if_neg ha, leadingResults_join h]
  simp only [(obsolete_eq_nil_iff run).mpr hrun, ne_eq, not_true_eq_false, if_false]

theorem dedup_assistant {a : AssistantItem} (ha : a.toolCalls ≠ []) (h : Heads secs)
    (run : List ToolResultItem) :
    (dedupDuplicateToolResults (.assistant a :: results.join run secs)).1 =
      .assistant a :: ((keepLastResults run).map .toolResult ++
        (dedupDuplicateToolResults (results.joinSections secs)).1) := by
  by_cases hrun : obsolete 0 [] run = []
  · have hnodup := (obsolete_eq_nil_iff run).mp hrun
    have hkeep : keepLastResults run = run := keepLast_eq_self hnodup
    rw [dedup_assistant_distinct ha h hnodup, hkeep]
  · -- the run that is left is scanned again, and has no duplicates then
    have hagain := dedup_assistant_distinct ha h (nodup_keepLast run)
    rw [dedupDuplicateToolResults, if_neg ha, leadingResults_join h]
    simp only [ne_eq, hrun, not_false_eq_true, if_true, removeAll_obsolete]
    exact hagain

theorem dedup_eq_mapRuns (items : List ConversationItem) :
    (dedupDuplicateToolResults items).1 = results.mapRuns dedupRun items := by
  apply results.eq_mapRuns (P := fun items => (dedupDuplicateToolResults items).1)
  · rw [dedupDuplicateToolResults]
  · exact dedup_leading
  · intro x run secs _ h
    by_cases hx : declared (some x) = []
    · rw [dedup_cons hx, dedupRun, if_pos hx]
      congr 1
      exact dedup_leading run _
    · rw [dedupRun, if_neg hx]
      cases x with
      | assistant a => exact dedup_assistant hx h run
      | _ => exact absurd rfl hx

theorem dedup_length (items : List ConversationItem) :
    (dedupDuplicateToolResults items).1.length + (dedupDuplicateToolResults items).2 =
      items.length := by
  fun_induction dedupDuplicateToolResults items with
  | case1 => rfl
  | case2 rest a ha items removed heq ih =>
    rw [heq] at ih
    simp only [List.length_cons] at ih ⊢
    omega
  | case3 a rest ha run after toRemove hne items removed heq ih =>
    have hlen := leadingResults_length rest
    have hobsolete := length_obsolete run
    rw [heq] at ih
    simp only [toRemove, removeAll_obsolete, List.length_cons, List.length_append,
      List.length_map, run, after] at ih hobsolete ⊢
    omega
  | case4 a rest ha run after toRemove hne items removed heq ih =>
    have hlen := leadingResults_length rest
    rw [heq] at ih
    simp only [List.length_cons, List.length_append, List.length_map, run, after] at ih ⊢
    omega
  | case5 x rest hx items removed heq ih =>
    rw [heq] at ih
    simp only [List.length_cons] at ih ⊢
    omega

/-! ## Displaced results -/

theorem strip_leading (ids : List Str) (run : List ToolResultItem)
    (items : List ConversationItem) :
    (stripDisplaced ids (run.map .toolResult ++ items)).1 =
      (run.filter fun r => r.toolCallId ∈ ids).map .toolResult ++ (stripDisplaced ids items).1 := by
  induction run with
  | nil => rfl
  | cons r run ih =>
    rw [List.map_cons, List.cons_append, stripDisplaced]
    by_cases hr : r.toolCallId ∈ ids
    · simp [hr, ih]
    · simp [hr, ih]

theorem strip_cons {x : ConversationItem} (hx : x.asToolResult = none) (ids : List Str)
    (items : List ConversationItem) :
    (stripDisplaced ids (x :: items)).1 = x ::
      (stripDisplaced ((declared (some x)).map ToolCall.id) items).1 := by
  cases x with
  | toolResult r => cases hx
  | assistant a => rfl
  | _ => rfl

/-- A head forgets the ids of the run before it. -/
theorem strip_joinSections (h : Heads secs) (ids : List Str) :
    (stripDisplaced ids (results.joinSections secs)).1 =
      (stripDisplaced [] (results.joinSections secs)).1 := by
  cases secs with
  | nil => rfl
  | cons s secs =>
    obtain ⟨x, run⟩ := s
    have hx : x.asToolResult = none := h _ List.mem_cons_self
    rw [Followers.joinSections_cons, strip_cons hx, strip_cons hx]

theorem strip_eq_mapRuns (items : List ConversationItem) :
    (stripDisplacedToolResults items).1 = results.mapRuns stripRun items := by
  apply results.eq_mapRuns (P := fun items => (stripDisplacedToolResults items).1)
  · rfl
  · exact strip_leading []
  · intro x run secs hx h
    change (stripDisplaced [] (x :: results.join run secs)).1 = _
    rw [strip_cons hx, stripDisplacedToolResults, ← strip_joinSections h]
    congr 1
    exact strip_leading _ run _

theorem strip_length (ids : List Str) (items : List ConversationItem) :
    (stripDisplaced ids items).1.length + (stripDisplaced ids items).2.length = items.length := by
  induction items generalizing ids with
  | nil => rfl
  | cons x items ih =>
    cases x with
    | toolResult r =>
      have := ih ids
      rw [stripDisplaced]
      split_ifs <;> simp only [List.length_cons] <;> omega
    | assistant a =>
      have := ih (a.toolCalls.map ToolCall.id)
      simp only [stripDisplaced, List.length_cons]
      omega
    | _ =>
      have := ih []
      simp only [stripDisplaced, List.length_cons]
      omega

/-! ## Dangling calls -/

variable {reason : DanglingToolCallReason}

/-- The repairs of a list, applied from the last to the first. -/
def applyRepairs (repairs : List (ℕ × List ToolResultItem)) (items : List ConversationItem) :
    List ConversationItem :=
  repairs.foldr (fun repair items => splice repair.1 repair.2 items) items

theorem splice_append (results : List ToolResultItem) (before after : List ConversationItem) :
    splice before.length results (before ++ after) =
      before ++ (results.map .toolResult ++ after) := by
  simp [splice]

theorem danglingRepairs_cons {x : ConversationItem} (hx : declared (some x) = []) (i : ℕ)
    (items : List ConversationItem) :
    danglingRepairs reason i (x :: items) = danglingRepairs reason (i + 1) items := by
  cases x with
  | assistant a =>
    have ha : a.toolCalls = [] := hx
    rw [danglingRepairs, if_pos ha]
  | _ =>
    rw [danglingRepairs]
    simp

theorem danglingRepairs_leading (reason : DanglingToolCallReason) (run : List ToolResultItem)
    (i : ℕ) (items : List ConversationItem) :
    danglingRepairs reason i (run.map .toolResult ++ items) =
      danglingRepairs reason (i + run.length) items := by
  induction run generalizing i with
  | nil => rfl
  | cons r run ih =>
    rw [List.map_cons, List.cons_append, danglingRepairs_cons rfl, ih, List.length_cons]
    congr 1
    omega

theorem danglingRepairs_assistant {a : AssistantItem} (ha : a.toolCalls ≠ []) (h : Heads secs)
    (run : List ToolResultItem) (i : ℕ) :
    danglingRepairs reason i (.assistant a :: results.join run secs) =
      (if syntheticResults reason a.toolCalls run = [] then []
        else [(i + 1 + run.length, syntheticResults reason a.toolCalls run)]) ++
      danglingRepairs reason (i + 1 + run.length) (results.joinSections secs) := by
  rw [danglingRepairs, if_neg ha, leadingResults_join h]
  by_cases hs : syntheticResults reason a.toolCalls run = [] <;> simp [hs]

/-- One section: the repairs behind it do not reach it, and its own is made at its end. -/
theorem applyRepairs_section {x : ConversationItem} (h : Heads secs) (run : List ToolResultItem)
    (before rest : List ConversationItem)
    (hrest : ∀ before, applyRepairs (danglingRepairs reason before.length
      (results.joinSections secs)) (before ++ results.joinSections secs) = before ++ rest) :
    applyRepairs (danglingRepairs reason before.length (x :: results.join run secs))
        (before ++ x :: results.join run secs) =
      before ++ x :: ((fillRun reason (some x) run).map .toolResult ++ rest) := by
  have hsplit : before ++ x :: results.join run secs =
      (before ++ x :: run.map .toolResult) ++ results.joinSections secs := by
    rw [List.append_assoc]
    rfl
  have hlen : (before ++ x :: run.map ConversationItem.toolResult).length =
      before.length + 1 + run.length := by
    simp
    omega
  have hrec := hrest (before ++ x :: run.map .toolResult)
  rw [← hsplit, hlen] at hrec
  by_cases hx : declared (some x) = []
  · have hfill : fillRun reason (some x) run = run := by
      rw [fillRun, hx]
      simp [syntheticResults]
    have hrepairs : danglingRepairs reason before.length (x :: results.join run secs) =
        danglingRepairs reason (before.length + 1 + run.length) (results.joinSections secs) := by
      rw [danglingRepairs_cons hx]
      exact danglingRepairs_leading reason run _ _
    rw [hrepairs, hrec, hfill, List.append_assoc, List.cons_append]
  · cases x with
    | assistant a =>
      rw [danglingRepairs_assistant hx h, applyRepairs, List.foldr_append]
      change List.foldr _ (applyRepairs _ _) _ = _
      rw [hrec, fillRun]
      change _ = before ++ .assistant a ::
        ((run ++ syntheticResults reason a.toolCalls run).map .toolResult ++ rest)
      by_cases hs : syntheticResults reason a.toolCalls run = []
      · simp [hs]
      · have hsplice := splice_append (syntheticResults reason a.toolCalls run)
          (before ++ .assistant a :: run.map .toolResult) rest
        rw [hlen] at hsplice
        rw [if_neg hs, List.foldr_cons, List.foldr_nil, hsplice]
        simp
    | _ => exact absurd rfl hx

theorem applyRepairs_joinSections (h : Heads secs) (before : List ConversationItem) :
    applyRepairs (danglingRepairs reason before.length (results.joinSections secs))
        (before ++ results.joinSections secs) =
      before ++ results.joinSections (secs.map fun s => (s.1, fillRun reason (some s.1) s.2)) := by
  induction secs generalizing before with
  | nil =>
    rw [Followers.joinSections_nil, danglingRepairs]
    rfl
  | cons s secs ih =>
    obtain ⟨x, run⟩ := s
    rw [Followers.joinSections_cons, applyRepairs_section h.tail run before _ (ih h.tail)]
    rw [List.map_cons, Followers.joinSections_cons]
    rfl

theorem repairDangling_eq_mapRuns (items : List ConversationItem) :
    (repairDanglingToolCalls items reason).1 = results.mapRuns (fillRun reason) items := by
  obtain ⟨run, secs, hrun, hsecs⟩ : ∃ run secs, (results.sections items).1 = run ∧
    (results.sections items).2 = secs := ⟨_, _, rfl, rfl⟩
  have hjoin := results.join_sections items
  have hheads := heads_sections items
  rw [hrun, hsecs] at hjoin
  rw [hsecs] at hheads
  have hrepairs : danglingRepairs reason 0 items =
      danglingRepairs reason (run.map ConversationItem.toolResult).length
        (results.joinSections secs) := by
    rw [← hjoin, List.length_map]
    have := danglingRepairs_leading reason run 0 (results.joinSections secs)
    rw [Nat.zero_add] at this
    exact this
  have hfill : fillRun reason none run = run := by
    simp [fillRun, declared, syntheticResults]
  rw [repairDanglingToolCalls, List.foldl_reverse, hrepairs, Followers.mapRuns, hrun, hsecs, hfill]
  rw [← hjoin]
  exact applyRepairs_joinSections hheads (run.map .toolResult)

theorem applyRepairs_length (repairs : List (ℕ × List ToolResultItem))
    (items : List ConversationItem) :
    (applyRepairs repairs items).length =
      items.length + (repairs.map fun repair => repair.2.length).sum := by
  induction repairs with
  | nil => rfl
  | cons repair repairs ih =>
    have hsplit := congrArg List.length
      (List.take_append_drop repair.1 (applyRepairs repairs items))
    rw [List.length_append] at hsplit
    change (splice repair.1 repair.2 (applyRepairs repairs items)).length = _
    simp only [splice, List.length_append, List.length_map, List.map_cons, List.sum_cons]
    omega

theorem repairDangling_length (reason : DanglingToolCallReason)
    (items : List ConversationItem) :
    (repairDanglingToolCalls items reason).1.length =
      items.length + (repairDanglingToolCalls items reason).2 := by
  rw [repairDanglingToolCalls, List.foldl_reverse]
  exact applyRepairs_length _ items

theorem hasDangling_cons {x : ConversationItem} (hx : declared (some x) = [])
    (items : List ConversationItem) :
    hasDanglingToolCalls (x :: items) = hasDanglingToolCalls items := by
  cases x with
  | assistant a =>
    have ha : a.toolCalls = [] := hx
    rw [hasDanglingToolCalls, if_pos ha]
  | _ =>
    rw [hasDanglingToolCalls]
    simp

theorem hasDangling_leading (run : List ToolResultItem) (items : List ConversationItem) :
    hasDanglingToolCalls (run.map .toolResult ++ items) = hasDanglingToolCalls items := by
  induction run with
  | nil => rfl
  | cons r run ih => rw [List.map_cons, List.cons_append, hasDangling_cons rfl, ih]

/-- No call dangles when each run answers all that its head declares. -/
theorem hasDangling_joinSections (h : Heads secs)
    (hall : ∀ s ∈ secs, ∀ c ∈ declared (some s.1), c.id ∈ s.2.map ToolResultItem.toolCallId) :
    hasDanglingToolCalls (results.joinSections secs) = false := by
  induction secs with
  | nil => rw [Followers.joinSections_nil, hasDanglingToolCalls]
  | cons s secs ih =>
    obtain ⟨x, run⟩ := s
    have hrest := ih h.tail fun s hs => hall s (List.mem_cons_of_mem _ hs)
    have hanswered : ∀ c ∈ declared (some x), c.id ∈ run.map ToolResultItem.toolCallId :=
      hall (x, run) List.mem_cons_self
    rw [Followers.joinSections_cons]
    by_cases hx : declared (some x) = []
    · rw [hasDangling_cons hx]
      exact (hasDangling_leading run _).trans hrest
    · cases x with
      | assistant a =>
        have ha : a.toolCalls ≠ [] := hx
        have hany : (a.toolCalls.any fun c => c.id ∉ run.map ToolResultItem.toolCallId) = false := by
          rw [List.any_eq_false]
          intro c hc
          simpa using hanswered c hc
        rw [hasDanglingToolCalls, if_neg ha, leadingResults_join h.tail]
        simp only [hany, Bool.false_eq_true, if_false]
        exact hrest
      | _ => exact absurd rfl hx

theorem hasDangling_eq_false {items : List ConversationItem}
    (hall : ∀ s ∈ (results.sections items).2, ∀ c ∈ declared (some s.1),
      c.id ∈ s.2.map ToolResultItem.toolCallId) :
    hasDanglingToolCalls items = false := by
  rw [← results.join_sections items]
  exact (hasDangling_leading _ _).trans (hasDangling_joinSections (heads_sections items) hall)

end GrokBuild.Chat
