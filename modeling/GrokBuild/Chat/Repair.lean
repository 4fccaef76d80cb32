import Mathlib
import GrokBuild.Chat.Conversation
import GrokBuild.Lib.KeepLast
import GrokBuild.Lib.Sections

/-!
# History repair

Providers accept a tool result only in the contiguous run directly after the assistant item
that declares its id, and want exactly one for each call. Three passes bring a history to
that shape: duplicate results of a run are removed, displaced results are stripped, and
calls without a result get a synthetic one.
-/

namespace GrokBuild.Chat

open Text Sections KeepLast

/-- The run of tool results at the start of a list, and what comes after it. -/
def leadingResults : List ConversationItem → List ToolResultItem × List ConversationItem
  | .toolResult r :: rest => (r :: (leadingResults rest).1, (leadingResults rest).2)
  | items => ([], items)

theorem leadingResults_length (items : List ConversationItem) :
    (leadingResults items).1.length + (leadingResults items).2.length = items.length := by
  fun_induction leadingResults items with
  | case1 r rest ih =>
    simp only [List.length_cons]
    omega
  | case2 items h => simp

theorem leadingResults_after_le (items : List ConversationItem) :
    (leadingResults items).2.length ≤ items.length := by
  have := leadingResults_length items
  omega

/-! ## Duplicate results -/

/-- The positions of the results of a run that a later one of the same id makes obsolete;
`seen` maps each id to its last position, the latest insertion first. -/
def obsolete (idx : ℕ) (seen : List (Str × ℕ)) : List ToolResultItem → List ℕ
  | [] => []
  | r :: run =>
    match seen.lookup r.toolCallId with
    | some prev => prev :: obsolete (idx + 1) ((r.toolCallId, idx) :: seen) run
    | none => obsolete (idx + 1) ((r.toolCallId, idx) :: seen) run

/-- Removes the positions from the last to the first, so that the others stay valid. -/
def removeAll (run : List ToolResultItem) (toRemove : List ℕ) : List ToolResultItem :=
  (toRemove.insertionSort (· ≤ ·)).reverse.foldl (fun run idx => run.eraseIdx idx) run

abbrev keepLastResults (run : List ToolResultItem) : List ToolResultItem :=
  keepLast ToolResultItem.toolCallId run

theorem filterMap_lookup_cons (seen : List (Str × ℕ)) (a : Str) (i : ℕ) {ids : List Str}
    (h : ids.Nodup) :
    (ids.filterMap fun id => ((a, i) :: seen).lookup id).Perm
      ((if a ∈ ids then [i] else []) ++ (ids.erase a).filterMap fun id => seen.lookup id) := by
  have hskip : ∀ l : List Str, a ∉ l →
      l.filterMap (fun id => ((a, i) :: seen).lookup id) =
        l.filterMap fun id => seen.lookup id := by
    intro l hl
    apply List.filterMap_congr
    intro id hid
    have hne : (id == a) = false := by
      apply beq_false_of_ne
      rintro rfl
      exact hl hid
    rw [List.lookup_cons, hne]
  by_cases ha : a ∈ ids
  · have hperm := (List.perm_cons_erase ha).filterMap fun id => ((a, i) :: seen).lookup id
    rw [if_pos ha]
    rw [List.filterMap_cons, List.lookup_cons_self, hskip _ h.not_mem_erase] at hperm
    exact hperm
  · rw [if_neg ha, List.erase_of_not_mem ha, hskip _ ha]
    rfl

theorem dedup_cons_perm (a : Str) (ids : List Str) :
    (a :: ids).dedup.Perm (a :: ids.dedup.erase a) := by
  by_cases ha : a ∈ ids
  · rw [List.dedup_cons_of_mem ha]
    exact List.perm_cons_erase (List.mem_dedup.mpr ha)
  · rw [List.dedup_cons_of_notMem ha, List.erase_of_not_mem (mt List.mem_dedup.mp ha)]

/-- The obsolete positions are those of the earlier results, and the remembered ones of ids
that come again. -/
theorem obsolete_perm (idx : ℕ) (seen : List (Str × ℕ)) (run : List ToolResultItem) :
    (obsolete idx seen run).Perm
      ((run.map ToolResultItem.toolCallId).dedup.filterMap (fun id => seen.lookup id) ++
        earlier ToolResultItem.toolCallId idx run) := by
  induction run generalizing idx seen with
  | nil => rfl
  | cons r run ih =>
    obtain ⟨ids, hids⟩ : ∃ ids, run.map ToolResultItem.toolCallId = ids := ⟨_, rfl⟩
    have hfirst : obsolete idx seen (r :: run) = (seen.lookup r.toolCallId).toList ++
        obsolete (idx + 1) ((r.toolCallId, idx) :: seen) run := by
      rw [obsolete]
      cases seen.lookup r.toolCallId <;> rfl
    have hearlier : earlier ToolResultItem.toolCallId idx (r :: run) =
        (if r.toolCallId ∈ ids then [idx] else []) ++
          earlier ToolResultItem.toolCallId (idx + 1) run := by
      simp only [earlier, hids]
      split_ifs <;> rfl
    have hseen : (((r :: run).map ToolResultItem.toolCallId).dedup.filterMap
        fun id => seen.lookup id).Perm ((seen.lookup r.toolCallId).toList ++
          (ids.dedup.erase r.toolCallId).filterMap fun id => seen.lookup id) := by
      have := (dedup_cons_perm r.toolCallId ids).filterMap fun id => seen.lookup id
      rw [List.filterMap_cons] at this
      rw [List.map_cons, hids]
      cases hl : seen.lookup r.toolCallId <;> simpa [hl] using this
    have hstep := filterMap_lookup_cons seen r.toolCallId idx (List.nodup_dedup ids)
    simp only [List.mem_dedup] at hstep
    rw [hfirst, hearlier, List.perm_iff_count]
    intro i
    have hrec := (ih (idx + 1) ((r.toolCallId, idx) :: seen)).count_eq i
    have hseen' := hseen.count_eq i
    have hstep' := hstep.count_eq i
    rw [hids] at hrec
    simp only [List.count_append] at hrec hseen' hstep' ⊢
    omega

theorem obsolete_sorted (run : List ToolResultItem) :
    (obsolete 0 [] run).insertionSort (· ≤ ·) = earlier ToolResultItem.toolCallId 0 run := by
  have hperm := obsolete_perm 0 [] run
  simp only [List.lookup_nil, List.filterMap_none, List.nil_append] at hperm
  have hsorted : (earlier ToolResultItem.toolCallId 0 run).Pairwise (· ≤ ·) :=
    (earlier_sorted 0 run).imp fun h => Nat.le_of_lt h
  refine List.Perm.eq_of_pairwise ?_ (List.pairwise_insertionSort (· ≤ ·) (obsolete 0 [] run))
    hsorted ((List.perm_insertionSort (· ≤ ·) _).trans hperm)
  intro a b _ _ hab hba
  omega

/-- Removing the obsolete positions keeps the last result of each id. -/
theorem removeAll_obsolete (run : List ToolResultItem) :
    removeAll run (obsolete 0 [] run) = keepLastResults run := by
  rw [removeAll, obsolete_sorted, List.foldl_reverse]
  exact foldr_eraseIdx_earlier [] run

theorem length_obsolete (run : List ToolResultItem) :
    (obsolete 0 [] run).length + (keepLastResults run).length = run.length := by
  have hlen : (obsolete 0 [] run).length = (earlier ToolResultItem.toolCallId 0 run).length := by
    rw [← obsolete_sorted, List.length_insertionSort]
  rw [hlen]
  exact length_earlier 0 run

theorem obsolete_eq_nil_iff (run : List ToolResultItem) :
    obsolete 0 [] run = [] ↔ (run.map ToolResultItem.toolCallId).Nodup := by
  have hlen := length_obsolete run
  constructor
  · intro hnil
    rw [hnil, List.length_nil, Nat.zero_add] at hlen
    have heq : keepLastResults run = run := (keepLast_sublist run).eq_of_length hlen
    rw [← heq]
    exact nodup_keepLast run
  · intro hnodup
    have heq : keepLastResults run = run := keepLast_eq_self hnodup
    rw [heq] at hlen
    apply List.eq_nil_of_length_eq_zero
    omega

theorem length_removeAll_lt {run : List ToolResultItem} (h : obsolete 0 [] run ≠ []) :
    (removeAll run (obsolete 0 [] run)).length < run.length := by
  have hlen := length_obsolete run
  have hpos := List.length_pos_iff.mpr h
  rw [removeAll_obsolete]
  omega

/-- `dedup_duplicate_tool_results`: the conversation and how many results were removed. A run
that lost results is scanned again from its assistant. -/
def dedupDuplicateToolResults : List ConversationItem → List ConversationItem × ℕ
  | [] => ([], 0)
  | .assistant a :: rest =>
    if a.toolCalls = [] then
      let (items, removed) := dedupDuplicateToolResults rest
      (.assistant a :: items, removed)
    else
      let run := (leadingResults rest).1
      let after := (leadingResults rest).2
      let toRemove := obsolete 0 [] run
      if toRemove ≠ [] then
        let (items, removed) := dedupDuplicateToolResults
          (.assistant a :: ((removeAll run toRemove).map .toolResult ++ after))
        (items, toRemove.length + removed)
      else
        let (items, removed) := dedupDuplicateToolResults after
        (.assistant a :: (run.map .toolResult ++ items), removed)
  | item :: rest =>
    let (items, removed) := dedupDuplicateToolResults rest
    (item :: items, removed)
termination_by items => items.length
decreasing_by
  · simp
  · have hlen := leadingResults_length rest
    have hlt := length_removeAll_lt ‹obsolete 0 [] (leadingResults rest).1 ≠ []›
    simp only [List.length_cons, List.length_append, List.length_map]
    omega
  · have := leadingResults_after_le rest
    simp only [List.length_cons]
    omega
  · simp

/-! ## Displaced results -/

/-- `strip_displaced_tool_results`: the conversation and the ids of what was stripped;
`runIds` are the ids that the current run may answer. -/
def stripDisplaced (runIds : List Str) : List ConversationItem → List ConversationItem × List Str
  | [] => ([], [])
  | .assistant a :: rest =>
    let (items, stripped) := stripDisplaced (a.toolCalls.map ToolCall.id) rest
    (.assistant a :: items, stripped)
  | .toolResult r :: rest =>
    let (items, stripped) := stripDisplaced runIds rest
    if r.toolCallId ∈ runIds then (.toolResult r :: items, stripped)
    else (items, r.toolCallId :: stripped)
  | item :: rest =>
    let (items, stripped) := stripDisplaced [] rest
    (item :: items, stripped)

def stripDisplacedToolResults (items : List ConversationItem) : List ConversationItem × List Str :=
  stripDisplaced [] items

/-! ## Dangling calls -/

inductive DanglingToolCallReason where
  | userCancelled
  | harnessHalted (haltClass : Str)
deriving DecidableEq

def syntheticDanglingResultText (name : Str) : DanglingToolCallReason → Str
  | .userCancelled =>
    "Tool execution was cancelled by the user (tool ".toList ++ '\u0060' :: name ++
      '\u0060' :: " was not executed).".toList
  | .harnessHalted haltClass =>
    "Tool execution was halted by the harness (".toList ++ haltClass ++
      "); the tool ".toList ++ '\u0060' :: name ++ '\u0060' :: " was not executed.".toList

/-- Results for the calls that a run does not answer, in the order of the calls. -/
def syntheticResults (reason : DanglingToolCallReason) (calls : List ToolCall)
    (run : List ToolResultItem) : List ToolResultItem :=
  (calls.filter fun c => c.id ∉ run.map ToolResultItem.toolCallId).map fun c =>
    ⟨c.id, syntheticDanglingResultText c.name reason, []⟩

/-- The first phase: where to insert which results; `i` is the position of the list's head. -/
def danglingRepairs (reason : DanglingToolCallReason) (i : ℕ) :
    List ConversationItem → List (ℕ × List ToolResultItem)
  | [] => []
  | .assistant a :: rest =>
    if a.toolCalls = [] then danglingRepairs reason (i + 1) rest
    else
      let run := (leadingResults rest).1
      let after := (leadingResults rest).2
      let j := i + 1 + run.length
      let synthetic := syntheticResults reason a.toolCalls run
      if synthetic ≠ [] then (j, synthetic) :: danglingRepairs reason j after
      else danglingRepairs reason j after
  | _ :: rest => danglingRepairs reason (i + 1) rest
termination_by items => items.length
decreasing_by
  · simp
  · have := leadingResults_after_le rest
    simp only [List.length_cons]
    omega
  · have := leadingResults_after_le rest
    simp only [List.length_cons]
    omega
  · simp

def splice (position : ℕ) (results : List ToolResultItem) (items : List ConversationItem) :
    List ConversationItem :=
  items.take position ++ results.map .toolResult ++ items.drop position

/-- `repair_dangling_tool_calls`: the repairs are applied from the last to the first. -/
def repairDanglingToolCalls (items : List ConversationItem) (reason : DanglingToolCallReason) :
    List ConversationItem × ℕ :=
  let repairs := danglingRepairs reason 0 items
  (repairs.reverse.foldl (fun items repair => splice repair.1 repair.2 items) items,
    (repairs.map fun repair => repair.2.length).sum)

def hasDanglingToolCalls : List ConversationItem → Bool
  | [] => false
  | .assistant a :: rest =>
    if a.toolCalls = [] then hasDanglingToolCalls rest
    else
      let run := (leadingResults rest).1
      let after := (leadingResults rest).2
      if a.toolCalls.any fun c => c.id ∉ run.map ToolResultItem.toolCallId then true
      else hasDanglingToolCalls after
  | _ :: rest => hasDanglingToolCalls rest
termination_by items => items.length
decreasing_by
  · simp
  · have := leadingResults_after_le rest
    simp only [List.length_cons]
    omega
  · simp

/-! ## The repair -/

structure HistoryRepairReport where
  duplicatesRemoved : ℕ
  strippedToolResultIds : List Str
  syntheticResultsInserted : ℕ
deriving DecidableEq

def HistoryRepairReport.changed (r : HistoryRepairReport) : Bool :=
  0 < r.duplicatesRemoved || !r.strippedToolResultIds.isEmpty || 0 < r.syntheticResultsInserted

def repairHistory (items : List ConversationItem) : List ConversationItem × HistoryRepairReport :=
  let (items, duplicatesRemoved) := dedupDuplicateToolResults items
  let (items, stripped) := stripDisplacedToolResults items
  let (items, inserted) := repairDanglingToolCalls items (.harnessHalted "history_repair".toList)
  (items, ⟨duplicatesRemoved, stripped, inserted⟩)

end GrokBuild.Chat
