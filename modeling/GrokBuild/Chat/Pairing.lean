import GrokBuild.Chat.Messages
import GrokBuild.Chat.RepairRuns

/-!
# Tool pairing

After the repair each run of tool results answers exactly the calls of the assistant item
before it, and a request built from the repaired items pairs tool uses with tool results
message by message.
-/

namespace GrokBuild.Chat

open Text Sections KeepLast

/-! ## What the repair makes of a run -/

def historyRepair : DanglingToolCallReason := .harnessHalted "history_repair".toList

variable {head : Option ConversationItem} {run : List ToolResultItem}

/-- The results of a run that the repair keeps. -/
def kept (head : Option ConversationItem) (run : List ToolResultItem) : List ToolResultItem :=
  stripRun head (dedupRun head run)

def answers (head : Option ConversationItem) (run : List ToolResultItem) : List ToolResultItem :=
  fillRun historyRepair head (kept head run)

abbrev ids (run : List ToolResultItem) : List Str := run.map ToolResultItem.toolCallId

abbrev declaredIds (head : Option ConversationItem) : List Str := (declared head).map ToolCall.id

theorem repairHistory_eq_mapRuns (items : List ConversationItem) :
    (repairHistory items).1 = results.mapRuns answers items := by
  simp only [repairHistory, repairDangling_eq_mapRuns, strip_eq_mapRuns, dedup_eq_mapRuns,
    Followers.mapRuns_mapRuns]
  rfl

theorem kept_nodup (head : Option ConversationItem) (run : List ToolResultItem) :
    (ids (kept head run)).Nodup := by
  unfold kept dedupRun stripRun
  split_ifs with h
  · simp [h]
  · exact (nodup_keepLast run).sublist (List.filter_sublist.map _)

theorem kept_declared {id : Str} (h : id ∈ ids (kept head run)) : id ∈ declaredIds head := by
  obtain ⟨r, hr, rfl⟩ := List.mem_map.mp h
  simpa using (List.mem_filter.mp hr).2

theorem ids_syntheticResults (reason : DanglingToolCallReason) (calls : List ToolCall)
    (run : List ToolResultItem) :
    ids (syntheticResults reason calls run) =
      (calls.map ToolCall.id).filter fun id => id ∉ ids run := by
  rw [ids, syntheticResults, List.map_map, List.filter_map]
  rfl

/-- The results of a repaired run are one for each declared id. -/
theorem answers_perm (head : Option ConversationItem) (h : (declaredIds head).Nodup)
    (run : List ToolResultItem) :
    (ids (answers head run)).Perm (declaredIds head) := by
  have hids : ids (answers head run) = ids (kept head run) ++
      (declaredIds head).filter fun id => id ∉ ids (kept head run) := by
    rw [ids, answers, fillRun, List.map_append]
    congr 1
    exact ids_syntheticResults historyRepair (declared head) (kept head run)
  have hnodup : (ids (answers head run)).Nodup := by
    rw [hids]
    apply List.Nodup.append (kept_nodup head run) (h.filter _)
    intro id hid hid'
    exact of_decide_eq_true (List.mem_filter.mp hid').2 hid
  rw [List.perm_ext_iff_of_nodup hnodup h]
  intro id
  rw [hids, List.mem_append, List.mem_filter]
  constructor
  · rintro (hid | hid)
    · exact kept_declared hid
    · exact hid.1
  · intro hid
    by_cases hk : id ∈ ids (kept head run)
    · exact Or.inl hk
    · exact Or.inr ⟨hid, by simpa using hk⟩

/-- The result of a declared id that survives is the last one of the run. -/
theorem last_mem_answers {id : Str} (hid : id ∈ declaredIds head) {r : ToolResultItem}
    (hr : (run.filter fun r => r.toolCallId = id).getLast? = some r) : r ∈ answers head run := by
  have hne : declared head ≠ [] := by
    intro hnil
    simp [declaredIds, hnil] at hid
  have hkey : r.toolCallId = id := by
    have := List.mem_filter.mp (List.mem_of_getLast? hr)
    simpa using this.2
  have hmem : r ∈ keepLastResults run := by
    have hfilter : (keepLastResults run).filter (fun r => r.toolCallId = id) =
        (run.filter fun r => r.toolCallId = id).getLast?.toList := filter_keepLast run id
    rw [hr] at hfilter
    have : r ∈ (keepLastResults run).filter fun r => r.toolCallId = id := by
      rw [hfilter]
      simp
    exact List.mem_of_mem_filter this
  rw [answers, fillRun, List.mem_append]
  left
  rw [kept, dedupRun, if_neg hne, stripRun, List.mem_filter]
  exact ⟨hmem, by rw [hkey]; simpa using hid⟩

/-! ## A run that answers what is declared is left alone -/

theorem dedupRun_eq_self (h : (ids run).Nodup) : dedupRun head run = run := by
  unfold dedupRun
  split_ifs
  · rfl
  · exact keepLast_eq_self h

theorem stripRun_eq_self (h : ∀ id ∈ ids run, id ∈ declaredIds head) : stripRun head run = run := by
  apply List.filter_eq_self.mpr
  intro r hr
  simpa using h _ (List.mem_map_of_mem hr)

theorem fillRun_eq_self {reason : DanglingToolCallReason}
    (h : ∀ id ∈ declaredIds head, id ∈ ids run) : fillRun reason head run = run := by
  have hnil : (declared head).filter (fun c => c.id ∉ ids run) = [] := by
    apply List.filter_eq_nil_iff.mpr
    intro c hc
    simpa using h _ (List.mem_map_of_mem hc)
  rw [fillRun, syntheticResults, hnil]
  simp

/-! ## A repair without changes -/

variable {items : List ConversationItem}

theorem dedup_sublist (items : List ConversationItem) :
    (dedupDuplicateToolResults items).1.Sublist items := by
  rw [dedup_eq_mapRuns]
  apply results.mapRuns_sublist
  intro head run
  unfold dedupRun
  split_ifs
  · exact List.Sublist.refl _
  · exact keepLast_sublist run

theorem strip_sublist (items : List ConversationItem) :
    (stripDisplacedToolResults items).1.Sublist items := by
  rw [strip_eq_mapRuns]
  exact results.mapRuns_sublist (fun _ _ => List.filter_sublist) items

theorem sublist_repairDangling (items : List ConversationItem) (reason : DanglingToolCallReason) :
    items.Sublist (repairDanglingToolCalls items reason).1 := by
  rw [repairDangling_eq_mapRuns]
  exact results.sublist_mapRuns (fun _ _ => List.sublist_append_left _ _) items

/-- A repair that reports no change has changed nothing. -/
theorem repairHistory_eq_self (h : (repairHistory items).2.changed = false) :
    (repairHistory items).1 = items := by
  obtain ⟨deduped, hdeduped⟩ : ∃ x, (dedupDuplicateToolResults items).1 = x := ⟨_, rfl⟩
  obtain ⟨stripped, hstripped⟩ : ∃ x, (stripDisplacedToolResults deduped).1 = x := ⟨_, rfl⟩
  have hreport : (repairHistory items).2 = ⟨(dedupDuplicateToolResults items).2,
      (stripDisplacedToolResults deduped).2, (repairDanglingToolCalls stripped historyRepair).2⟩ := by
    rw [← hstripped, ← hdeduped]
    rfl
  have hitems : (repairHistory items).1 = (repairDanglingToolCalls stripped historyRepair).1 := by
    rw [← hstripped, ← hdeduped]
    rfl
  rw [hreport] at h
  simp only [HistoryRepairReport.changed, Bool.or_eq_false_iff, decide_eq_false_iff_not,
    Bool.not_eq_false', List.isEmpty_iff, Nat.not_lt, Nat.le_zero_eq] at h
  obtain ⟨⟨hremoved, hids⟩, hinserted⟩ := h
  have hdedup : deduped = items := by
    have hlen := dedup_length items
    rw [hremoved, hdeduped] at hlen
    rw [← hdeduped]
    exact (dedup_sublist items).eq_of_length (by rw [hdeduped]; exact hlen)
  have hstrip : stripped = deduped := by
    have hlen := strip_length [] deduped
    change (stripDisplacedToolResults deduped).1.length +
      (stripDisplacedToolResults deduped).2.length = deduped.length at hlen
    rw [hids, hstripped] at hlen
    rw [← hstripped]
    exact (strip_sublist deduped).eq_of_length (by rw [hstripped]; exact hlen)
  have hfill := repairDangling_length historyRepair stripped
  rw [hinserted, Nat.add_zero] at hfill
  rw [hitems, ← (sublist_repairDangling stripped historyRepair).eq_of_length hfill.symm, hstrip,
    hdedup]

/-! ## Repaired histories -/

/-- Every tool result is in the run after its declaring item, and each run answers what its
item declares. -/
structure WellPaired (items : List ConversationItem) : Prop where
  lead : (results.sections items).1 = []
  runs : ∀ s ∈ (results.sections items).2, (ids s.2).Perm (declaredIds (some s.1))
  distinct : ∀ s ∈ (results.sections items).2, (declaredIds (some s.1)).Nodup

/-- No assistant item repeats a tool-call id. -/
def DistinctIds (items : List ConversationItem) : Prop :=
  ∀ a, .assistant a ∈ items → (a.toolCalls.map ToolCall.id).Nodup

theorem mem_of_mem_sections {s : ConversationItem × List ToolResultItem}
    (h : s ∈ (results.sections items).2) : s.1 ∈ items := by
  have hmem : s.1 ∈ (results.sections items).2.map (·.1) := List.mem_map_of_mem h
  rw [results.heads_eq_filter] at hmem
  exact List.mem_of_mem_filter hmem

theorem DistinctIds.nodup (h : DistinctIds items) {s : ConversationItem × List ToolResultItem}
    (hs : s ∈ (results.sections items).2) : (declaredIds (some s.1)).Nodup := by
  have hmem := mem_of_mem_sections hs
  cases hx : s.1 with
  | assistant a =>
    rw [hx] at hmem
    exact h a hmem
  | _ => exact List.nodup_nil

theorem sections_repairHistory (items : List ConversationItem) :
    results.sections (repairHistory items).1 =
      ([], (results.sections items).2.map fun s => (s.1, answers (some s.1) s.2)) := by
  have hlead : answers none (results.sections items).1 = [] := by
    have hperm := answers_perm none List.nodup_nil (results.sections items).1
    exact List.map_eq_nil_iff.mp hperm.eq_nil
  rw [repairHistory_eq_mapRuns, Followers.sections_mapRuns, hlead]

theorem repairHistory_wellPaired (h : DistinctIds items) : WellPaired (repairHistory items).1 := by
  have hsections := sections_repairHistory items
  refine ⟨by rw [hsections], ?_, ?_⟩
  · rw [hsections]
    intro s hs
    obtain ⟨s', hs', rfl⟩ := List.mem_map.mp hs
    exact answers_perm (some s'.1) (h.nodup hs') s'.2
  · rw [hsections]
    intro s hs
    obtain ⟨s', hs', rfl⟩ := List.mem_map.mp hs
    have hnodup := h.nodup hs'
    exact hnodup

namespace WellPaired

variable (h : WellPaired items)
include h

theorem ids_nodup {s : ConversationItem × List ToolResultItem}
    (hs : s ∈ (results.sections items).2) : (ids s.2).Nodup :=
  (h.runs s hs).nodup_iff.mpr (h.distinct s hs)

theorem dedup_eq : (dedupDuplicateToolResults items).1 = items := by
  rw [dedup_eq_mapRuns]
  apply results.mapRuns_eq_self
  · rw [h.lead]
    rfl
  · intro s hs
    exact dedupRun_eq_self (h.ids_nodup hs)

theorem strip_eq : (stripDisplacedToolResults items).1 = items := by
  rw [strip_eq_mapRuns]
  apply results.mapRuns_eq_self
  · rw [h.lead]
    rfl
  · intro s hs
    exact stripRun_eq_self fun id hid => (h.runs s hs).mem_iff.mp hid

theorem repairDangling_eq (reason : DanglingToolCallReason) :
    (repairDanglingToolCalls items reason).1 = items := by
  rw [repairDangling_eq_mapRuns]
  apply results.mapRuns_eq_self
  · rw [h.lead]
    rfl
  · intro s hs
    exact fillRun_eq_self fun id hid => (h.runs s hs).mem_iff.mpr hid

/-- A second repair finds nothing to do. -/
theorem repairHistory_unchanged : (repairHistory items).2.changed = false := by
  have hdedup := dedup_length items
  have hstrip := strip_length [] items
  have hrepair := repairDangling_length historyRepair items
  change (stripDisplacedToolResults items).1.length +
    (stripDisplacedToolResults items).2.length = items.length at hstrip
  rw [h.dedup_eq] at hdedup
  rw [h.strip_eq] at hstrip
  rw [h.repairDangling_eq] at hrepair
  have hremoved : (dedupDuplicateToolResults items).2 = 0 := by omega
  have hstripped : (stripDisplacedToolResults items).2 = [] :=
    List.eq_nil_of_length_eq_zero (by omega)
  have hinserted : (repairDanglingToolCalls items historyRepair).2 = 0 := by omega
  have hreport : (repairHistory items).2 = ⟨0, [], 0⟩ := by
    simp only [repairHistory, h.dedup_eq, h.strip_eq, hremoved, hstripped]
    rw [show DanglingToolCallReason.harnessHalted "history_repair".toList = historyRepair from rfl,
      hinserted]
  rw [hreport]
  rfl

theorem not_dangling : hasDanglingToolCalls items = false := by
  apply hasDangling_eq_false
  intro s hs c hc
  exact (h.runs s hs).mem_iff.mpr (List.mem_map_of_mem hc)

end WellPaired

end GrokBuild.Chat
