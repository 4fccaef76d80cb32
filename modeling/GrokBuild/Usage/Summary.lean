import GrokBuild.Text.Str
import Mathlib.Algebra.BigOperators.Group.List.Basic
import Mathlib.Algebra.BigOperators.Group.Finset.Piecewise
import Mathlib.Algebra.Order.BigOperators.Group.Finset
import Mathlib.Data.List.Nodup
import Mathlib.Order.Lattice

/-!
# Summaries of usage

`session/usage_file.rs`: the counters of a session, a turn or a model, with the operations that
saturate at the ends of 64 bits. A cost that is not positive is not reported.
-/

namespace GrokBuild.Usage

open GrokBuild.Text

section Numbers

def u64Max : ℕ := 2 ^ 64 - 1

def i64Max : ℤ := 2 ^ 63 - 1

def i64Min : ℤ := -2 ^ 63

def u64SaturatingAdd (a b : ℕ) : ℕ := min (a + b) u64Max

/-- `i64` saturated at both ends. -/
def i64Saturated (a : ℤ) : ℤ := max i64Min (min a i64Max)

def reportedCostTicks (raw : Option ℤ) : Option ℤ := raw.filter (0 < ·)

def mergeCostTicks : Option ℤ → Option ℤ → Option ℤ
  | none, none => none
  | a, b => reportedCostTicks (some (i64Saturated (a.getD 0 + b.getD 0)))

def subCostTicks : Option ℤ → Option ℤ → Option ℤ
  | none, _ => none
  | some live, none => reportedCostTicks (some live)
  | some live, some previous => reportedCostTicks (some (i64Saturated (live - previous)))

end Numbers

section Data

/-- The counters of a summary, and what a row of a model has. -/
structure UsageRow where
  inputTokens : ℕ := 0
  outputTokens : ℕ := 0
  cachedReadTokens : ℕ := 0
  cacheCreationTokens : ℕ := 0
  reasoningTokens : ℕ := 0
  totalTokens : ℕ := 0
  modelCalls : ℕ := 0
  costUsdTicks : Option ℤ := none
  costIsPartial : Bool := false
  usageIsIncomplete : Bool := false
deriving DecidableEq

instance : Inhabited UsageRow := ⟨{}⟩

/-- `IndexMap<String, _>`: the rows of the models in the order in which they came, one a model. -/
structure ByModel (β : Type) where
  rows : List (Str × β) := []
  nodup : (rows.map Prod.fst).Nodup := by simp
deriving DecidableEq

/-- The row of a model, or the default where there is none. -/
def ByModel.row {β : Type} [Inhabited β] (usage : ByModel β) (model : Str) : β :=
  (usage.rows.lookup model).getD default

abbrev ModelUsage := ByModel UsageRow

structure UsageSummary extends UsageRow where
  turnCount : ℕ := 0
  primaryModelId : Option Str := none
  modelUsage : ModelUsage := {}
deriving DecidableEq

end Data

section Rows

def UsageRow.saturatingAddRow (a b : UsageRow) : UsageRow where
  inputTokens := u64SaturatingAdd a.inputTokens b.inputTokens
  outputTokens := u64SaturatingAdd a.outputTokens b.outputTokens
  cachedReadTokens := u64SaturatingAdd a.cachedReadTokens b.cachedReadTokens
  cacheCreationTokens := u64SaturatingAdd a.cacheCreationTokens b.cacheCreationTokens
  reasoningTokens := u64SaturatingAdd a.reasoningTokens b.reasoningTokens
  totalTokens := u64SaturatingAdd a.totalTokens b.totalTokens
  modelCalls := u64SaturatingAdd a.modelCalls b.modelCalls
  costUsdTicks := mergeCostTicks a.costUsdTicks b.costUsdTicks
  costIsPartial := a.costIsPartial || b.costIsPartial
  usageIsIncomplete := a.usageIsIncomplete || b.usageIsIncomplete

def UsageRow.saturatingSubRow (a b : UsageRow) : UsageRow where
  inputTokens := a.inputTokens - b.inputTokens
  outputTokens := a.outputTokens - b.outputTokens
  cachedReadTokens := a.cachedReadTokens - b.cachedReadTokens
  cacheCreationTokens := a.cacheCreationTokens - b.cacheCreationTokens
  reasoningTokens := a.reasoningTokens - b.reasoningTokens
  totalTokens := a.totalTokens - b.totalTokens
  modelCalls := a.modelCalls - b.modelCalls
  costUsdTicks := subCostTicks a.costUsdTicks b.costUsdTicks
  costIsPartial := a.costIsPartial || b.costIsPartial
  usageIsIncomplete := a.usageIsIncomplete

/-- The sum of the tokens is not looked at. -/
def UsageRow.isZero (row : UsageRow) : Bool :=
  row.inputTokens = 0 && row.outputTokens = 0 && row.cachedReadTokens = 0 &&
    row.cacheCreationTokens = 0 && row.reasoningTokens = 0 && row.modelCalls = 0 &&
    row.costUsdTicks.isNone

variable {β : Type} [Inhabited β]

/-- `entry(model).or_default()`, and the entry replaced by what is made of it. -/
def upsert (model : Str) (f : β → β) : List (Str × β) → List (Str × β)
  | [] => [(model, f default)]
  | (model', row) :: rows =>
    if model' = model then (model, f row) :: rows else (model', row) :: upsert model f rows

theorem map_fst_upsert (model : Str) (f : β → β) (rows : List (Str × β)) :
    (upsert model f rows).map Prod.fst =
      if model ∈ rows.map Prod.fst then rows.map Prod.fst else rows.map Prod.fst ++ [model] := by
  induction rows with
  | nil => rfl
  | cons entry rows ih =>
    obtain ⟨model', row⟩ := entry
    rw [upsert]
    by_cases heq : model' = model
    · rw [if_pos heq]
      simp [heq]
    · rw [if_neg heq, List.map_cons, ih, List.map_cons]
      by_cases hmem : model ∈ rows.map Prod.fst
      · rw [if_pos hmem, if_pos (List.mem_cons_of_mem _ hmem)]
      · rw [if_neg hmem, if_neg, List.cons_append]
        rw [List.mem_cons, not_or]
        exact ⟨fun h => heq h.symm, hmem⟩

def ByModel.upsert (usage : ByModel β) (model : Str) (f : β → β) : ByModel β where
  rows := Usage.upsert model f usage.rows
  nodup := by
    rw [map_fst_upsert]
    split
    · exact usage.nodup
    · next hnew =>
      refine List.nodup_append.2 ⟨usage.nodup, by simp, fun a ha b hb heq => hnew ?_⟩
      rwa [← List.mem_singleton.1 hb, ← heq]

end Rows

section Summaries

def ByModel.saturatingAdd (a b : ModelUsage) : ModelUsage :=
  b.rows.foldl (fun usage entry => usage.upsert entry.1 (·.saturatingAddRow entry.2)) a

/-- Rows that are zero are dropped. -/
def ByModel.saturatingSub (a b : ModelUsage) : ModelUsage where
  rows := (a.rows.map fun entry => (entry.1, entry.2.saturatingSubRow (b.row entry.1))).filter
    fun entry => !entry.2.isZero
  nodup := by
    refine List.Nodup.sublist ((List.filter_sublist ..).map Prod.fst) ?_
    rw [List.map_map]
    exact a.nodup

/-- `max_by_key` takes the last of the highest. -/
def primaryModel (usage : ModelUsage) : Option Str :=
  (usage.rows.foldl (fun (best : Option (Str × UsageRow)) entry =>
    match best with
    | none => some entry
    | some b =>
      if b.2.modelCalls < entry.2.modelCalls ∨
          (b.2.modelCalls = entry.2.modelCalls ∧ b.2.totalTokens ≤ entry.2.totalTokens) then
        some entry
      else some b) none).map (·.1)

namespace UsageSummary

/-- Nothing that a ledger counts main-loop calls by shrank. -/
def covers (a previous : UsageSummary) : Bool :=
  previous.inputTokens ≤ a.inputTokens && previous.outputTokens ≤ a.outputTokens &&
    previous.modelCalls ≤ a.modelCalls

def saturatingAdd (a b : UsageSummary) : UsageSummary :=
  let modelUsage := a.modelUsage.saturatingAdd b.modelUsage
  { toUsageRow := a.saturatingAddRow b.toUsageRow
    primaryModelId := primaryModel modelUsage
    modelUsage
    turnCount := u64SaturatingAdd a.turnCount b.turnCount }

def saturatingSub (a b : UsageSummary) : UsageSummary :=
  let modelUsage := a.modelUsage.saturatingSub b.modelUsage
  { toUsageRow := a.saturatingSubRow b.toUsageRow
    primaryModelId := primaryModel modelUsage
    modelUsage }

end UsageSummary

end Summaries

/-! ## Counters -/

section Counters

inductive Counter where
  | inputTokens
  | outputTokens
  | cachedReadTokens
  | cacheCreationTokens
  | reasoningTokens
  | totalTokens
  | modelCalls
  | costUsdTicks
deriving DecidableEq

/-- An absent cost is zero. -/
def UsageRow.get (row : UsageRow) : Counter → ℤ
  | .inputTokens => row.inputTokens
  | .outputTokens => row.outputTokens
  | .cachedReadTokens => row.cachedReadTokens
  | .cacheCreationTokens => row.cacheCreationTokens
  | .reasoningTokens => row.reasoningTokens
  | .totalTokens => row.totalTokens
  | .modelCalls => row.modelCalls
  | .costUsdTicks => row.costUsdTicks.getD 0

def Counter.limit : Counter → ℤ
  | .costUsdTicks => i64Max
  | _ => u64Max

theorem Counter.limit_nonneg (c : Counter) : 0 ≤ c.limit := by
  cases c <;> decide

/-- The cost is not negative. -/
def UsageRow.Priced (row : UsageRow) : Prop := 0 ≤ row.costUsdTicks.getD 0

theorem UsageRow.get_nonneg {row : UsageRow} (h : row.Priced) (c : Counter) : 0 ≤ row.get c := by
  cases c with
  | costUsdTicks => exact h
  | inputTokens => exact Int.natCast_nonneg _
  | outputTokens => exact Int.natCast_nonneg _
  | cachedReadTokens => exact Int.natCast_nonneg _
  | cacheCreationTokens => exact Int.natCast_nonneg _
  | reasoningTokens => exact Int.natCast_nonneg _
  | totalTokens => exact Int.natCast_nonneg _
  | modelCalls => exact Int.natCast_nonneg _

theorem get_zero (c : Counter) : (default : UsageRow).get c = 0 := by
  cases c <;> rfl

theorem reportedCostTicks_getD {a : ℤ} (h : 0 ≤ a) : (reportedCostTicks (some a)).getD 0 = a := by
  rw [reportedCostTicks, Option.filter_some]
  by_cases hpos : 0 < a
  · simp [hpos]
  · have hzero : a = 0 := by omega
    simp [hzero]

theorem i64Saturated_eq {a : ℤ} (h : 0 ≤ a) (hle : a ≤ i64Max) : i64Saturated a = a := by
  have hmin : i64Min ≤ 0 := by decide
  rw [i64Saturated, min_eq_left hle, max_eq_right (hmin.trans h)]

theorem mergeCostTicks_getD {a b : Option ℤ} (ha : 0 ≤ a.getD 0) (hb : 0 ≤ b.getD 0)
    (hfits : a.getD 0 + b.getD 0 ≤ i64Max) : (mergeCostTicks a b).getD 0 = a.getD 0 + b.getD 0 := by
  have hsum : (reportedCostTicks (some (i64Saturated (a.getD 0 + b.getD 0)))).getD 0 =
      a.getD 0 + b.getD 0 := by
    rw [i64Saturated_eq (add_nonneg ha hb) hfits, reportedCostTicks_getD (add_nonneg ha hb)]
  cases a with
  | none =>
    cases b with
    | none => rfl
    | some b => exact hsum
  | some a => exact hsum

theorem subCostTicks_getD {a b : Option ℤ} (hb : 0 ≤ b.getD 0) (hle : b.getD 0 ≤ a.getD 0)
    (hfits : a.getD 0 ≤ i64Max) : (subCostTicks a b).getD 0 = a.getD 0 - b.getD 0 := by
  cases a with
  | none =>
    have hnone : b.getD 0 = 0 := le_antisymm hle hb
    rw [hnone]
    rfl
  | some a =>
    cases b with
    | none =>
      have hpos : 0 ≤ a := hle
      rw [subCostTicks, reportedCostTicks_getD hpos]
      exact (sub_zero a).symm
    | some b =>
      have hdiff : 0 ≤ a - b := sub_nonneg.2 hle
      have hmax : a - b ≤ i64Max := (sub_le_self a hb).trans hfits
      rw [subCostTicks, i64Saturated_eq hdiff hmax, reportedCostTicks_getD hdiff]
      rfl

theorem u64SaturatingAdd_cast {a b : ℕ} (h : (a : ℤ) + b ≤ u64Max) :
    ((u64SaturatingAdd a b : ℕ) : ℤ) = a + b := by
  rw [u64SaturatingAdd, Nat.min_eq_left (by omega)]
  omega

/-- Where nothing overflows the sum of two rows is their sum. -/
theorem get_saturatingAddRow {a b : UsageRow} (ha : a.Priced) (hb : b.Priced) {c : Counter}
    (hfits : a.get c + b.get c ≤ c.limit) : (a.saturatingAddRow b).get c = a.get c + b.get c := by
  cases c with
  | inputTokens => exact u64SaturatingAdd_cast hfits
  | outputTokens => exact u64SaturatingAdd_cast hfits
  | cachedReadTokens => exact u64SaturatingAdd_cast hfits
  | cacheCreationTokens => exact u64SaturatingAdd_cast hfits
  | reasoningTokens => exact u64SaturatingAdd_cast hfits
  | totalTokens => exact u64SaturatingAdd_cast hfits
  | modelCalls => exact u64SaturatingAdd_cast hfits
  | costUsdTicks => exact mergeCostTicks_getD ha hb hfits

/-- Where the first row has at least the second, what is left is the difference. -/
theorem get_saturatingSubRow {a b : UsageRow} {c : Counter} (hb : 0 ≤ b.get c)
    (hle : b.get c ≤ a.get c) (hfits : a.get c ≤ c.limit) :
    (a.saturatingSubRow b).get c = a.get c - b.get c := by
  cases c with
  | inputTokens => exact Int.ofNat_sub (Int.ofNat_le.1 hle)
  | outputTokens => exact Int.ofNat_sub (Int.ofNat_le.1 hle)
  | cachedReadTokens => exact Int.ofNat_sub (Int.ofNat_le.1 hle)
  | cacheCreationTokens => exact Int.ofNat_sub (Int.ofNat_le.1 hle)
  | reasoningTokens => exact Int.ofNat_sub (Int.ofNat_le.1 hle)
  | totalTokens => exact Int.ofNat_sub (Int.ofNat_le.1 hle)
  | modelCalls => exact Int.ofNat_sub (Int.ofNat_le.1 hle)
  | costUsdTicks => exact subCostTicks_getD hb hle hfits

/-- The total is that of the input and the output. -/
def UsageRow.Totalled (row : UsageRow) : Prop :=
  row.totalTokens = row.inputTokens + row.outputTokens

/-- A row that counts as zero is zero in every counter. -/
theorem get_of_isZero {row : UsageRow} (htotal : row.Totalled) (hzero : row.isZero = true)
    (c : Counter) : row.get c = 0 := by
  simp only [UsageRow.isZero, Bool.and_eq_true, decide_eq_true_eq,
    Option.isNone_iff_eq_none] at hzero
  obtain ⟨⟨⟨⟨⟨⟨hinput, houtput⟩, hcached⟩, hcreation⟩, hreasoning⟩, hcalls⟩, hcost⟩ := hzero
  cases c with
  | inputTokens => exact congrArg Int.ofNat hinput
  | outputTokens => exact congrArg Int.ofNat houtput
  | cachedReadTokens => exact congrArg Int.ofNat hcached
  | cacheCreationTokens => exact congrArg Int.ofNat hcreation
  | reasoningTokens => exact congrArg Int.ofNat hreasoning
  | modelCalls => exact congrArg Int.ofNat hcalls
  | costUsdTicks => exact congrArg (Option.getD · 0) hcost
  | totalTokens =>
    rw [UsageRow.Totalled, hinput, houtput] at htotal
    exact congrArg Int.ofNat htotal

theorem UsageRow.Totalled.sub {a b : UsageRow} (ha : a.Totalled) (hb : b.Totalled)
    (hinput : b.inputTokens ≤ a.inputTokens) (houtput : b.outputTokens ≤ a.outputTokens) :
    (a.saturatingSubRow b).Totalled := by
  show a.totalTokens - b.totalTokens =
    a.inputTokens - b.inputTokens + (a.outputTokens - b.outputTokens)
  rw [ha, hb]
  omega

end Counters

/-! ## Rows of models -/

section ModelRows

variable {β : Type} [Inhabited β]

theorem lookup_upsert (model m : Str) (f : β → β) (rows : List (Str × β)) :
    ((upsert model f rows).lookup m).getD default =
      if m = model then f ((rows.lookup model).getD default)
      else (rows.lookup m).getD default := by
  induction rows with
  | nil =>
    by_cases heq : m = model
    · simp [upsert, heq]
    · simp [upsert, List.lookup_cons, heq, beq_eq_false_iff_ne.2 heq]
  | cons entry rows ih =>
    obtain ⟨model', row⟩ := entry
    rw [upsert]
    by_cases hmodel : model' = model
    · rw [if_pos hmodel, hmodel]
      by_cases heq : m = model
      · simp [heq]
      · simp [List.lookup_cons, heq, beq_eq_false_iff_ne.2 heq]
    · rw [if_neg hmodel]
      by_cases heq : m = model'
      · have hne : m ≠ model := fun h => hmodel (heq ▸ h)
        simp [heq, hmodel]
      · rw [List.lookup_cons, beq_eq_false_iff_ne.2 heq]
        dsimp only
        rw [ih, List.lookup_cons, List.lookup_cons, beq_eq_false_iff_ne.2 heq,
          beq_eq_false_iff_ne.2 fun h => hmodel h.symm]

theorem row_upsert (usage : ByModel β) (model m : Str) (f : β → β) :
    (usage.upsert model f).row m = if m = model then f (usage.row model) else usage.row m :=
  lookup_upsert model m f usage.rows

/-- The models that have a row. -/
def ByModel.models (usage : ByModel β) : Finset Str := (usage.rows.map Prod.fst).toFinset

theorem lookup_of_notMem {β : Type} {model : Str} {rows : List (Str × β)}
    (h : model ∉ rows.map Prod.fst) : rows.lookup model = none := by
  rw [List.lookup_eq_none_iff]
  intro entry hentry
  rw [bne_iff_ne]
  exact fun heq => h (heq ▸ List.mem_map_of_mem hentry)

theorem row_of_notMem {usage : ByModel β} {model : Str} (h : model ∉ usage.models) :
    usage.row model = default := by
  rw [ByModel.models, List.mem_toFinset] at h
  rw [ByModel.row, lookup_of_notMem h, Option.getD_none]

/-- Where a default row counts nothing, a sum may be taken over more models. -/
theorem sum_rows (usage : ByModel β) (g : β → ℤ) (hzero : g default = 0) {names : Finset Str}
    (h : usage.models ⊆ names) :
    ∑ model ∈ names, g (usage.row model) = ∑ model ∈ usage.models, g (usage.row model) := by
  refine (Finset.sum_subset h fun model _ hnew => ?_).symm
  rw [row_of_notMem hnew]
  exact hzero

theorem models_upsert (usage : ByModel β) (model : Str) (f : β → β) :
    (usage.upsert model f).models = insert model usage.models := by
  show ((upsert model f usage.rows).map Prod.fst).toFinset = insert model usage.models
  rw [map_fst_upsert]
  by_cases hmem : model ∈ usage.rows.map Prod.fst
  · rw [if_pos hmem]
    exact (Finset.insert_eq_of_mem (List.mem_toFinset.2 hmem)).symm
  · rw [if_neg hmem, List.toFinset_append, Finset.union_comm]
    rfl

theorem sum_upsert (usage : ByModel β) {g : β → ℤ} (hzero : g default = 0) {model : Str}
    {f : β → β} {d : ℤ} (hf : g (f (usage.row model)) = g (usage.row model) + d) :
    ∑ m ∈ (usage.upsert model f).models, g ((usage.upsert model f).row m) =
      ∑ m ∈ usage.models, g (usage.row m) + d := by
  have hrow : ∀ m, g ((usage.upsert model f).row m) =
      g (usage.row m) + if m = model then d else 0 := by
    intro m
    rw [row_upsert]
    by_cases heq : m = model
    · rw [if_pos heq, if_pos heq, heq, hf]
    · rw [if_neg heq, if_neg heq, add_zero]
  rw [models_upsert, Finset.sum_congr rfl fun m _ => hrow m, Finset.sum_add_distrib,
    sum_rows usage g hzero (Finset.subset_insert model usage.models),
    Finset.sum_ite_eq', if_pos (Finset.mem_insert_self model usage.models)]

/-- Rows folded in one after another, where no model comes twice. -/
theorem row_foldl_upsert (g : β → β → β) (rows : List (Str × β))
    (hnodup : (rows.map Prod.fst).Nodup) (usage : ByModel β) (m : Str) :
    (rows.foldl (fun usage entry => usage.upsert entry.1 (g · entry.2)) usage).row m =
      if m ∈ rows.map Prod.fst then g (usage.row m) ((rows.lookup m).getD default)
      else usage.row m := by
  induction rows generalizing usage with
  | nil => rfl
  | cons entry rows ih =>
    obtain ⟨model, row⟩ := entry
    obtain ⟨hnew, hrows⟩ := List.nodup_cons.1 hnodup
    rw [List.foldl_cons, ih hrows, row_upsert, List.map_cons]
    by_cases heq : m = model
    · have hlookup : (((model, row) :: rows).lookup m).getD default = row := by simp [heq]
      rw [if_neg (heq ▸ hnew), if_pos heq, if_pos (List.mem_cons.2 (Or.inl heq)), hlookup, heq]
    · have hlookup : ((model, row) :: rows).lookup m = rows.lookup m := by
        rw [List.lookup_cons, beq_eq_false_iff_ne.2 heq]
      have hmem : m ∈ model :: rows.map Prod.fst ↔ m ∈ rows.map Prod.fst := by simp [heq]
      rw [if_neg heq, hlookup]
      by_cases hrow : m ∈ rows.map Prod.fst
      · rw [if_pos hrow, if_pos (hmem.2 hrow)]
      · rw [if_neg hrow, if_neg (hrow ∘ hmem.1)]

theorem row_saturatingAdd (a b : ModelUsage) (m : Str) :
    (a.saturatingAdd b).row m =
      if m ∈ b.models then (a.row m).saturatingAddRow (b.row m) else a.row m := by
  have hrow := row_foldl_upsert UsageRow.saturatingAddRow b.rows b.nodup a m
  rw [ByModel.saturatingAdd, hrow, ByModel.models]
  simp only [List.mem_toFinset]
  rfl

theorem lookup_map_filter (rows : List (Str × UsageRow)) (hnodup : (rows.map Prod.fst).Nodup)
    (g : Str → UsageRow → UsageRow) (keeps : UsageRow → Bool) (m : Str) :
    (((rows.map fun entry => (entry.1, g entry.1 entry.2)).filter fun entry =>
      keeps entry.2).lookup m).getD default =
      match rows.lookup m with
      | none => default
      | some row => if keeps (g m row) then g m row else default := by
  induction rows with
  | nil => rfl
  | cons entry rows ih =>
    obtain ⟨model, row⟩ := entry
    obtain ⟨hnew, hrows⟩ := List.nodup_cons.1 hnodup
    rw [List.map_cons, List.filter_cons]
    by_cases heq : m = model
    · have hnone : rows.lookup m = none := lookup_of_notMem (heq ▸ hnew)
      rw [hnone] at ih
      by_cases hkeeps : keeps (g model row) = true
      · simp [heq, hkeeps]
      · rw [if_neg hkeeps, ih hrows, heq, List.lookup_cons_self]
        dsimp only
        rw [if_neg hkeeps]
    · have hlookup : ((model, row) :: rows).lookup m = rows.lookup m := by
        rw [List.lookup_cons, beq_eq_false_iff_ne.2 heq]
      rw [hlookup]
      by_cases hkeeps : keeps (g model row) = true
      · rw [if_pos hkeeps, List.lookup_cons, beq_eq_false_iff_ne.2 heq]
        exact ih hrows
      · rw [if_neg hkeeps]
        exact ih hrows

theorem row_saturatingSub (a b : ModelUsage) (m : Str) :
    (a.saturatingSub b).row m =
      if m ∈ a.models ∧ ((a.row m).saturatingSubRow (b.row m)).isZero = false then
        (a.row m).saturatingSubRow (b.row m)
      else default := by
  have hrow := lookup_map_filter a.rows a.nodup
    (fun model row => row.saturatingSubRow (b.row model)) (fun row => !row.isZero) m
  rw [ByModel.saturatingSub, ByModel.row, hrow]
  by_cases hmem : m ∈ a.models
  · have hsome : (a.rows.lookup m).isSome := by
      rw [ByModel.models, List.mem_toFinset, List.mem_map] at hmem
      rw [List.lookup_isSome_iff]
      obtain ⟨entry, hentry, hkey⟩ := hmem
      exact ⟨entry, hentry, beq_iff_eq.2 hkey.symm⟩
    obtain ⟨row, hrow⟩ := Option.isSome_iff_exists.1 hsome
    have hget : a.row m = row := by rw [ByModel.row, hrow, Option.getD_some]
    rw [hrow, hget]
    simp [hmem]
  · have hnone : a.rows.lookup m = none :=
      lookup_of_notMem fun h => hmem (List.mem_toFinset.2 h)
    rw [hnone, if_neg fun h => hmem h.1]

end ModelRows

/-! ## What a summary counts -/

section Buckets

/-- A counter of the whole or of a model. -/
inductive Bucket where
  | whole (c : Counter)
  | model (name : Str) (c : Counter)
deriving DecidableEq

def Bucket.limit : Bucket → ℤ
  | whole c => c.limit
  | model _ c => c.limit

def UsageSummary.count (usage : UsageSummary) : Bucket → ℤ
  | .whole c => usage.get c
  | .model name c => (usage.modelUsage.row name).get c

theorem Bucket.limit_nonneg (x : Bucket) : 0 ≤ x.limit := by
  cases x with
  | whole c => exact c.limit_nonneg
  | model name c => exact c.limit_nonneg

/-- A model without a row counts nothing. -/
theorem count_of_notMem {usage : UsageSummary} {name : Str} (h : name ∉ usage.modelUsage.models)
    (c : Counter) : usage.count (.model name c) = 0 := by
  rw [UsageSummary.count, row_of_notMem h]
  exact get_zero c

/-- No cost is negative. -/
structure UsageSummary.Priced (usage : UsageSummary) : Prop where
  whole : usage.toUsageRow.Priced
  rows : ∀ model, (usage.modelUsage.row model).Priced

theorem UsageSummary.count_nonneg {usage : UsageSummary} (h : usage.Priced) (b : Bucket) :
    0 ≤ usage.count b := by
  cases b with
  | whole c => exact UsageRow.get_nonneg h.whole c
  | model name c => exact UsageRow.get_nonneg (h.rows name) c

theorem count_default (b : Bucket) : ({} : UsageSummary).count b = 0 := by
  cases b with
  | whole c => exact get_zero c
  | model name c => exact get_zero c

theorem priced_default : ({} : UsageSummary).Priced :=
  ⟨le_refl 0, fun _ => le_refl 0⟩

/-- Where nothing overflows a sum counts what its parts count. -/
theorem count_saturatingAdd {a b : UsageSummary} (ha : a.Priced) (hb : b.Priced) {x : Bucket}
    (hfits : a.count x + b.count x ≤ x.limit) :
    (a.saturatingAdd b).count x = a.count x + b.count x := by
  cases x with
  | whole c => exact get_saturatingAddRow ha.whole hb.whole hfits
  | model name c =>
    show ((a.modelUsage.saturatingAdd b.modelUsage).row name).get c = _
    rw [row_saturatingAdd]
    by_cases hmem : name ∈ b.modelUsage.models
    · rw [if_pos hmem]
      exact get_saturatingAddRow (ha.rows name) (hb.rows name) hfits
    · rw [if_neg hmem, count_of_notMem hmem, add_zero]
      rfl

theorem UsageSummary.Priced.add {a b : UsageSummary} (ha : a.Priced) (hb : b.Priced)
    (hfits : ∀ x, a.count x + b.count x ≤ x.limit) : (a.saturatingAdd b).Priced := by
  have hcount : ∀ x, 0 ≤ (a.saturatingAdd b).count x := by
    intro x
    rw [count_saturatingAdd ha hb (hfits x)]
    exact add_nonneg (count_nonneg ha x) (count_nonneg hb x)
  exact ⟨hcount (.whole .costUsdTicks), fun model => hcount (.model model .costUsdTicks)⟩

/-- The summary of a ledger: its tokens are totalled and its rows add up to the whole. -/
structure UsageSummary.Balanced (usage : UsageSummary) : Prop extends usage.Priced where
  totalled : usage.toUsageRow.Totalled
  rowsTotalled : ∀ model, (usage.modelUsage.row model).Totalled
  balanced : ∀ c, usage.get c =
    ∑ model ∈ usage.modelUsage.models, (usage.modelUsage.row model).get c

/-- A balanced summary that counts as zero is zero in every bucket. -/
theorem UsageSummary.Balanced.count_of_isZero {usage : UsageSummary} (h : usage.Balanced)
    (hzero : usage.isZero = true) (x : Bucket) : usage.count x = 0 := by
  have hwhole : ∀ c, usage.get c = 0 := get_of_isZero h.totalled hzero
  cases x with
  | whole c => exact hwhole c
  | model name c =>
    by_cases hmem : name ∈ usage.modelUsage.models
    · have hsum := h.balanced c
      rw [hwhole] at hsum
      have hnonneg : ∀ model ∈ usage.modelUsage.models, 0 ≤ (usage.modelUsage.row model).get c :=
        fun model _ => UsageRow.get_nonneg (h.rows model) c
      exact (Finset.sum_eq_zero_iff_of_nonneg hnonneg).1 hsum.symm name hmem
    · exact count_of_notMem hmem c

theorem models_saturatingSub_subset (a b : ModelUsage) :
    (a.saturatingSub b).models ⊆ a.models := by
  intro model hmem
  rw [ByModel.models, List.mem_toFinset] at hmem ⊢
  have hsub := (List.filter_sublist (p := fun entry : Str × UsageRow => !entry.2.isZero)
    (l := a.rows.map fun entry => (entry.1, entry.2.saturatingSubRow (b.row entry.1)))).map Prod.fst
  rw [List.map_map] at hsub
  exact hsub.subset hmem

/-- What a grown summary counts more than the one before. -/
theorem count_saturatingSub {a b : UsageSummary} (ha : a.Balanced) (hb : b.Balanced)
    (hle : ∀ x, b.count x ≤ a.count x) (hfits : ∀ x, a.count x ≤ x.limit) (x : Bucket) :
    (a.saturatingSub b).count x = a.count x - b.count x := by
  cases x with
  | whole c =>
    exact get_saturatingSubRow (UsageRow.get_nonneg hb.whole c) (hle (.whole c)) (hfits (.whole c))
  | model name c =>
    have hget : ∀ c, ((a.modelUsage.row name).saturatingSubRow (b.modelUsage.row name)).get c =
        a.count (.model name c) - b.count (.model name c) := fun c =>
      get_saturatingSubRow (UsageRow.get_nonneg (hb.rows name) c) (hle (.model name c))
        (hfits (.model name c))
    show ((a.modelUsage.saturatingSub b.modelUsage).row name).get c = _
    rw [row_saturatingSub]
    by_cases hmem : name ∈ a.modelUsage.models
    · by_cases hzero : ((a.modelUsage.row name).saturatingSubRow (b.modelUsage.row name)).isZero
      · -- a dropped row has nothing in it, the sum of its tokens included
        have htotal := (ha.rowsTotalled name).sub (hb.rowsTotalled name)
          (Int.ofNat_le.1 (hle (.model name .inputTokens)))
          (Int.ofNat_le.1 (hle (.model name .outputTokens)))
        rw [if_neg fun h => Bool.false_ne_true (h.2.symm.trans hzero), ← hget c,
          get_of_isZero htotal hzero c]
        exact get_zero c
      · rw [if_pos ⟨hmem, Bool.eq_false_iff.2 hzero⟩]
        exact hget c
    · have hnone := count_of_notMem hmem c
      have hb0 := UsageSummary.count_nonneg hb.toPriced (.model name c)
      have hba := hle (.model name c)
      have hsub : a.count (.model name c) - b.count (.model name c) = 0 := by omega
      rw [if_neg fun h => hmem h.1, hsub]
      exact get_zero c

/-- What a ledger grew by is balanced as the ledger is. -/
theorem UsageSummary.Balanced.sub {a b : UsageSummary} (ha : a.Balanced) (hb : b.Balanced)
    (hle : ∀ x, b.count x ≤ a.count x) (hfits : ∀ x, a.count x ≤ x.limit) :
    (a.saturatingSub b).Balanced := by
  have hcount := count_saturatingSub ha hb hle hfits
  have hnonneg : ∀ x, 0 ≤ (a.saturatingSub b).count x := by
    intro x
    rw [hcount]
    exact sub_nonneg.2 (hle x)
  refine ⟨⟨hnonneg (.whole .costUsdTicks), fun model => hnonneg (.model model .costUsdTicks)⟩,
    ha.totalled.sub hb.totalled (Int.ofNat_le.1 (hle (.whole .inputTokens)))
      (Int.ofNat_le.1 (hle (.whole .outputTokens))), fun model => ?_, fun c => ?_⟩
  · show ((a.modelUsage.saturatingSub b.modelUsage).row model).Totalled
    rw [row_saturatingSub]
    by_cases hrow : model ∈ a.modelUsage.models ∧
        ((a.modelUsage.row model).saturatingSubRow (b.modelUsage.row model)).isZero = false
    · rw [if_pos hrow]
      exact (ha.rowsTotalled model).sub (hb.rowsTotalled model)
        (Int.ofNat_le.1 (hle (.model model .inputTokens)))
        (Int.ofNat_le.1 (hle (.model model .outputTokens)))
    · rw [if_neg hrow]
      rfl
  · -- all three sums are taken over the models of both summaries
    have hleft : a.modelUsage.models ⊆ a.modelUsage.models ∪ b.modelUsage.models :=
      Finset.subset_union_left
    have ha' := sum_rows a.modelUsage (·.get c) (get_zero c) hleft
    have hb' := sum_rows b.modelUsage (·.get c) (get_zero c)
      (Finset.subset_union_right : _ ⊆ a.modelUsage.models ∪ _)
    have hd' := sum_rows (a.modelUsage.saturatingSub b.modelUsage) (·.get c) (get_zero c)
      ((models_saturatingSub_subset a.modelUsage b.modelUsage).trans hleft)
    have hwhole : (a.saturatingSub b).get c = a.get c - b.get c := hcount (.whole c)
    calc (a.saturatingSub b).get c
        = ∑ model ∈ a.modelUsage.models ∪ b.modelUsage.models, (a.modelUsage.row model).get c -
            ∑ model ∈ a.modelUsage.models ∪ b.modelUsage.models,
              (b.modelUsage.row model).get c := by
          rw [hwhole, ha.balanced, hb.balanced, ha', hb']
      _ = ∑ model ∈ a.modelUsage.models ∪ b.modelUsage.models,
            ((a.modelUsage.saturatingSub b.modelUsage).row model).get c := by
          rw [← Finset.sum_sub_distrib]
          exact Finset.sum_congr rfl fun model _ => (hcount (.model model c)).symm
      _ = _ := hd'

end Buckets

end GrokBuild.Usage
