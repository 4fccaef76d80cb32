import Mathlib
import GrokBuild.Usage.Summary

/-!
# Ledgers

`usage.rs` of the chat state: what the calls of a session used, whole and by model. The summary
that is taken of a ledger is balanced as long as nothing overflowed in it.
-/

namespace GrokBuild.Usage

open GrokBuild.Text

section Data

/-- What a call reports. Every number has 32 bits. -/
structure TokenUsage where
  promptTokens : ℕ
  completionTokens : ℕ
  reasoningTokens : ℕ
  cachedPromptTokens : ℕ
  cacheCreationPromptTokens : ℕ

structure UsageTotals where
  inputTokens : ℕ := 0
  outputTokens : ℕ := 0
  cachedReadTokens : ℕ := 0
  cacheCreationTokens : ℕ := 0
  reasoningTokens : ℕ := 0
  modelCalls : ℕ := 0
  costUsdTicks : Option ℤ := none
  costMissingCalls : ℕ := 0

instance : Inhabited UsageTotals := ⟨{}⟩

structure UsageLedger where
  totals : UsageTotals := {}
  byModel : ByModel UsageTotals := {}
  mainLoopModelCalls : ℕ := 0
  incomplete : Bool := false

end Data

namespace UsageTotals

def fromCall (usage : TokenUsage) (costUsdTicks : Option ℤ) : UsageTotals :=
  let costUsdTicks := reportedCostTicks costUsdTicks
  { inputTokens := usage.promptTokens
    outputTokens := usage.completionTokens
    cachedReadTokens := usage.cachedPromptTokens
    cacheCreationTokens := usage.cacheCreationPromptTokens
    reasoningTokens := usage.reasoningTokens
    modelCalls := 1
    costUsdTicks
    costMissingCalls := if costUsdTicks.isNone then 1 else 0 }

def totalTokens (totals : UsageTotals) : ℕ :=
  u64SaturatingAdd totals.inputTokens totals.outputTokens

def costIsPartial (totals : UsageTotals) : Bool :=
  totals.costUsdTicks.isSome && 0 < totals.costMissingCalls

/-- `merge_cost_ticks` of the ledger, which reports what it has. -/
def mergeCosts : Option ℤ → Option ℤ → Option ℤ
  | none, none => none
  | a, b => some (i64Saturated (a.getD 0 + b.getD 0))

def foldTotals (a b : UsageTotals) : UsageTotals where
  inputTokens := u64SaturatingAdd a.inputTokens b.inputTokens
  outputTokens := u64SaturatingAdd a.outputTokens b.outputTokens
  cachedReadTokens := u64SaturatingAdd a.cachedReadTokens b.cachedReadTokens
  cacheCreationTokens := u64SaturatingAdd a.cacheCreationTokens b.cacheCreationTokens
  reasoningTokens := u64SaturatingAdd a.reasoningTokens b.reasoningTokens
  modelCalls := u64SaturatingAdd a.modelCalls b.modelCalls
  costMissingCalls := u64SaturatingAdd a.costMissingCalls b.costMissingCalls
  costUsdTicks := mergeCosts a.costUsdTicks b.costUsdTicks

end UsageTotals

namespace UsageLedger

def foldEntry (ledger : UsageLedger) (modelId : Str) (totals : UsageTotals) : UsageLedger :=
  { ledger with
    totals := ledger.totals.foldTotals totals
    byModel := ledger.byModel.upsert modelId (·.foldTotals totals) }

def recordMainLoopCall (ledger : UsageLedger) (modelId : Str) (usage : TokenUsage)
    (costUsdTicks : Option ℤ) : UsageLedger :=
  { ledger with
    mainLoopModelCalls := u64SaturatingAdd ledger.mainLoopModelCalls 1 }.foldEntry modelId
      (UsageTotals.fromCall usage costUsdTicks)

def recordSubagent (ledger : UsageLedger) (byModel : List (Str × UsageTotals))
    (incomplete : Bool) : UsageLedger :=
  let folded := byModel.foldl (fun ledger entry => ledger.foldEntry entry.1 entry.2) ledger
  if incomplete then { folded with incomplete := true } else folded

def markIncomplete (ledger : UsageLedger) : UsageLedger := { ledger with incomplete := true }

end UsageLedger

section Summaries

def fromTotals (totals : UsageTotals) (incomplete : Bool) : UsageRow where
  inputTokens := totals.inputTokens
  outputTokens := totals.outputTokens
  cachedReadTokens := totals.cachedReadTokens
  cacheCreationTokens := totals.cacheCreationTokens
  reasoningTokens := totals.reasoningTokens
  totalTokens := totals.totalTokens
  modelCalls := totals.modelCalls
  costUsdTicks := totals.costUsdTicks
  costIsPartial := totals.costIsPartial
  usageIsIncomplete := incomplete

def ByModel.map {β γ : Type} (usage : ByModel β) (f : β → γ) : ByModel γ where
  rows := usage.rows.map fun entry => (entry.1, f entry.2)
  nodup := by
    rw [List.map_map]
    exact usage.nodup

def UsageSummary.fromLedger (ledger : UsageLedger) : UsageSummary :=
  let modelUsage := ledger.byModel.map (fromTotals · ledger.incomplete)
  { toUsageRow := fromTotals ledger.totals ledger.incomplete
    primaryModelId := primaryModel modelUsage
    modelUsage }

end Summaries

/-! ## Ledgers that did not overflow -/

section Recorded

/-- The total is not cut off here. -/
def UsageTotals.get (totals : UsageTotals) : Counter → ℤ
  | .inputTokens => totals.inputTokens
  | .outputTokens => totals.outputTokens
  | .cachedReadTokens => totals.cachedReadTokens
  | .cacheCreationTokens => totals.cacheCreationTokens
  | .reasoningTokens => totals.reasoningTokens
  | .totalTokens => totals.inputTokens + totals.outputTokens
  | .modelCalls => totals.modelCalls
  | .costUsdTicks => totals.costUsdTicks.getD 0

/-- The ledgers that calls and subagents made, where nothing went past 64 bits. -/
inductive UsageLedger.Recorded : UsageLedger → Prop
  | new : Recorded {}
  | mainLoop {ledger : UsageLedger} (modelId : Str) (usage : TokenUsage) (costUsdTicks : Option ℤ)
      (hledger : Recorded ledger)
      (hfits : ∀ c,
        ledger.totals.get c + (UsageTotals.fromCall usage costUsdTicks).get c ≤ c.limit) :
      Recorded (ledger.recordMainLoopCall modelId usage costUsdTicks)
  | subagent {ledger : UsageLedger} (byModel : List (Str × UsageTotals)) (incomplete : Bool)
      (hledger : Recorded ledger)
      (hpriced : ∀ entry ∈ byModel, 0 ≤ entry.2.costUsdTicks.getD 0)
      (hfits : ∀ c, ledger.totals.get c + (byModel.map fun entry => entry.2.get c).sum ≤ c.limit) :
      Recorded (ledger.recordSubagent byModel incomplete)
  | incomplete {ledger : UsageLedger} (hledger : Recorded ledger) : Recorded ledger.markIncomplete

theorem totals_get_zero (c : Counter) : (default : UsageTotals).get c = 0 := by
  cases c <;> rfl

theorem totals_get_nonneg {totals : UsageTotals} (h : 0 ≤ totals.costUsdTicks.getD 0)
    (c : Counter) : 0 ≤ totals.get c := by
  cases c with
  | costUsdTicks => exact h
  | totalTokens => exact add_nonneg (Int.natCast_nonneg _) (Int.natCast_nonneg _)
  | inputTokens => exact Int.natCast_nonneg _
  | outputTokens => exact Int.natCast_nonneg _
  | cachedReadTokens => exact Int.natCast_nonneg _
  | cacheCreationTokens => exact Int.natCast_nonneg _
  | reasoningTokens => exact Int.natCast_nonneg _
  | modelCalls => exact Int.natCast_nonneg _

theorem mergeCosts_getD {a b : Option ℤ} (ha : 0 ≤ a.getD 0) (hb : 0 ≤ b.getD 0)
    (hfits : a.getD 0 + b.getD 0 ≤ i64Max) :
    (UsageTotals.mergeCosts a b).getD 0 = a.getD 0 + b.getD 0 := by
  have hsum : i64Saturated (a.getD 0 + b.getD 0) = a.getD 0 + b.getD 0 :=
    i64Saturated_eq (add_nonneg ha hb) hfits
  cases a with
  | none =>
    cases b with
    | none => rfl
    | some b => exact hsum
  | some a => exact hsum

theorem get_foldTotals {a b : UsageTotals} (ha : 0 ≤ a.costUsdTicks.getD 0)
    (hb : 0 ≤ b.costUsdTicks.getD 0) (hfits : ∀ c, a.get c + b.get c ≤ c.limit) (c : Counter) :
    (a.foldTotals b).get c = a.get c + b.get c := by
  have hinput := u64SaturatingAdd_cast (hfits .inputTokens)
  have houtput := u64SaturatingAdd_cast (hfits .outputTokens)
  cases c with
  | inputTokens => exact hinput
  | outputTokens => exact houtput
  | cachedReadTokens => exact u64SaturatingAdd_cast (hfits .cachedReadTokens)
  | cacheCreationTokens => exact u64SaturatingAdd_cast (hfits .cacheCreationTokens)
  | reasoningTokens => exact u64SaturatingAdd_cast (hfits .reasoningTokens)
  | modelCalls => exact u64SaturatingAdd_cast (hfits .modelCalls)
  | costUsdTicks => exact mergeCosts_getD ha hb (hfits .costUsdTicks)
  | totalTokens =>
    show ((u64SaturatingAdd a.inputTokens b.inputTokens : ℕ) : ℤ) +
      (u64SaturatingAdd a.outputTokens b.outputTokens : ℕ) =
        a.inputTokens + a.outputTokens + (b.inputTokens + b.outputTokens)
    rw [hinput, houtput]
    omega

/-- The rows add up to the totals, which fit. -/
structure UsageLedger.Balanced (ledger : UsageLedger) : Prop where
  priced : ∀ model, 0 ≤ (ledger.byModel.row model).costUsdTicks.getD 0
  balanced : ∀ c, ledger.totals.get c =
    ∑ model ∈ ledger.byModel.models, (ledger.byModel.row model).get c
  fits : ∀ c, ledger.totals.get c ≤ c.limit

namespace UsageLedger.Balanced

variable {ledger : UsageLedger}

theorem row_le (h : ledger.Balanced) (model : Str) (c : Counter) :
    (ledger.byModel.row model).get c ≤ ledger.totals.get c := by
  rw [h.balanced]
  by_cases hmem : model ∈ ledger.byModel.models
  · exact Finset.single_le_sum (fun m _ => totals_get_nonneg (h.priced m) c) hmem
  · rw [row_of_notMem hmem, totals_get_zero]
    exact Finset.sum_nonneg fun m _ => totals_get_nonneg (h.priced m) c

theorem totals_priced (h : ledger.Balanced) : 0 ≤ ledger.totals.costUsdTicks.getD 0 := by
  have hcost : ledger.totals.costUsdTicks.getD 0 = _ := h.balanced .costUsdTicks
  rw [hcost]
  exact Finset.sum_nonneg fun m _ => totals_get_nonneg (h.priced m) .costUsdTicks

theorem foldEntry (h : ledger.Balanced) (modelId : Str) {totals : UsageTotals}
    (hpriced : 0 ≤ totals.costUsdTicks.getD 0)
    (hfits : ∀ c, ledger.totals.get c + totals.get c ≤ c.limit) :
    (ledger.foldEntry modelId totals).Balanced ∧
      ∀ c, (ledger.foldEntry modelId totals).totals.get c = ledger.totals.get c + totals.get c := by
  have htotals := get_foldTotals h.totals_priced hpriced hfits
  have hrow : ∀ c, ((ledger.byModel.row modelId).foldTotals totals).get c =
      (ledger.byModel.row modelId).get c + totals.get c :=
    get_foldTotals (h.priced modelId) hpriced fun c =>
      (Int.add_le_add_right (h.row_le modelId c) _).trans (hfits c)
  refine ⟨⟨fun model => ?_, fun c => ?_, fun c => ?_⟩, htotals⟩
  · show 0 ≤ ((ledger.byModel.upsert modelId (·.foldTotals totals)).row model).costUsdTicks.getD 0
    rw [row_upsert]
    by_cases heq : model = modelId
    · have hcost := hrow .costUsdTicks
      rw [if_pos heq]
      exact (add_nonneg (h.priced modelId) hpriced).trans_eq hcost.symm
    · rw [if_neg heq]
      exact h.priced model
  · show (ledger.totals.foldTotals totals).get c = _
    rw [htotals, h.balanced]
    exact (sum_upsert ledger.byModel (g := (·.get c)) (totals_get_zero c) (hrow c)).symm
  · exact (htotals c).trans_le (hfits c)

theorem foldEntries (entries : List (Str × UsageTotals)) {ledger : UsageLedger}
    (h : ledger.Balanced) (hpriced : ∀ entry ∈ entries, 0 ≤ entry.2.costUsdTicks.getD 0)
    (hfits : ∀ c, ledger.totals.get c + (entries.map fun entry => entry.2.get c).sum ≤ c.limit) :
    (entries.foldl (fun ledger entry => ledger.foldEntry entry.1 entry.2) ledger).Balanced := by
  induction entries generalizing ledger with
  | nil => exact h
  | cons entry entries ih =>
    have hentry := hpriced entry List.mem_cons_self
    have hrest : ∀ e ∈ entries, 0 ≤ e.2.costUsdTicks.getD 0 :=
      fun e he => hpriced e (List.mem_cons_of_mem _ he)
    have hnonneg : ∀ c, 0 ≤ (entries.map fun e => e.2.get c).sum := by
      intro c
      refine List.sum_nonneg fun n hn => ?_
      obtain ⟨e, he, rfl⟩ := List.mem_map.1 hn
      exact totals_get_nonneg (hrest e he) c
    have hstep := h.foldEntry entry.1 hentry fun c => by
      have hc := hfits c
      have hn := hnonneg c
      rw [List.map_cons, List.sum_cons] at hc
      omega
    refine ih hstep.1 hrest fun c => ?_
    have hc := hfits c
    rw [List.map_cons, List.sum_cons] at hc
    rw [hstep.2 c]
    omega

end UsageLedger.Balanced

theorem UsageLedger.Recorded.balanced {ledger : UsageLedger} (h : ledger.Recorded) :
    ledger.Balanced := by
  induction h with
  | new =>
    refine ⟨fun _ => le_refl 0, fun c => totals_get_zero c, fun c => ?_⟩
    exact (totals_get_zero c).trans_le c.limit_nonneg
  | @mainLoop ledger modelId usage costUsdTicks hledger hfits ih =>
    have hpriced : 0 ≤ (reportedCostTicks costUsdTicks).getD 0 := by
      rw [reportedCostTicks]
      cases costUsdTicks with
      | none => exact le_refl 0
      | some cost =>
        rw [Option.filter_some]
        by_cases hpos : 0 < cost
        · simp [hpos, hpos.le]
        · simp [hpos]
    have hcalls : UsageLedger.Balanced { ledger with
        mainLoopModelCalls := u64SaturatingAdd ledger.mainLoopModelCalls 1 } :=
      ⟨ih.priced, ih.balanced, ih.fits⟩
    exact (hcalls.foldEntry modelId hpriced hfits).1
  | subagent byModel incomplete hledger hpriced hfits ih =>
    have hfold := UsageLedger.Balanced.foldEntries byModel ih hpriced hfits
    rw [recordSubagent]
    cases incomplete with
    | false => exact hfold
    | true => exact ⟨hfold.priced, hfold.balanced, hfold.fits⟩
  | incomplete hledger ih => exact ⟨ih.priced, ih.balanced, ih.fits⟩

theorem get_fromTotals {totals : UsageTotals} (incomplete : Bool)
    (hfits : totals.get .totalTokens ≤ Counter.limit .totalTokens) (c : Counter) :
    (fromTotals totals incomplete).get c = totals.get c := by
  cases c with
  | totalTokens => exact u64SaturatingAdd_cast hfits
  | inputTokens => rfl
  | outputTokens => rfl
  | cachedReadTokens => rfl
  | cacheCreationTokens => rfl
  | reasoningTokens => rfl
  | modelCalls => rfl
  | costUsdTicks => rfl

theorem models_map {β γ : Type} (usage : ByModel β) (f : β → γ) :
    (usage.map f).models = usage.models := by
  rw [ByModel.models, ByModel.map, List.map_map]
  rfl

theorem lookup_map {β γ : Type} (rows : List (Str × β)) (f : β → γ) (model : Str) :
    (rows.map fun entry => (entry.1, f entry.2)).lookup model = (rows.lookup model).map f := by
  induction rows with
  | nil => rfl
  | cons entry rows ih =>
    rw [List.map_cons, List.lookup_cons, List.lookup_cons, ih]
    cases model == entry.1 <;> rfl

theorem get_row_map (usage : ByModel UsageTotals) {incomplete : Bool} {model : Str}
    (hfits : (usage.row model).get .totalTokens ≤ Counter.limit .totalTokens) (c : Counter) :
    ((usage.map (fromTotals · incomplete)).row model).get c = (usage.row model).get c := by
  have hlookup : (usage.map (fromTotals · incomplete)).rows.lookup model =
      (usage.rows.lookup model).map (fromTotals · incomplete) :=
    lookup_map usage.rows (fromTotals · incomplete) model
  rw [ByModel.row, ByModel.row, hlookup]
  rw [ByModel.row] at hfits
  cases hrow : usage.rows.lookup model with
  | none => exact (get_zero c).trans (totals_get_zero c).symm
  | some totals =>
    rw [hrow] at hfits
    exact get_fromTotals incomplete hfits c

theorem totalled_of_get {row : UsageRow}
    (h : row.get .totalTokens = row.get .inputTokens + row.get .outputTokens) : row.Totalled :=
  Int.ofNat.inj h

/-- What is taken of a ledger counts what the ledger has, and is balanced. -/
theorem UsageLedger.Recorded.fromLedger {ledger : UsageLedger} (h : ledger.Recorded) :
    (UsageSummary.fromLedger ledger).Balanced ∧
      ∀ x, (UsageSummary.fromLedger ledger).count x ≤ x.limit := by
  have hledger := h.balanced
  have hwhole : ∀ c, (UsageSummary.fromLedger ledger).get c = ledger.totals.get c :=
    get_fromTotals ledger.incomplete (hledger.fits .totalTokens)
  have hrow : ∀ model c, ((UsageSummary.fromLedger ledger).modelUsage.row model).get c =
      (ledger.byModel.row model).get c := fun model c =>
    get_row_map ledger.byModel
      ((hledger.row_le model .totalTokens).trans (hledger.fits .totalTokens)) c
  refine ⟨⟨⟨?_, fun model => ?_⟩, ?_, fun model => ?_, fun c => ?_⟩, fun x => ?_⟩
  · exact hledger.totals_priced
  · exact (hledger.priced model).trans_eq (hrow model .costUsdTicks).symm
  · refine totalled_of_get ?_
    rw [hwhole, hwhole, hwhole]
    rfl
  · refine totalled_of_get ?_
    rw [hrow, hrow, hrow]
    rfl
  · rw [hwhole, hledger.balanced]
    show _ = ∑ model ∈ (ledger.byModel.map (fromTotals · ledger.incomplete)).models, _
    rw [models_map]
    exact Finset.sum_congr rfl fun model _ => (hrow model c).symm
  · cases x with
    | whole c => exact (hwhole c).trans_le (hledger.fits c)
    | model name c => exact (hrow name c).trans_le ((hledger.row_le name c).trans (hledger.fits c))

end Recorded

end GrokBuild.Usage
