import Mathlib
import GrokBuild.Compaction.Select

/-!
# Fitting the input of the summarizer

A ladder of stages, each tried only where the ones before leave too much: drop the oldest history,
shorten oversized tool results, drop the oldest steps, and at last keep the newest item alone.
-/

namespace GrokBuild.Compaction
open CompactionItemBuilder

inductive FitRung where
  | verbatim
  | historyTurnSelected
  | toolTruncated
  | stepTurnsSelected
  | emergency
deriving DecidableEq, Repr

structure FitPlan (T : Type) where
  llmTurns : List T
  tokensRaw : ℕ
  tokensFit : ℕ
  rung : FitRung
  itemsTruncated : ℕ
  historyTurnsOmitted : ℕ
  stepTurnsOmitted : ℕ

/-- `n as u32`. -/
def asU32 (n : ℕ) : ℕ := n % 2 ^ 32

variable {T : Type} [CompactionItemBuilder T]

section

variable (counter : T → ℕ)

def sumTokens (turns : List T) : ℕ := sumCounts (turns.map counter)

def isOversizedToolResult (maxTokens : ℕ) (item : T) : Bool :=
  isToolResult item && decide (maxTokens < counter item)

def shrinkOversizedToolResults (turns : List T) (maxTokens : ℕ) : List T × ℕ :=
  (turns.map fun item =>
      if isOversizedToolResult counter maxTokens item then
        truncatePayloadForCompaction item maxTokens
      else item,
    turns.countP (isOversizedToolResult counter maxTokens))

/-- The newest turns within the budget, and how many older ones are left out. -/
def keepRecentUnderBudget (turns : List T) (counts : List ℕ) (budget : ℕ) :
    Option (List T × ℕ) :=
  if turns = [] then some ([], 0)
  else if budget = 0 then some ([], asU32 turns.length)
  else if sumCounts counts ≤ budget then some (turns, 0)
  else
    (selectTurnsToCompact counts turns budget 0).map fun plan =>
      (turns.drop plan.splitIdx, asU32 plan.splitIdx)

/-- Turns with their counts, and how many were left out. -/
structure Remaining (T : Type) where
  turns : List T
  counts : List ℕ
  omitted : ℕ

def dropAll (turns : List T) : Remaining T := ⟨[], [], asU32 turns.length⟩

/-- Drops the oldest turns where they and the `others` are over the budget. -/
def dropOldest (turns : List T) (counts : List ℕ) (others budget : ℕ) : Remaining T :=
  if others < budget then
    if budget - others < sumCounts counts then
      match keepRecentUnderBudget turns counts (budget - others) with
      | some (keep, omitted) => ⟨keep, counts.drop omitted, omitted⟩
      | none => dropAll turns
    else ⟨turns, counts, 0⟩
  else dropAll turns

def planOk (history steps : List T) (tokensRaw : ℕ) (rung : FitRung)
    (itemsTruncated historyTurnsOmitted stepTurnsOmitted : ℕ) : FitPlan T where
  llmTurns := history ++ steps
  tokensRaw := tokensRaw
  tokensFit := sumTokens counter (history ++ steps)
  rung := rung
  itemsTruncated := itemsTruncated
  historyTurnsOmitted := historyTurnsOmitted
  stepTurnsOmitted := stepTurnsOmitted

/-- The items that the newest one is taken from, with what is left out but for it. -/
def emergencySource (history steps : List T) (hist step : Remaining T) : List T × ℕ × ℕ :=
  let combined := hist.turns ++ step.turns
  if combined.isEmpty then
    let all := history ++ steps
    if steps.isEmpty then (all, asU32 (history.length - 1), 0)
    else (all, asU32 history.length, asU32 (steps.length - 1))
  else if step.turns.isEmpty then
    (combined, saturatingAdd hist.omitted (asU32 (hist.turns.length - 1)), step.omitted)
  else
    (combined, saturatingAdd hist.omitted (asU32 hist.turns.length),
      saturatingAdd step.omitted (asU32 (step.turns.length - 1)))

def emergency (history steps : List T) (hist step : Remaining T)
    (budget tokensRaw itemsTruncated : ℕ) : FitPlan T :=
  let (source, historyTurnsOmitted, stepTurnsOmitted) := emergencySource history steps hist step
  match source.getLast? with
  | none => ⟨[], tokensRaw, 0, .emergency, itemsTruncated, historyTurnsOmitted, stepTurnsOmitted⟩
  | some newest =>
    let last := [truncatePayloadForCompaction newest budget]
    ⟨last, tokensRaw, sumTokens counter last, .emergency, saturatingAdd itemsTruncated 1,
      historyTurnsOmitted, stepTurnsOmitted⟩

/-- The stages behind the selection of the history. -/
def fitShrunk (history steps : List T) (hist : Remaining T) (budget tokensRaw : ℕ) : FitPlan T :=
  let (hist2, n1) := shrinkOversizedToolResults counter hist.turns budget
  let (step2, n2) := shrinkOversizedToolResults counter steps budget
  let itemsTruncated := saturatingAdd (asU32 n1) (asU32 n2)
  let histCounts := hist2.map counter
  let stepCounts := step2.map counter
  if saturatingAdd (sumCounts histCounts) (sumCounts stepCounts) ≤ budget then
    planOk counter hist2 step2 tokensRaw .toolTruncated itemsTruncated hist.omitted 0
  else
    let step := dropOldest step2 stepCounts (sumCounts histCounts) budget
    if saturatingAdd (sumCounts histCounts) (sumCounts step.counts) ≤ budget ∧
        (hist2 ≠ [] ∨ step.turns ≠ []) then
      planOk counter hist2 step.turns tokensRaw .stepTurnsSelected itemsTruncated hist.omitted
        step.omitted
    else
      emergency counter history steps ⟨hist2, histCounts, hist.omitted⟩ step budget tokensRaw
        itemsTruncated

def fitTurnsForSummarizer (history steps : List T) (budget : ℕ) : FitPlan T :=
  let histCounts := history.map counter
  let stepCounts := steps.map counter
  let tokensRaw := saturatingAdd (sumCounts histCounts) (sumCounts stepCounts)
  if budget = 0 then
    ⟨[], tokensRaw, 0, .emergency, 0, asU32 history.length, asU32 steps.length⟩
  else if tokensRaw ≤ budget then
    planOk counter history steps tokensRaw .verbatim 0 0 0
  else
    let hist := dropOldest history histCounts (sumCounts stepCounts) budget
    if saturatingAdd (sumCounts hist.counts) (sumCounts stepCounts) ≤ budget then
      planOk counter hist.turns steps tokensRaw .historyTurnSelected 0 hist.omitted 0
    else fitShrunk counter history steps hist budget tokensRaw

end

/-! ## The stages -/

variable {counter : T → ℕ} {history steps turns : List T} {budget others : ℕ}

theorem asU32_of_lt {n : ℕ} (h : n < 2 ^ 32) : asU32 n = n := Nat.mod_eq_of_lt h

/-- What is left of the turns: the ones behind the first `omitted`. -/
structure Dropped (counter : T → ℕ) (turns : List T) (others budget : ℕ) (r : Remaining T) :
    Prop where
  le : r.omitted ≤ turns.length
  turns_eq : r.turns = turns.drop r.omitted
  counts_eq : r.counts = r.turns.map counter
  fits : others < budget → sumCounts r.counts ≤ budget - others
  none : budget ≤ others → r.turns = []
  safe : 0 < r.omitted → ∀ first, r.turns.head? = some first → isToolResult first = false

theorem dropped_all (hlen : turns.length < 2 ^ 32) :
    Dropped counter turns others budget (dropAll turns) := by
  have homitted : (dropAll turns).omitted = turns.length := asU32_of_lt hlen
  refine ⟨homitted.le, ?_, rfl, fun _ => Nat.zero_le _, fun _ => rfl, fun _ => nofun⟩
  rw [homitted, List.drop_length]
  rfl

theorem dropped_of_keepRecent {keep : List T} {omitted : ℕ} (hlen : turns.length < 2 ^ 32)
    (hless : others < budget)
    (h : keepRecentUnderBudget turns (turns.map counter) (budget - others) = some (keep, omitted)) :
    Dropped counter turns others budget ⟨keep, (turns.map counter).drop omitted, omitted⟩ := by
  unfold keepRecentUnderBudget at h
  split_ifs at h with hnil hzero hfits
  · obtain ⟨rfl, rfl⟩ := Prod.mk.inj (Option.some.inj h)
    subst hnil
    exact ⟨Nat.le_refl _, rfl, rfl, fun _ => Nat.zero_le _, fun _ => rfl, nofun⟩
  · exact absurd hzero (by omega)
  · obtain ⟨rfl, rfl⟩ := Prod.mk.inj (Option.some.inj h)
    exact ⟨Nat.zero_le _, rfl, rfl, fun _ => hfits, fun hle => absurd hless (by omega), nofun⟩
  · rw [Option.map_eq_some_iff] at h
    obtain ⟨plan, hplan, heq⟩ := h
    obtain ⟨candidate, hselected⟩ := selected_of_select (List.length_map _) hplan
    rw [asU32_of_lt (hselected.lt.trans hlen)] at heq
    obtain ⟨rfl, rfl⟩ := Prod.mk.inj heq
    refine ⟨hselected.lt.le, rfl, List.map_drop.symm, fun _ => ?_,
      fun hle => absurd hless (by omega), fun _ first hfirst => ?_⟩
    · exact sumCounts_le_of_sum hselected.kept_fits
    · rw [List.head?_drop] at hfirst
      exact hselected.safe first hfirst

theorem dropped_oldest (counter : T → ℕ) (others budget : ℕ) (hlen : turns.length < 2 ^ 32) :
    Dropped counter turns others budget
      (dropOldest turns (turns.map counter) others budget) := by
  unfold dropOldest
  split_ifs with hless hover
  · split
    · rename_i keep omitted hkeep
      exact dropped_of_keepRecent hlen hless hkeep
    · exact dropped_all hlen
  · exact ⟨Nat.zero_le _, rfl, rfl, fun _ => Nat.le_of_not_lt hover,
      fun hle => absurd hless (by omega), nofun⟩
  · exact dropped_all hlen

/-- Within the budget together with the others, if the others alone are. -/
theorem Dropped.total_le {r : Remaining T} (h : Dropped counter turns others budget r)
    (hle : others ≤ budget) : saturatingAdd (sumCounts r.counts) others ≤ budget := by
  rcases hle.lt_or_eq with hless | rfl
  · have hfits := h.fits hless
    unfold saturatingAdd
    omega
  · rw [h.counts_eq, h.none (Nat.le_refl _)]
    show min (0 + others) u32Max ≤ others
    omega

/-! ## What is fitted -/

/-- The same item, or what an oversized tool result is shortened to. -/
def Shortened (counter : T → ℕ) (budget : ℕ) (item item' : T) : Prop :=
  item' = item ∨ isOversizedToolResult counter budget item = true ∧
    item' = truncatePayloadForCompaction item budget

/-- Every tool result stands behind results of an assistant item with tool requests. -/
def Paired (turns : List T) : Prop :=
  ∀ front result back, turns = front ++ result :: back → isToolResult result = true →
    ∃ before owner results, front = before ++ owner :: results ∧
      CompactionItem.hasToolRequests owner = true ∧ ∀ r ∈ results, isToolResult r = true

theorem Paired.head (h : Paired turns) {first : T} (hfirst : turns.head? = some first) :
    isToolResult first = false := by
  rw [List.head?_eq_some_iff] at hfirst
  obtain ⟨rest, rfl⟩ := hfirst
  by_contra hresult
  rw [Bool.not_eq_false] at hresult
  obtain ⟨before, owner, results, hfront, -⟩ := h [] first rest rfl hresult
  exact List.cons_ne_nil _ _ (List.append_eq_nil_iff.mp hfront.symm).2

theorem shortened_map (counter : T → ℕ) (budget : ℕ) (turns : List T) :
    List.Forall₂ (Shortened counter budget) turns
      (shrinkOversizedToolResults counter turns budget).1 := by
  induction turns with
  | nil => exact .nil
  | cons item turns ih =>
    refine .cons ?_ ih
    dsimp only
    split_ifs with hover
    · exact .inr ⟨hover, rfl⟩
    · exact .inl rfl

theorem shortened_refl (counter : T → ℕ) (budget : ℕ) (turns : List T) :
    List.Forall₂ (Shortened counter budget) turns turns := by
  induction turns with
  | nil => exact .nil
  | cons item turns ih => exact .cons (.inl rfl) ih

/-- A part that starts with no tool result starts with none when its results are shortened. -/
theorem head_of_shortened {kept : List T} (h : List.Forall₂ (Shortened counter budget) turns kept)
    (hhead : ∀ first, turns.head? = some first → isToolResult first = false) :
    ∀ first, kept.head? = some first → isToolResult first = false := by
  intro first hfirst
  cases h with
  | nil => cases hfirst
  | cons hshort _ =>
    obtain rfl := Option.some.inj hfirst
    have hnot := hhead _ rfl
    obtain rfl | ⟨hover, -⟩ := hshort
    · exact hnot
    · rw [isOversizedToolResult, hnot] at hover
      cases hover

/-- A suffix of the history and a suffix of the steps with oversized tool results shortened, or in
an emergency the newest step alone, shortened whatever it is. -/
structure WellFitted (counter : T → ℕ) (history steps : List T) (budget : ℕ) (plan : FitPlan T) :
    Prop where
  tokens : plan.tokensFit = sumTokens counter plan.llmTurns
  fits : plan.rung ≠ .emergency → plan.tokensFit ≤ budget
  historyOmitted : plan.historyTurnsOmitted ≤ history.length
  stepsOmitted : plan.stepTurnsOmitted ≤ steps.length
  /-- No step is left out while a turn of the history is kept. -/
  history_first : 0 < plan.stepTurnsOmitted → plan.historyTurnsOmitted = history.length
  turns : ∃ kept, plan.llmTurns = history.drop plan.historyTurnsOmitted ++ kept ∧
    (plan.rung ≠ .emergency →
      List.Forall₂ (Shortened counter budget) (steps.drop plan.stepTurnsOmitted) kept ∧
      (Paired history → ∀ first, (history.drop plan.historyTurnsOmitted).head? = some first →
        isToolResult first = false) ∧
      (Paired steps → ∀ first, kept.head? = some first → isToolResult first = false)) ∧
    (plan.rung = .emergency → plan.historyTurnsOmitted = history.length ∧
      ∃ newest, steps.drop plan.stepTurnsOmitted = [newest] ∧
        kept = [truncatePayloadForCompaction newest budget])

theorem wellFitted_planOk {keptHistory keptSteps : List T} {rung : FitRung}
    {tokensRaw itemsTruncated i j : ℕ} (hrung : rung ≠ .emergency)
    (hfits : sumTokens counter (keptHistory ++ keptSteps) ≤ budget) (hi : i ≤ history.length)
    (hj : j ≤ steps.length) (hfirst : 0 < j → i = history.length)
    (hhistory : keptHistory = history.drop i)
    (hsafe : 0 < i → ∀ first, keptHistory.head? = some first → isToolResult first = false)
    (hsteps : List.Forall₂ (Shortened counter budget) (steps.drop j) keptSteps)
    (hsafe' : 0 < j → ∀ first, keptSteps.head? = some first → isToolResult first = false) :
    WellFitted counter history steps budget
      (planOk counter keptHistory keptSteps tokensRaw rung itemsTruncated i j) := by
  subst hhistory
  refine ⟨rfl, fun _ => hfits, hi, hj, hfirst, keptSteps, rfl, fun _ => ⟨hsteps, ?_, ?_⟩,
    fun h => absurd h hrung⟩
  · intro hpaired
    rcases Nat.eq_zero_or_pos i with rfl | hpos
    · exact fun first => hpaired.head
    · exact hsafe hpos
  · intro hpaired
    rcases Nat.eq_zero_or_pos j with rfl | hpos
    · exact head_of_shortened hsteps fun first => hpaired.head
    · exact hsafe' hpos

omit [CompactionItemBuilder T] in
theorem sumTokens_append (counter : T → ℕ) (xs ys : List T) :
    sumTokens counter (xs ++ ys) =
      saturatingAdd (sumCounts (xs.map counter)) (sumCounts (ys.map counter)) := by
  rw [sumTokens, List.map_append, sumCounts_eq, sumCounts_eq, sumCounts_eq, List.sum_append,
    saturatingAdd]
  omega

theorem emergency_of_steps (hist : Remaining T) {step : Remaining T} {tokensRaw itemsTruncated : ℕ}
    (hsteps : steps ≠ []) (hhist : hist.turns = []) (hstep : step.turns = [])
    (hlen : history.length < 2 ^ 32) (hlen' : steps.length < 2 ^ 32) :
    WellFitted counter history steps budget
      (emergency counter history steps hist step budget tokensRaw itemsTruncated) := by
  have hlast := List.getLast?_eq_some_getLast hsteps
  have hsource : emergencySource history steps hist step =
      (history ++ steps, history.length, steps.length - 1) := by
    have hempty : (hist.turns ++ step.turns).isEmpty = true := by
      rw [hhist, hstep]
      rfl
    have hsome : ¬ steps.isEmpty = true := by simpa using hsteps
    unfold emergencySource
    dsimp only
    rw [if_pos hempty, if_neg hsome, asU32_of_lt hlen,
      asU32_of_lt (lt_of_le_of_lt (Nat.sub_le _ 1) hlen')]
  unfold emergency
  rw [hsource]
  dsimp only
  rw [List.getLast?_append, hlast, Option.some_or]
  have hpos := List.length_pos_of_ne_nil hsteps
  refine ⟨rfl, fun h => absurd rfl h, Nat.le_refl _, Nat.sub_le _ _, fun _ => rfl, _, ?_,
    fun h => absurd rfl h, fun _ => ⟨rfl, steps.getLast hsteps, ?_, rfl⟩⟩
  · rw [List.drop_length]
    rfl
  · exact List.drop_length_sub_one hsteps

theorem fitShrunk_wellFitted {hist : Remaining T} {tokensRaw : ℕ} (hbudget : 0 < budget)
    (hhist : Dropped counter history (sumCounts (steps.map counter)) budget hist)
    (hmore : budget < sumCounts (steps.map counter))
    (hlen : history.length < 2 ^ 32) (hlen' : steps.length < 2 ^ 32) :
    WellFitted counter history steps budget
      (fitShrunk counter history steps hist budget tokensRaw) := by
  have hturns : hist.turns = [] := hhist.none hmore.le
  have homitted : history.drop hist.omitted = [] := hhist.turns_eq.symm.trans hturns
  have hall : hist.omitted = history.length :=
    Nat.le_antisymm hhist.le (List.drop_eq_nil_iff.mp homitted)
  have hsteps : steps ≠ [] := by
    rintro rfl
    exact absurd hmore (Nat.not_lt_zero _)
  have hstepLen : (shrinkOversizedToolResults counter steps budget).1.length = steps.length :=
    List.length_map _
  have hstep : Dropped counter (shrinkOversizedToolResults counter steps budget).1 0 budget
      (dropOldest _ ((shrinkOversizedToolResults counter steps budget).1.map counter) 0 budget) :=
    dropped_oldest counter 0 budget (by omega)
  have hshort := shortened_map counter budget steps
  have hnone : shrinkOversizedToolResults counter ([] : List T) budget = ([], 0) := rfl
  unfold fitShrunk
  rw [hturns, hnone]
  generalize shrinkOversizedToolResults counter steps budget = shrunk at hstepLen hstep hshort ⊢
  generalize hselect : dropOldest shrunk.1 (shrunk.1.map counter) 0 budget = step at hstep
  dsimp only
  split_ifs with hshrunk hselected
  · refine wellFitted_planOk nofun ?_ hhist.le (Nat.zero_le _) nofun homitted.symm
      (fun _ => nofun) hshort nofun
    exact (sumTokens_append counter [] shrunk.1).le.trans hshrunk
  · change WellFitted counter history steps budget (planOk counter [] (dropOldest shrunk.1
      (shrunk.1.map counter) 0 budget).turns _ _ _ _ (dropOldest shrunk.1
      (shrunk.1.map counter) 0 budget).omitted)
    rw [hselect]
    refine wellFitted_planOk nofun ?_ hhist.le (hstep.le.trans hstepLen.le) (fun _ => hall)
      homitted.symm (fun _ => nofun) ?_ hstep.safe
    · rw [sumTokens_append, ← hstep.counts_eq, List.map_nil]
      have hfits := hstep.fits hbudget
      show min (0 + _) u32Max ≤ budget
      omega
    · rw [hstep.turns_eq]
      exact List.forall₂_drop _ hshort
  · change WellFitted counter history steps budget (emergency counter history steps _
      (dropOldest shrunk.1 (shrunk.1.map counter) 0 budget) budget _ _)
    rw [hselect]
    refine emergency_of_steps _ hsteps rfl ?_ hlen hlen'
    by_contra hkept
    rw [← hselect] at hkept
    have hfits := hstep.fits hbudget
    rw [← hselect] at hfits
    refine hselected ⟨show min (0 + sumCounts (dropOldest shrunk.1 (shrunk.1.map counter) 0
      budget).counts) u32Max ≤ budget from ?_, .inr hkept⟩
    omega

theorem wellFitted_fit (counter : T → ℕ) (hbudget : 0 < budget)
    (hlen : history.length < 2 ^ 32) (hlen' : steps.length < 2 ^ 32) :
    WellFitted counter history steps budget
      (fitTurnsForSummarizer counter history steps budget) := by
  have hhist := dropped_oldest counter (sumCounts (steps.map counter)) budget hlen
  unfold fitTurnsForSummarizer
  dsimp only
  rw [if_neg hbudget.ne']
  split_ifs with hraw hselected
  · refine wellFitted_planOk nofun ?_ (Nat.zero_le _) (Nat.zero_le _) nofun rfl nofun
      (shortened_refl counter budget steps) nofun
    exact (sumTokens_append counter history steps).le.trans hraw
  · refine wellFitted_planOk nofun ?_ hhist.le (Nat.zero_le _) nofun hhist.turns_eq hhist.safe
      (shortened_refl counter budget steps) nofun
    rw [sumTokens_append, ← hhist.counts_eq]
    exact hselected
  · refine fitShrunk_wellFitted hbudget hhist ?_ hlen hlen'
    by_contra hle
    exact hselected (hhist.total_le (Nat.le_of_not_lt hle))

/-! ## What is never empty -/

theorem keepRecent_nonempty {i : ℕ} {item : T} (hmore : budget < sumCounts (turns.map counter))
    (hbudget : 0 < budget) (hitem : turns[i]? = some item) (hsafe : isToolResult item = false)
    (hfits : ((turns.drop i).map counter).sum ≤ budget) :
    ∃ keep omitted, keepRecentUnderBudget turns (turns.map counter) budget = some (keep, omitted) ∧
      keep ≠ [] := by
  have hne : turns ≠ [] := by
    rintro rfl
    cases hitem
  rw [List.map_drop] at hfits
  obtain ⟨plan, hplan⟩ := exists_select (List.length_map _) hmore hitem hsafe hfits
  obtain ⟨_, hselected⟩ := selected_of_select (List.length_map _) hplan
  unfold keepRecentUnderBudget
  rw [if_neg hne, if_neg hbudget.ne', if_neg (Nat.not_le_of_lt hmore), hplan]
  exact ⟨_, _, rfl, fun hnil => absurd hselected.lt (Nat.not_lt.mpr (List.drop_eq_nil_iff.mp hnil))⟩

theorem emergency_nonempty (hist step : Remaining T) {tokensRaw itemsTruncated : ℕ}
    (hsteps : steps ≠ []) : (emergency counter history steps hist step budget tokensRaw
      itemsTruncated).llmTurns ≠ [] := by
  have hsource : (emergencySource history steps hist step).1 ≠ [] := by
    unfold emergencySource
    dsimp only
    split_ifs with hempty
    · exact List.append_ne_nil_of_right_ne_nil _ hsteps
    · exact List.append_ne_nil_of_right_ne_nil _ hsteps
    · exact fun hnil => hempty (List.isEmpty_iff.mpr hnil)
    · exact fun hnil => hempty (List.isEmpty_iff.mpr hnil)
  unfold emergency
  dsimp only
  rw [List.getLast?_eq_some_getLast hsource]
  exact List.cons_ne_nil _ _

theorem fitShrunk_nonempty {hist : Remaining T} {tokensRaw : ℕ} (hhist : hist.turns = [])
    (hsteps : steps ≠ []) :
    (fitShrunk counter history steps hist budget tokensRaw).llmTurns ≠ [] := by
  have hshrunk : (shrinkOversizedToolResults counter steps budget).1 ≠ [] := by
    intro hnil
    have hlen := congrArg List.length hnil
    rw [shrinkOversizedToolResults, List.length_map, List.length_nil] at hlen
    exact hsteps (List.eq_nil_of_length_eq_zero hlen)
  unfold fitShrunk
  rw [hhist]
  dsimp only
  split_ifs with hfits hselected
  · exact List.append_ne_nil_of_right_ne_nil _ hshrunk
  · obtain hnone | hsome := hselected.2
    · exact absurd rfl hnone
    · exact List.append_ne_nil_of_right_ne_nil _ hsome
  · exact emergency_nonempty _ _ hsteps

/-- Something is kept if there are steps, or if a suffix of the history that starts with no tool
result fits. -/
theorem fit_nonempty (counter : T → ℕ) (hbudget : 0 < budget) (hlen : history.length < 2 ^ 32)
    (hsome : steps ≠ [] ∨ ∃ i item, history[i]? = some item ∧ isToolResult item = false ∧
      ((history.drop i).map counter).sum ≤ budget) :
    (fitTurnsForSummarizer counter history steps budget).llmTurns ≠ [] := by
  have hhist := dropped_oldest counter (sumCounts (steps.map counter)) budget hlen
  unfold fitTurnsForSummarizer
  dsimp only
  rw [if_neg hbudget.ne']
  rcases eq_or_ne steps [] with rfl | hsteps
  · obtain hnone | ⟨i, item, hitem, hsafe, hfits⟩ := hsome
    · exact absurd rfl hnone
    have hhistory : history ≠ [] := by
      rintro rfl
      cases hitem
    have hzero : sumCounts (([] : List T).map counter) = 0 := rfl
    rw [hzero] at hhist ⊢
    split_ifs with hraw hselected
    · exact List.append_ne_nil_of_left_ne_nil hhistory _
    · have hmore : budget < sumCounts (history.map counter) := by
        unfold saturatingAdd at hraw
        rw [sumCounts_eq] at hraw ⊢
        omega
      obtain ⟨keep, omitted, hkeep, hne⟩ := keepRecent_nonempty hmore hbudget hitem hsafe hfits
      refine List.append_ne_nil_of_left_ne_nil ?_ _
      unfold dropOldest
      rw [if_pos hbudget, Nat.sub_zero, if_pos hmore, hkeep]
      exact hne
    · exact absurd (hhist.total_le (Nat.zero_le _)) hselected
  · split_ifs with hraw hselected
    · exact List.append_ne_nil_of_right_ne_nil _ hsteps
    · exact List.append_ne_nil_of_right_ne_nil _ hsteps
    · refine fitShrunk_nonempty (hhist.none ?_) hsteps
      by_contra hlt
      exact hselected (hhist.total_le (Nat.le_of_not_le hlt))

/-! ## Fitting and selecting -/

/-- The suffix that a selection keeps starts with no tool result, and before it is snapped to a
boundary it is the longest within the target. -/
structure KeepsNewest (counts : List ℕ) (items : List T) (target : ℕ) (plan : SplitPlan) :
    Prop where
  safe : ∀ first, (items.drop plan.splitIdx).head? = some first → isToolResult first = false
  snapped : plan.splitIdx =
    snapToSafeBoundary items (candidateSplit counts items.length target)
  fits : (counts.drop (candidateSplit counts items.length target)).sum ≤ target
  longest : ∀ j < candidateSplit counts items.length target, target < (counts.drop j).sum

theorem summarizer_input_fits (counter : T → ℕ) (history steps : List T) (budget : ℕ)
    (hbudget : 0 < budget) (hlen : history.length < 2 ^ 32) (hlen' : steps.length < 2 ^ 32) :
    WellFitted counter history steps budget (fitTurnsForSummarizer counter history steps budget) ∧
      ((fitTurnsForSummarizer counter history steps budget).rung ≠ .emergency → budget < u32Max →
        ((fitTurnsForSummarizer counter history steps budget).llmTurns.map counter).sum ≤ budget) ∧
      ((steps ≠ [] ∨ ∃ i item, history[i]? = some item ∧ isToolResult item = false ∧
          ((history.drop i).map counter).sum ≤ budget) →
        (fitTurnsForSummarizer counter history steps budget).llmTurns ≠ []) ∧
      ∀ counts (items : List T) target minCompactable plan, counts.length = items.length →
        selectTurnsToCompact counts items target minCompactable = some plan →
          KeepsNewest counts items target plan := by
  have hfitted := wellFitted_fit counter hbudget hlen hlen'
  refine ⟨hfitted, fun hrung hmax => ?_, fit_nonempty counter hbudget hlen, ?_⟩
  · have hfits := hfitted.fits hrung
    rw [hfitted.tokens] at hfits
    exact sum_le_of_sumCounts hfits hmax
  · intro counts items target minCompactable plan hcounts hplan
    obtain ⟨candidate, hselected⟩ := selected_of_select hcounts hplan
    obtain rfl := hselected.candidate_eq
    refine ⟨fun first hfirst => ?_, hselected.split_eq, hselected.fits, hselected.longest⟩
    rw [List.head?_drop] at hfirst
    exact hselected.safe first hfirst

def twoSteps : List MockItem := [⟨.user, ['a', 'b'], false⟩, ⟨.assistant, ['c', 'd'], false⟩]

/-- The older of two steps is dropped where only one of them fits. -/
theorem summarizer_input_fits_steps :
    WellFitted (fun item : MockItem => item.content.length) [] twoSteps 3
        (fitTurnsForSummarizer (fun item : MockItem => item.content.length) [] twoSteps 3) ∧
      (fitTurnsForSummarizer (fun item : MockItem => item.content.length) [] twoSteps 3).llmTurns =
        [⟨.assistant, ['c', 'd'], false⟩] :=
  ⟨(summarizer_input_fits (fun item : MockItem => item.content.length) [] twoSteps 3 (by decide)
    (by decide) (by decide)).1, by decide⟩

/-- In an emergency the newest item is shortened although it is no tool result. -/
theorem emergency_not_shortened :
    ¬ ∀ (counter : MockItem → ℕ) (history steps : List MockItem) (budget : ℕ), 0 < budget →
      ∃ i j kept, (fitTurnsForSummarizer counter history steps budget).llmTurns =
          history.drop i ++ kept ∧
        List.Forall₂ (Shortened counter budget) (steps.drop j) kept := by
  intro hall
  obtain ⟨i, j, kept, hturns, hshort⟩ := hall (fun item => item.content.length) []
    [⟨.user, List.replicate 8 'a', false⟩] 1 (by decide)
  have hplan : (fitTurnsForSummarizer (fun item : MockItem => item.content.length) []
      [⟨.user, List.replicate 8 'a', false⟩] 1).llmTurns =
        [⟨.user, List.replicate 4 'a', false⟩] := by decide
  rw [hplan, List.drop_nil, List.nil_append] at hturns
  subst hturns
  cases j with
  | zero =>
    obtain hsame | ⟨hover, -⟩ := (List.forall₂_cons.mp hshort).1
    · exact absurd hsame (by decide)
    · exact absurd hover (by decide)
  | succ j =>
    rw [List.drop_succ_cons, List.drop_nil] at hshort
    cases hshort

end GrokBuild.Compaction
