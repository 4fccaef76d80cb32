import Mathlib
import GrokBuild.Compaction.Item

/-!
# Where to split a conversation

The newest items that fit a target are kept and the older ones compacted. A split at a tool result
is moved behind the results, so what is kept never starts with one.
-/

namespace GrokBuild.Compaction

variable {T : Type} [CompactionItem T]

structure SplitPlan where
  splitIdx : ℕ
  tokensToCompact : ℕ
deriving DecidableEq, Repr

/-- The walk from the newest item back, over the first `total` counts, with what is kept so far. -/
def walkBack (itemTokenCounts : List ℕ) (targetTokens : ℕ) : ℕ → ℕ → ℕ
  | 0, _ => 0
  | i + 1, kept =>
    let count := itemTokenCounts.getD i 0
    if targetTokens < saturatingAdd kept count then i + 1
    else walkBack itemTokenCounts targetTokens i (saturatingAdd kept count)

def snapToSafeBoundary (items : List T) (candidate : ℕ) : ℕ :=
  candidate + ((items.drop candidate).takeWhile isToolResult).length

/-- The split before it is snapped to a boundary. -/
def candidateSplit (itemTokenCounts : List ℕ) (total targetTokens : ℕ) : ℕ :=
  walkBack itemTokenCounts targetTokens total 0

/-- `none` where nothing is worth compacting. -/
def selectTurnsToCompact (itemTokenCounts : List ℕ) (items : List T)
    (targetTokens minCompactable : ℕ) : Option SplitPlan :=
  let total := items.length
  if total = 0 then none
  else
    let splitIdx := candidateSplit itemTokenCounts total targetTokens
    if splitIdx = 0 then none
    else
      let safeSplitIdx := snapToSafeBoundary items splitIdx
      if total ≤ safeSplitIdx then none
      else
        let tokensToCompact := sumCounts (itemTokenCounts.take safeSplitIdx)
        if tokensToCompact < minCompactable then none
        else some ⟨safeSplitIdx, tokensToCompact⟩

/-! ## The walk -/

variable {counts : List ℕ} {items : List T} {target kept c n : ℕ}

theorem sum_drop_take_succ (hn : n < counts.length) (hc : c ≤ n) :
    ((counts.take (n + 1)).drop c).sum = ((counts.take n).drop c).sum + counts.getD n 0 := by
  have hlen : c ≤ (counts.take n).length := by
    rw [List.length_take]
    omega
  have hget : counts.getD n 0 = counts[n] := by
    rw [List.getD_eq_getElem?_getD, List.getElem?_eq_getElem hn, Option.getD_some]
  rw [List.take_succ_eq_append_getElem hn, List.drop_append_of_le_length hlen, List.sum_append,
    List.sum_singleton, hget]

/-- Where the walk stops short, what it kept fits, and one item more does not. -/
theorem walkBack_spec (hn : n ≤ counts.length) (hkept : kept ≤ target)
    (hstop : 0 < walkBack counts target n kept) :
    target < u32Max ∧ walkBack counts target n kept ≤ n ∧
      kept + ((counts.take n).drop (walkBack counts target n kept)).sum ≤ target ∧
      target < kept + ((counts.take n).drop (walkBack counts target n kept - 1)).sum := by
  induction n generalizing kept with
  | zero => cases hstop
  | succ n ih =>
    have hget := sum_drop_take_succ (c := n) hn (Nat.le_refl n)
    rw [List.drop_take_self, List.sum_nil, Nat.zero_add] at hget
    rw [walkBack] at hstop ⊢
    split_ifs at hstop ⊢ with hover
    · unfold saturatingAdd at hover
      rw [List.drop_take_self, List.sum_nil, Nat.add_sub_cancel, hget]
      omega
    · rw [Nat.not_lt] at hover
      obtain ⟨hmax, hle, hfits, hmore⟩ := ih (by omega) hover hstop
      have hexact : saturatingAdd kept (counts.getD n 0) = kept + counts.getD n 0 := by
        unfold saturatingAdd at hover ⊢
        omega
      rw [hexact] at hle hfits hmore hstop ⊢
      rw [sum_drop_take_succ hn hle, sum_drop_take_succ hn (by omega)]
      omega

/-! ## The boundary -/

theorem candidate_le_snap (items : List T) (candidate : ℕ) :
    candidate ≤ snapToSafeBoundary items candidate := Nat.le_add_right _ _

theorem not_isToolResult_snap {item : T} {candidate : ℕ}
    (h : items[snapToSafeBoundary items candidate]? = some item) : isToolResult item = false := by
  rw [snapToSafeBoundary, ← List.getElem?_drop] at h
  generalize items.drop candidate = rest at h
  induction rest with
  | nil => cases h
  | cons first rest ih =>
    rw [List.takeWhile_cons] at h
    split_ifs at h with hfirst
    · exact ih h
    · obtain rfl := Option.some.inj h
      rwa [Bool.not_eq_true] at hfirst

theorem isToolResult_of_snapped {item : T} {candidate i : ℕ} (hle : candidate ≤ i)
    (hlt : i < snapToSafeBoundary items candidate) (hitem : items[i]? = some item) :
    isToolResult item = true := by
  obtain ⟨j, rfl⟩ := Nat.exists_eq_add_of_le hle
  rw [snapToSafeBoundary] at hlt
  rw [← List.getElem?_drop] at hitem
  have hj : j < ((items.drop candidate).takeWhile isToolResult).length := by omega
  have hget := (List.takeWhile_prefix (l := items.drop candidate) isToolResult).getElem hj
  have hsome := List.getElem?_eq_some_iff.mp hitem
  obtain ⟨hlen, rfl⟩ := hsome
  rw [← hget]
  exact List.mem_takeWhile_imp (List.getElem_mem hj)

/-- The plan of a selection. -/
structure Selected (counts : List ℕ) (items : List T) (target minCompactable : ℕ)
    (plan : SplitPlan) (candidate : ℕ) : Prop where
  candidate_eq : candidateSplit counts items.length target = candidate
  split_eq : plan.splitIdx = snapToSafeBoundary items candidate
  candidate_pos : 0 < candidate
  /-- Before it is snapped, the split keeps the longest suffix within the target. -/
  fits : (counts.drop candidate).sum ≤ target
  longest : ∀ j < candidate, target < (counts.drop j).sum
  /-- Only tool results are passed over. -/
  le : candidate ≤ plan.splitIdx
  passed : ∀ i item, candidate ≤ i → i < plan.splitIdx → items[i]? = some item →
    isToolResult item = true
  lt : plan.splitIdx < items.length
  safe : ∀ item, items[plan.splitIdx]? = some item → isToolResult item = false
  tokens : plan.tokensToCompact = sumCounts (counts.take plan.splitIdx)
  worth : minCompactable ≤ plan.tokensToCompact

theorem selected_of_select {minCompactable : ℕ} {plan : SplitPlan}
    (hlen : counts.length = items.length)
    (h : selectTurnsToCompact counts items target minCompactable = some plan) :
    ∃ candidate, Selected counts items target minCompactable plan candidate := by
  unfold selectTurnsToCompact at h
  dsimp only at h
  split_ifs at h with hempty hzero hall hmin
  obtain rfl := Option.some.inj h
  rw [Nat.not_le] at hall
  have hpos : 0 < candidateSplit counts items.length target := Nat.pos_of_ne_zero hzero
  obtain ⟨-, -, hfits, hmore⟩ := walkBack_spec (by omega) (Nat.zero_le _) hpos
  rw [Nat.zero_add, ← hlen, List.take_length] at hfits hmore
  refine ⟨_, rfl, rfl, hpos, ?_, fun j hj => ?_, candidate_le_snap items _,
    fun i item hle hlt hitem => isToolResult_of_snapped hle hlt hitem, hall,
    fun item hitem => not_isToolResult_snap hitem, rfl, Nat.le_of_not_lt hmin⟩
  · rw [candidateSplit, ← hlen]
    exact hfits
  · rw [candidateSplit, ← hlen] at hj
    -- What is kept from further in front is no less.
    have hsuffix := (List.drop_sublist_drop_left counts (show j ≤ _ from Nat.le_sub_one_of_lt hj))
    exact hmore.trans_le (hsuffix.sum_le_sum fun _ _ => Nat.zero_le _)

/-- What is kept fits the target. -/
theorem Selected.kept_fits {minCompactable candidate : ℕ} {plan : SplitPlan}
    (h : Selected counts items target minCompactable plan candidate) :
    (counts.drop plan.splitIdx).sum ≤ target :=
  ((List.drop_sublist_drop_left counts h.le).sum_le_sum fun _ _ => Nat.zero_le _).trans h.fits

/-- Where the walk does not stop, everything fits. -/
theorem sum_le_of_walkBack (hn : n ≤ counts.length) (hkept : kept ≤ target) (hmax : target < u32Max)
    (hwalk : walkBack counts target n kept = 0) : kept + (counts.take n).sum ≤ target := by
  induction n generalizing kept with
  | zero => exact hkept
  | succ n ih =>
    rw [walkBack] at hwalk
    split_ifs at hwalk with hover
    rw [Nat.not_lt] at hover
    have hle := ih (by omega) hover hwalk
    have hsum := sum_drop_take_succ (c := 0) hn (Nat.zero_le n)
    rw [List.drop_zero, List.drop_zero] at hsum
    unfold saturatingAdd at hover hle
    omega

/-- There is a plan if something that starts with no tool result fits, and not everything does. -/
theorem exists_select {i : ℕ} {item : T} (hlen : counts.length = items.length)
    (hmore : target < sumCounts counts) (hitem : items[i]? = some item)
    (hsafe : isToolResult item = false) (hfits : (counts.drop i).sum ≤ target) :
    ∃ plan, selectTurnsToCompact counts items target 0 = some plan := by
  have hi := (List.getElem?_eq_some_iff.mp hitem).1
  rw [sumCounts_eq] at hmore
  have hpos : 0 < candidateSplit counts items.length target := by
    apply Nat.pos_of_ne_zero
    intro hzero
    have hall := sum_le_of_walkBack hlen.ge (Nat.zero_le _) (by omega) hzero
    rw [← hlen, List.take_length] at hall
    omega
  obtain ⟨-, -, -, hlonger⟩ := walkBack_spec hlen.ge (Nat.zero_le _) hpos
  rw [Nat.zero_add, ← hlen, List.take_length] at hlonger
  have hle : candidateSplit counts items.length target ≤ i := by
    by_contra hlt
    rw [Nat.not_le, candidateSplit, ← hlen] at hlt
    have hsuffix := List.drop_sublist_drop_left counts (Nat.le_sub_one_of_lt hlt)
    have hsum := hsuffix.sum_le_sum fun _ _ => Nat.zero_le _
    omega
  have hsnap : snapToSafeBoundary items (candidateSplit counts items.length target) ≤ i := by
    by_contra hlt
    have hresult := isToolResult_of_snapped hle (Nat.lt_of_not_le hlt) hitem
    rw [hsafe] at hresult
    cases hresult
  unfold selectTurnsToCompact
  dsimp only
  rw [if_neg (by omega), if_neg hpos.ne', if_neg (by omega), if_neg (Nat.not_lt_zero _)]
  exact ⟨_, rfl⟩

end GrokBuild.Compaction
