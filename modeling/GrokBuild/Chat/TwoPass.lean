import Mathlib
import GrokBuild.Chat.TokenBudget

/-!
# Splitting a conversation for two passes

`session/two_pass.rs` chooses a split by weight and moves it to the border of a tool turn: an
assistant item with calls together with the results behind it.
-/

namespace GrokBuild.Chat

/-! ## The split by weight -/

section Fraction

-- whether an accumulated weight reaches the fraction of the total weight; a comparison of floats
variable (reaches : ℕ → ℕ → Bool)

/-- The index behind the first item at which the weight is reached. -/
def firstReaching (total : ℕ) : ℕ → ℕ → List ℕ → Option ℕ
  | _, _, [] => none
  | i, acc, w :: weights =>
    let acc := min (acc + w) (2 ^ 64 - 1)
    if reaches acc total then some (max (i + 1) 1) else firstReaching total (i + 1) acc weights

def splitIndexByTokenFraction (weights : List ℕ) : ℕ :=
  if weights = [] then 0
  else
    let total := max (weights.sum % 2 ^ 64) 1
    let splitIdx := (firstReaching reaches total 0 0 weights).getD (max (weights.length - 1) 1)
    if weights.length ≤ splitIdx ∧ 1 < weights.length then weights.length - 1 else splitIdx

end Fraction

/-! ## Tool turns -/

variable {conversation : List ConversationItem}

def isResultAt (conversation : List ConversationItem) (i : ℕ) : Bool :=
  conversation[i]?.any isResult

def isOwnerAt (conversation : List ConversationItem) (i : ℕ) : Bool :=
  conversation[i]?.any isOwner

/-- The loop over the results from an index on. -/
def skipResults (conversation : List ConversationItem) (idx : ℕ) : ℕ :=
  idx + ((conversation.drop idx).takeWhile isResult).length

/-- Results that stand right behind their owner are taken along. -/
def joinResults (conversation : List ConversationItem) : ℕ → ℕ → ℕ
  | 0, idx => idx
  | rounds + 1, idx =>
    if 0 < idx ∧ isOwnerAt conversation (idx - 1) ∧ isResultAt conversation idx then
      joinResults conversation rounds (skipResults conversation idx)
    else idx

/-- The walk back over results, which stops at `low`. -/
def walkBack (conversation : List ConversationItem) (low : ℕ) : ℕ → ℕ
  | 0 => 0
  | c + 1 =>
    if low < c + 1 ∧ isResultAt conversation (c + 1) then walkBack conversation low c else c + 1

/-- Where a tail can start if the whole conversation went to the prefix. -/
def lastTurnStart (conversation : List ConversationItem) : ℕ :=
  let candidate := walkBack conversation 1 (conversation.length - 1)
  if 0 < candidate ∧ isOwnerAt conversation candidate then candidate
  else if 0 < candidate ∧ isResultAt conversation candidate then
    let i := walkBack conversation 0 candidate
    if isOwnerAt conversation i then i else candidate
  else candidate

/-- Past an owner at the index, with its results. -/
def passOwner (conversation : List ConversationItem) (idx : ℕ) : ℕ :=
  if isOwnerAt conversation idx then skipResults conversation (idx + 1) else idx

def snapSplitIdxToToolBoundaries (conversation : List ConversationItem) (splitIdx : ℕ) : ℕ :=
  let n := conversation.length
  if n = 0 then 0
  else
    let idx := joinResults conversation n
      (passOwner conversation (skipResults conversation (min splitIdx n)))
    let candidate := lastTurnStart conversation
    min (if (n ≤ idx ∧ 1 < n) ∧ 1 ≤ candidate ∧ candidate < n then candidate else idx) n

structure TwoPassSplit where
  prefixItems : List ConversationItem
  tail : List ConversationItem
  splitIdx : ℕ

/-- `none` where the estimate of an item panics. -/
def splitConversationForTwoPass (reaches : ℕ → ℕ → Bool) (conversation : List ConversationItem) :
    Option TwoPassSplit :=
  (conversation.mapM estimateItemTokens).map fun weights =>
    let splitIdx := snapSplitIdxToToolBoundaries conversation
      (splitIndexByTokenFraction reaches weights)
    let splitIdx := min splitIdx conversation.length
    { prefixItems := conversation.take splitIdx, tail := conversation.drop splitIdx, splitIdx }

/-! ## Whole turns -/

/-- Item `j` is one of the results in the run behind item `i`. -/
def Answers (conversation : List ConversationItem) (i j : ℕ) : Prop :=
  i < j ∧ ∀ k, i < k → k ≤ j → isResultAt conversation k = true

/-- Each result lies in a run directly behind an assistant item with calls. -/
def ResultsFollowOwner (conversation : List ConversationItem) : Prop :=
  ∀ j, isResultAt conversation j = true →
    ∃ i, isOwnerAt conversation i = true ∧ Answers conversation i j

structure SplitsWhole (conversation : List ConversationItem) (idx : ℕ) : Prop where
  le : idx ≤ conversation.length
  tail : isResultAt conversation idx = false
  turns : ∀ i j, i < idx → idx ≤ j → isOwnerAt conversation i = true →
    ¬ Answers conversation i j

/-- One assistant item with calls and otherwise its results. -/
def OneToolTurn (conversation : List ConversationItem) : Prop :=
  ∃ owner results, conversation = owner :: results ∧ isOwner owner = true ∧
    ∀ item ∈ results, isResult item = true

variable {idx low c i j : ℕ}

/-- A split in front of an item that is no result severs nothing. -/
theorem splitsWhole_of (hle : idx ≤ conversation.length)
    (htail : isResultAt conversation idx = false) : SplitsWhole conversation idx := by
  refine ⟨hle, htail, fun i j hi hj _ hans => ?_⟩
  rw [hans.2 idx hi hj] at htail
  cases htail

theorem isResultAt_length : isResultAt conversation conversation.length = false := by
  simp [isResultAt]

theorem lt_length_of_isResultAt (h : isResultAt conversation i = true) :
    i < conversation.length := by
  by_contra hge
  rw [isResultAt, List.getElem?_eq_none (Nat.le_of_not_lt hge)] at h
  cases h

theorem lt_length_of_isOwnerAt (h : isOwnerAt conversation i = true) :
    i < conversation.length := by
  by_contra hge
  rw [isOwnerAt, List.getElem?_eq_none (Nat.le_of_not_lt hge)] at h
  cases h

theorem not_isResult_of_isOwner {item : ConversationItem} (h : isOwner item = true) :
    isResult item = false := by
  cases item with
  | assistant a => rfl
  | _ => cases h

theorem isResultAt_of_isOwnerAt (h : isOwnerAt conversation i = true) :
    isResultAt conversation i = false := by
  rw [isOwnerAt] at h
  rw [isResultAt]
  cases hitem : conversation[i]? with
  | none => rfl
  | some item =>
    rw [hitem] at h
    exact not_isResult_of_isOwner h

theorem skipResults_le (h : idx ≤ conversation.length) :
    skipResults conversation idx ≤ conversation.length := by
  have hlen := (List.takeWhile_sublist (l := conversation.drop idx) isResult).length_le
  rw [List.length_drop] at hlen
  rw [skipResults]
  omega

theorem le_skipResults : idx ≤ skipResults conversation idx := Nat.le_add_right _ _

theorem isResultAt_skipResults : isResultAt conversation (skipResults conversation idx) = false := by
  rw [isResultAt, skipResults, ← List.getElem?_drop]
  generalize conversation.drop idx = rest
  induction rest with
  | nil => rfl
  | cons item rest ih =>
    rw [List.takeWhile_cons]
    split_ifs with hitem
    · exact ih
    · simpa using hitem

theorem passOwner_spec (hle : idx ≤ conversation.length)
    (htail : isResultAt conversation idx = false) :
    idx ≤ passOwner conversation idx ∧ passOwner conversation idx ≤ conversation.length ∧
      isResultAt conversation (passOwner conversation idx) = false := by
  unfold passOwner
  split_ifs with howner
  · have hlt := lt_length_of_isOwnerAt howner
    have hskip := @le_skipResults conversation (idx + 1)
    exact ⟨by omega, skipResults_le hlt, isResultAt_skipResults⟩
  · exact ⟨le_rfl, hle, htail⟩

/-- Behind the first two loops there are no results to take along. -/
theorem joinResults_eq (htail : isResultAt conversation idx = false) (rounds : ℕ) :
    joinResults conversation rounds idx = idx := by
  cases rounds with
  | zero => rfl
  | succ rounds =>
    rw [joinResults, if_neg]
    rw [htail]
    simp

/-! ## The last turn -/

theorem walkBack_spec (hlow : low ≤ c) : low ≤ walkBack conversation low c ∧
    walkBack conversation low c ≤ c ∧
    (∀ k, walkBack conversation low c < k → k ≤ c → isResultAt conversation k = true) ∧
    (isResultAt conversation (walkBack conversation low c) = true →
      walkBack conversation low c = low) := by
  induction c with
  | zero =>
    rw [walkBack]
    refine ⟨hlow, le_rfl, fun k hk hk' => absurd hk (by omega), fun _ => by omega⟩
  | succ c ih =>
    rw [walkBack]
    split_ifs with hstep
    · obtain ⟨hge, hle, hrun, hend⟩ := ih (by omega)
      refine ⟨hge, by omega, fun k hk hk' => ?_, hend⟩
      obtain rfl | hlt := Nat.eq_or_lt_of_le hk'
      · exact hstep.2
      · exact hrun k hk (by omega)
    · refine ⟨hlow, le_rfl, fun k hk hk' => absurd hk (by omega), fun hres => ?_⟩
      by_contra hne
      exact hstep ⟨by omega, hres⟩

theorem oneToolTurn_of (hn : 2 ≤ conversation.length) (howner : isOwnerAt conversation 0 = true)
    (hfirst : isResultAt conversation 1 = true)
    (hrun : ∀ k, 1 < k → k ≤ conversation.length - 1 → isResultAt conversation k = true) :
    OneToolTurn conversation := by
  cases conversation with
  | nil => exact absurd hn (by simp)
  | cons owner results =>
    refine ⟨owner, results, rfl, howner, fun item hitem => ?_⟩
    obtain ⟨k, hk, rfl⟩ := List.mem_iff_getElem.mp hitem
    have hlen : k + 1 ≤ (owner :: results).length - 1 := hk
    have hat : isResultAt (owner :: results) (k + 1) = true := by
      obtain rfl | hpos := Nat.eq_zero_or_pos k
      · exact hfirst
      · exact hrun (k + 1) (by omega) hlen
    rw [isResultAt, List.getElem?_cons_succ, List.getElem?_eq_getElem hk] at hat
    exact hat

/-- Only a conversation that is a single tool turn gives no start of a tail. -/
theorem lastTurnStart_spec (h : ResultsFollowOwner conversation) (hn : 2 ≤ conversation.length) :
    (lastTurnStart conversation = 0 ∧ OneToolTurn conversation) ∨
      (1 ≤ lastTurnStart conversation ∧ lastTurnStart conversation < conversation.length ∧
        isResultAt conversation (lastTurnStart conversation) = false) := by
  have hlow : 1 ≤ conversation.length - 1 := by omega
  obtain ⟨hge, hle, hrun, hend⟩ := walkBack_spec hlow
  unfold lastTurnStart
  dsimp only
  generalize walkBack conversation 1 (conversation.length - 1) = candidate at hge hle hrun hend
  by_cases howner : isOwnerAt conversation candidate = true
  · rw [if_pos ⟨hge, howner⟩]
    exact .inr ⟨hge, by omega, isResultAt_of_isOwnerAt howner⟩
  · rw [if_neg (by simp [howner])]
    by_cases hresult : isResultAt conversation candidate = true
    · -- results from the second item on: the first one owns them
      obtain rfl := hend hresult
      obtain ⟨i, hiowner, hlt, -⟩ := h 1 hresult
      obtain rfl : i = 0 := by omega
      have hwalk : walkBack conversation 0 1 = 0 := by
        rw [walkBack, if_pos ⟨Nat.one_pos, hresult⟩]
        rfl
      rw [if_pos ⟨hge, hresult⟩, hwalk, if_pos hiowner]
      exact .inl ⟨rfl, oneToolTurn_of hn hiowner hresult hrun⟩
    · rw [if_neg (by simp [hresult])]
      rw [Bool.not_eq_true] at hresult
      exact .inr ⟨hge, by omega, hresult⟩

/-! ## The split -/

variable {splitIdx : ℕ}

/-- The index before the last turn is looked at. -/
theorem snap_loops (conversation : List ConversationItem) (splitIdx : ℕ) :
    ∃ idx, joinResults conversation conversation.length
        (passOwner conversation (skipResults conversation (min splitIdx conversation.length))) =
          idx ∧
      min splitIdx conversation.length ≤ idx ∧ idx ≤ conversation.length ∧
      isResultAt conversation idx = false := by
  obtain ⟨hge, hle, htail⟩ := passOwner_spec
    (skipResults_le (Nat.min_le_right splitIdx conversation.length)) isResultAt_skipResults
  refine ⟨_, joinResults_eq htail _, (le_skipResults).trans hge, hle, htail⟩

theorem snap_splitsWhole (h : ResultsFollowOwner conversation) (splitIdx : ℕ) :
    SplitsWhole conversation (snapSplitIdxToToolBoundaries conversation splitIdx) := by
  unfold snapSplitIdxToToolBoundaries
  dsimp only
  split_ifs with hzero hlast
  · refine splitsWhole_of (Nat.zero_le _) ?_
    rw [← hzero]
    exact isResultAt_length
  · obtain ⟨hstart, -⟩ | ⟨-, hlt, htail⟩ := lastTurnStart_spec h (by omega)
    · omega
    · rw [Nat.min_eq_left hlt.le]
      exact splitsWhole_of hlt.le htail
  · obtain ⟨idx, heq, -, hle, htail⟩ := snap_loops conversation splitIdx
    rw [heq, Nat.min_eq_left hle]
    exact splitsWhole_of hle htail

/-- From an index behind the first item both parts stay nonempty. -/
theorem snap_nonempty (h : ResultsFollowOwner conversation) (hn : 2 ≤ conversation.length)
    (hpos : 0 < splitIdx) :
    0 < snapSplitIdxToToolBoundaries conversation splitIdx ∧
      (snapSplitIdxToToolBoundaries conversation splitIdx < conversation.length ∨
        OneToolTurn conversation) := by
  obtain ⟨idx, heq, hge, hle, -⟩ := snap_loops conversation splitIdx
  unfold snapSplitIdxToToolBoundaries
  dsimp only
  rw [heq, if_neg (by omega)]
  split_ifs with hlast
  · exact ⟨by omega, .inl (by omega)⟩
  · refine ⟨by omega, ?_⟩
    obtain ⟨-, hone⟩ | ⟨hstart, hlt, -⟩ := lastTurnStart_spec h hn
    · exact .inr hone
    · exact .inl (by omega)

theorem firstReaching_pos {reaches : ℕ → ℕ → Bool} {total i acc k : ℕ} {weights : List ℕ}
    (h : firstReaching reaches total i acc weights = some k) : 0 < k := by
  induction weights generalizing i acc with
  | nil => cases h
  | cons w weights ih =>
    rw [firstReaching] at h
    split_ifs at h
    · obtain rfl := Option.some.inj h
      omega
    · exact ih h

theorem splitIndex_pos (reaches : ℕ → ℕ → Bool) {weights : List ℕ} (h : 2 ≤ weights.length) :
    0 < splitIndexByTokenFraction reaches weights := by
  have hne : weights ≠ [] := by
    rintro rfl
    exact absurd h (by simp)
  unfold splitIndexByTokenFraction
  rw [if_neg hne]
  dsimp only
  split_ifs
  · omega
  · cases hfirst : firstReaching reaches (max (weights.sum % 2 ^ 64) 1) 0 0 weights with
    | none =>
      rw [Option.getD_none]
      omega
    | some k =>
      rw [Option.getD_some]
      exact firstReaching_pos hfirst

/-- What the split for two passes is to be. -/
def SplitsForTwoPass (reaches : ℕ → ℕ → Bool) (conversation : List ConversationItem) : Prop :=
  (∀ splitIdx, SplitsWhole conversation (snapSplitIdxToToolBoundaries conversation splitIdx)) ∧
    (2 ≤ conversation.length → ∃ split,
      splitConversationForTwoPass reaches conversation = some split ∧ split.prefixItems ≠ [] ∧
        (split.tail ≠ [] ∨ OneToolTurn conversation))

/-- No tool turn is severed from any index, and both parts are there unless the estimate of an
item panics. -/
theorem splitsForTwoPass_iff (reaches : ℕ → ℕ → Bool) (conversation : List ConversationItem)
    (h : ResultsFollowOwner conversation) : SplitsForTwoPass reaches conversation ↔
      (2 ≤ conversation.length → ∀ item ∈ conversation, Summarized item) := by
  refine ⟨fun ⟨_, hsplit⟩ hn => ?_, fun hsum => ⟨snap_splitsWhole h, fun hn => ?_⟩⟩
  · obtain ⟨split, hsome, -⟩ := hsplit hn
    obtain ⟨weights, hweights, -⟩ := Option.map_eq_some_iff.mp hsome
    exact summarized_of_mapM hweights
  · have hsome := mapM_estimate (hsum hn)
    have hlen : 2 ≤ (conversation.map itemTokens).length := by
      rw [List.length_map]
      exact hn
    obtain ⟨hpos, htail⟩ := snap_nonempty h hn (splitIndex_pos reaches hlen)
    refine ⟨_, by rw [splitConversationForTwoPass, hsome, Option.map_some], ?_, ?_⟩
    · rw [ne_eq, List.take_eq_nil_iff]
      rintro (hzero | hnil)
      · omega
      · rw [hnil] at hn
        exact absurd hn (by simp)
    · refine htail.imp_left fun hlt => ?_
      rw [ne_eq, List.drop_eq_nil_iff]
      omega

/-- A user item in front of one call and its result. -/
def oneCall : List ConversationItem :=
  [.user { content := [.text "go".toList] },
    .assistant ⟨[], [⟨"a".toList, "read".toList, "\x7b\x7d".toList⟩]⟩,
    .ofToolResult "a".toList "ok".toList]

theorem oneCall_splits : SplitsForTwoPass (fun acc total => 19 * total ≤ 20 * acc) oneCall ↔
    (2 ≤ oneCall.length → ∀ item ∈ oneCall, Summarized item) := by
  refine splitsForTwoPass_iff _ _ fun j hj => ?_
  obtain rfl : j = 2 := by
    have hlt : j < 3 := lt_length_of_isResultAt hj
    obtain rfl | rfl | rfl : j = 0 ∨ j = 1 ∨ j = 2 := by omega
    · cases hj
    · cases hj
    · rfl
  exact ⟨1, rfl, by decide, fun k hk hk' => by
    obtain rfl : k = 2 := by omega
    rfl⟩

/-- 101 bytes of code with a character across byte 100. -/
def accentedCall : ConversationItem :=
  .backendToolCall ⟨.codeInterpreter (some (List.replicate 99 'a' ++ ['\u00e9']))⟩

/-- The weights of a conversation with such a call are never computed. -/
theorem accentedCall_never_splits : ResultsFollowOwner [accentedCall, accentedCall] ∧
    ¬ ∃ reaches, SplitsForTwoPass reaches [accentedCall, accentedCall] := by
  constructor
  · intro j hj
    have hlt : j < 2 := lt_length_of_isResultAt hj
    obtain rfl | rfl : j = 0 ∨ j = 1 := by omega
    · cases hj
    · cases hj
  · rintro ⟨reaches, -, hsplit⟩
    obtain ⟨split, hsome, -⟩ := hsplit (le_refl 2)
    have hpanic : [accentedCall, accentedCall].mapM estimateItemTokens = none := by decide +kernel
    rw [splitConversationForTwoPass, hpanic] at hsome
    cases hsome

end GrokBuild.Chat
