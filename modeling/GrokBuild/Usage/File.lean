import Mathlib
import GrokBuild.Usage.Ledger

/-!
# Usage files

`session/usage_file.rs`: what every turn of a session used, with the sum of the turns. A turn that
ends adds what the ledger grew by since the call before it, and a rewind drops the turns past it.
-/

namespace GrokBuild.Usage

open GrokBuild.Text

def u32Max : ℕ := 2 ^ 32 - 1

def u32SaturatingAdd (a b : ℕ) : ℕ := min (a + b) u32Max

structure TurnUsage where
  turnNumber : ℕ
  endedAt : Str
  usage : UsageSummary

structure SessionUsageFile where
  sessionId : Str := []
  updatedAt : Str := []
  session : UsageSummary := {}
  turns : List TurnUsage := []
  lastIncomingTurn : Option ℕ := none
  lastWrittenTurn : Option ℕ := none

/-- `iter_mut().find`: the first turn of that number is replaced. -/
def updateTurn (turnNumber : ℕ) (f : TurnUsage → TurnUsage) : List TurnUsage → List TurnUsage
  | [] => []
  | turn :: turns =>
    if turn.turnNumber = turnNumber then f turn :: turns else turn :: updateTurn turnNumber f turns

/-- What a call adds: the ledger as it is, or what it grew by. -/
def turnUsage (live : UsageSummary) : Option UsageSummary → UsageSummary
  | some previous => if live.covers previous then live.saturatingSub previous else live
  | none => live

namespace SessionUsageFile

def turnNumbers (file : SessionUsageFile) : List ℕ := file.turns.map TurnUsage.turnNumber

def retainTurnsThrough (file : SessionUsageFile) (maxTurn : ℕ) : SessionUsageFile :=
  let turns := file.turns.filter fun turn => turn.turnNumber ≤ maxTurn
  let session := turns.foldl
    (fun (session : UsageSummary) turn => session.saturatingAdd turn.usage) ({} : UsageSummary)
  { file with
    turns
    session :=
      { session with
        turnCount := turns.length
        primaryModelId := primaryModel session.modelUsage } }

/-- What the turn has of late interjections is added to it. -/
def foldTurn (file : SessionUsageFile) (foldN : ℕ) (endedAt : Str) (added : UsageSummary) :
    SessionUsageFile :=
  let turns := updateTurn foldN (fun existing =>
    let usage := existing.usage.saturatingAdd added
    { existing with
      endedAt
      usage := { usage with turnCount := 1, primaryModelId := primaryModel usage.modelUsage } })
    file.turns
  { file with
    turns
    session := { file.session.saturatingAdd added with turnCount := turns.length } }

def pushTurn (file : SessionUsageFile) (turnNumber : ℕ) (endedAt : Str) (added : UsageSummary) :
    SessionUsageFile :=
  let usage : UsageSummary :=
    { added with turnCount := 1, primaryModelId := primaryModel added.modelUsage }
  let turns := file.turns ++ [({ turnNumber, endedAt, usage } : TurnUsage)]
  let session := file.session.saturatingAdd usage
  { file with
    turns
    session :=
      { session with
        turnCount := turns.length
        primaryModelId := primaryModel session.modelUsage } }

/-- A number that an inherited turn has is replaced by one past the highest. -/
def freeNumber (file : SessionUsageFile) (turnNumber : ℕ) : ℕ :=
  if turnNumber ∈ file.turnNumbers then
    u32SaturatingAdd (file.turnNumbers.max?.getD 0) 1
  else turnNumber

def applyTurnInternal (file : SessionUsageFile) (turnNumber : ℕ) (endedAt : Str)
    (live : UsageSummary) (prevLive : Option UsageSummary) (foldInto : Option ℕ) :
    SessionUsageFile × ℕ :=
  let file := { file with updatedAt := endedAt }
  let added := turnUsage live prevLive
  match foldInto.filter (· ∈ file.turnNumbers) with
  | some foldN => if added.isZero then (file, foldN) else (file.foldTurn foldN endedAt added, foldN)
  | none =>
    let turnNumber := file.freeNumber turnNumber
    (file.pushTurn turnNumber endedAt added, turnNumber)

def applyTurn (file : SessionUsageFile) (turnNumber : ℕ) (endedAt : Str) (live : UsageSummary)
    (prevLive : Option UsageSummary) : SessionUsageFile × ℕ :=
  let foldInto := if file.lastIncomingTurn = some turnNumber then file.lastWrittenTurn else none
  let (file, written) := file.applyTurnInternal turnNumber endedAt live prevLive foldInto
  ({ file with
    lastIncomingTurn := some turnNumber
    lastWrittenTurn := some written }, written)

end SessionUsageFile

/-! ## Sums over the turns -/

section Sums

def turnsCount (turns : List TurnUsage) (x : Bucket) : ℤ :=
  (turns.map fun turn => turn.usage.count x).sum

/-- The turns have numbers of their own, and the session is their sum. -/
structure SessionUsageFile.AddsUp (file : SessionUsageFile) : Prop where
  distinct : file.turnNumbers.Nodup
  session : ∀ x, file.session.count x = turnsCount file.turns x
  turnCount : file.session.turnCount = file.turns.length

def PricedTurns (turns : List TurnUsage) : Prop := ∀ turn ∈ turns, turn.usage.Priced

theorem turnsCount_nonneg {turns : List TurnUsage} (h : PricedTurns turns) (x : Bucket) :
    0 ≤ turnsCount turns x := by
  refine List.sum_nonneg fun n hn => ?_
  obtain ⟨turn, hturn, rfl⟩ := List.mem_map.1 hn
  exact UsageSummary.count_nonneg (h turn hturn) x

theorem count_le_turnsCount {turns : List TurnUsage} (h : PricedTurns turns) {turn : TurnUsage}
    (hturn : turn ∈ turns) (x : Bucket) : turn.usage.count x ≤ turnsCount turns x := by
  refine List.single_le_sum (fun n hn => ?_) _ (List.mem_map_of_mem hturn)
  obtain ⟨other, hother, rfl⟩ := List.mem_map.1 hn
  exact UsageSummary.count_nonneg (h other hother) x

theorem turnsCount_append (turns rest : List TurnUsage) (x : Bucket) :
    turnsCount (turns ++ rest) x = turnsCount turns x + turnsCount rest x := by
  rw [turnsCount, List.map_append, List.sum_append]
  rfl

theorem turnsCount_singleton (turn : TurnUsage) (x : Bucket) :
    turnsCount [turn] x = turn.usage.count x :=
  add_zero _

theorem turnsCount_filter_le {turns : List TurnUsage} (h : PricedTurns turns)
    (p : TurnUsage → Bool) (x : Bucket) : turnsCount (turns.filter p) x ≤ turnsCount turns x := by
  induction turns with
  | nil => exact le_refl _
  | cons turn turns ih =>
    have hrest := ih fun t ht => h t (List.mem_cons_of_mem _ ht)
    have hturn := UsageSummary.count_nonneg (h turn List.mem_cons_self) x
    have hcons : turnsCount (turn :: turns) x = turn.usage.count x + turnsCount turns x := rfl
    rw [List.filter_cons, hcons]
    by_cases hp : p turn = true
    · rw [if_pos hp]
      exact Int.add_le_add_left hrest _
    · rw [if_neg hp]
      omega

/-- The session that is summed up anew counts what the turns count. -/
theorem count_foldl_saturatingAdd (turns : List TurnUsage) {session : UsageSummary}
    (hsession : session.Priced) (hturns : PricedTurns turns)
    (hfits : ∀ x, session.count x + turnsCount turns x ≤ x.limit) :
    (turns.foldl (fun session turn => session.saturatingAdd turn.usage) session).Priced ∧
      ∀ x, (turns.foldl (fun session turn => session.saturatingAdd turn.usage) session).count x =
        session.count x + turnsCount turns x := by
  induction turns generalizing session with
  | nil => exact ⟨hsession, fun x => (add_zero _).symm⟩
  | cons turn turns ih =>
    have hcons : ∀ x, turnsCount (turn :: turns) x = turn.usage.count x + turnsCount turns x :=
      fun _ => rfl
    have hturn := hturns turn List.mem_cons_self
    have hrest : PricedTurns turns := fun t ht => hturns t (List.mem_cons_of_mem _ ht)
    have hone : ∀ x, session.count x + turn.usage.count x ≤ x.limit := by
      intro x
      have hx := hfits x
      have hnonneg := turnsCount_nonneg hrest x
      rw [hcons] at hx
      omega
    have hadd : ∀ x, (session.saturatingAdd turn.usage).count x = _ :=
      fun x => count_saturatingAdd hsession hturn (hone x)
    have hstep := ih (hsession.add hturn hone) hrest fun x => by
      rw [hadd, add_assoc, ← hcons]
      exact hfits x
    refine ⟨hstep.1, fun x => ?_⟩
    rw [List.foldl_cons, hstep.2, hadd, hcons, add_assoc]

end Sums

/-! ## What a call adds -/

section Calls

/-- The turns took the usage in, and still make up the session. -/
structure TakesIn (before after : SessionUsageFile) (growth : Bucket → ℤ) : Prop where
  addsUp : after.AddsUp
  priced : PricedTurns after.turns
  count : ∀ x, turnsCount after.turns x = turnsCount before.turns x + growth x

theorem map_turnNumber_updateTurn {f : TurnUsage → TurnUsage}
    (hf : ∀ turn, (f turn).turnNumber = turn.turnNumber) (n : ℕ) (turns : List TurnUsage) :
    (updateTurn n f turns).map TurnUsage.turnNumber = turns.map TurnUsage.turnNumber := by
  induction turns with
  | nil => rfl
  | cons turn turns ih =>
    rw [updateTurn]
    by_cases heq : turn.turnNumber = n
    · rw [if_pos heq, List.map_cons, hf, List.map_cons]
    · rw [if_neg heq, List.map_cons, ih, List.map_cons]

theorem priced_updateTurn {f : TurnUsage → TurnUsage} {turns : List TurnUsage} (n : ℕ)
    (h : PricedTurns turns) (hf : ∀ turn ∈ turns, (f turn).usage.Priced) :
    PricedTurns (updateTurn n f turns) := by
  induction turns with
  | nil => exact h
  | cons turn turns ih =>
    have hrest := ih (fun t ht => h t (List.mem_cons_of_mem _ ht))
      fun t ht => hf t (List.mem_cons_of_mem _ ht)
    rw [updateTurn]
    by_cases heq : turn.turnNumber = n
    · rw [if_pos heq]
      exact List.forall_mem_cons.2 ⟨hf turn List.mem_cons_self,
        fun t ht => h t (List.mem_cons_of_mem _ ht)⟩
    · rw [if_neg heq]
      exact List.forall_mem_cons.2 ⟨h turn List.mem_cons_self, hrest⟩

theorem turnsCount_updateTurn {f : TurnUsage → TurnUsage} {turns : List TurnUsage} {n : ℕ}
    (hn : n ∈ turns.map TurnUsage.turnNumber) {x : Bucket} {d : ℤ}
    (hf : ∀ turn ∈ turns, (f turn).usage.count x = turn.usage.count x + d) :
    turnsCount (updateTurn n f turns) x = turnsCount turns x + d := by
  induction turns with
  | nil => exact absurd hn List.not_mem_nil
  | cons turn turns ih =>
    have hcons : ∀ (t : TurnUsage) ts, turnsCount (t :: ts) x = t.usage.count x + turnsCount ts x :=
      fun _ _ => rfl
    rw [updateTurn, hcons]
    by_cases heq : turn.turnNumber = n
    · rw [if_pos heq, hcons, hf turn List.mem_cons_self]
      omega
    · have hmem : n ∈ turns.map TurnUsage.turnNumber :=
        (List.mem_cons.1 hn).resolve_left fun h => heq h.symm
      rw [if_neg heq, hcons, ih hmem fun t ht => hf t (List.mem_cons_of_mem _ ht)]
      omega

theorem count_numbered (usage : UsageSummary) (turnCount : ℕ) (primary : Option Str) (x : Bucket) :
    ({ usage with turnCount, primaryModelId := primary } : UsageSummary).count x =
      usage.count x := by
  cases x <;> rfl

theorem priced_numbered {usage : UsageSummary} (h : usage.Priced) (turnCount : ℕ)
    (primary : Option Str) :
    ({ usage with turnCount, primaryModelId := primary } : UsageSummary).Priced :=
  ⟨h.whole, h.rows⟩

variable {file : SessionUsageFile} {added : UsageSummary}

theorem SessionUsageFile.AddsUp.session_priced (h : file.AddsUp)
    (hpriced : PricedTurns file.turns) : file.session.Priced := by
  have hcount : ∀ x, 0 ≤ file.session.count x := by
    intro x
    rw [h.session]
    exact turnsCount_nonneg hpriced x
  exact ⟨hcount (.whole .costUsdTicks), fun model => hcount (.model model .costUsdTicks)⟩

theorem turnNumbers_foldTurn (file : SessionUsageFile) (foldN : ℕ) (endedAt : Str)
    (added : UsageSummary) :
    (file.foldTurn foldN endedAt added).turnNumbers = file.turnNumbers := by
  apply map_turnNumber_updateTurn
  intro turn
  rfl

/-- A late interjection is counted with the turn it is folded into. -/
theorem takesIn_foldTurn (hfile : file.AddsUp) (hpriced : PricedTurns file.turns)
    (hadded : added.Priced) (hfits : ∀ x, file.session.count x + added.count x ≤ x.limit)
    {foldN : ℕ} (hfold : foldN ∈ file.turnNumbers) (endedAt : Str) :
    TakesIn file (file.foldTurn foldN endedAt added) added.count := by
  have hsession := hfile.session_priced hpriced
  have hone : ∀ turn ∈ file.turns, ∀ x, turn.usage.count x + added.count x ≤ x.limit := by
    intro turn hturn x
    have hle := count_le_turnsCount hpriced hturn x
    have hx := hfits x
    rw [hfile.session] at hx
    omega
  have hcount : ∀ x, turnsCount (file.foldTurn foldN endedAt added).turns x =
      turnsCount file.turns x + added.count x := by
    intro x
    refine turnsCount_updateTurn hfold fun turn hturn => ?_
    rw [count_numbered]
    exact count_saturatingAdd (hpriced turn hturn) hadded (hone turn hturn x)
  refine ⟨⟨?_, fun x => ?_, rfl⟩, ?_, hcount⟩
  · rw [turnNumbers_foldTurn]
    exact hfile.distinct
  · rw [hcount, ← hfile.session, ← count_saturatingAdd hsession hadded (hfits x)]
    cases x <;> rfl
  · exact priced_updateTurn foldN hpriced fun turn hturn =>
      priced_numbered ((hpriced turn hturn).add hadded (hone turn hturn)) _ _

theorem turnNumbers_pushTurn (file : SessionUsageFile) (turnNumber : ℕ) (endedAt : Str)
    (added : UsageSummary) :
    (file.pushTurn turnNumber endedAt added).turnNumbers = file.turnNumbers ++ [turnNumber] :=
  List.map_append

/-- A turn of a number that is new is one more turn. -/
theorem takesIn_pushTurn (hfile : file.AddsUp) (hpriced : PricedTurns file.turns)
    (hadded : added.Priced) (hfits : ∀ x, file.session.count x + added.count x ≤ x.limit)
    {turnNumber : ℕ} (hnew : turnNumber ∉ file.turnNumbers) (endedAt : Str) :
    TakesIn file (file.pushTurn turnNumber endedAt added) added.count := by
  have hcount : ∀ x, turnsCount (file.pushTurn turnNumber endedAt added).turns x =
      turnsCount file.turns x + added.count x := by
    intro x
    show turnsCount (file.turns ++ [_]) x = _
    rw [turnsCount_append, turnsCount_singleton]
    exact congrArg (turnsCount file.turns x + ·) (count_numbered added _ _ x)
  refine ⟨⟨?_, fun x => ?_, rfl⟩, ?_, hcount⟩
  · rw [turnNumbers_pushTurn]
    refine List.nodup_append.2 ⟨hfile.distinct, List.nodup_singleton _, fun k hk j hj heq => ?_⟩
    rw [List.mem_singleton] at hj
    exact hnew (hj ▸ heq ▸ hk)
  · have hnumbered := count_numbered added 1 (primaryModel added.modelUsage) x
    have hadd := count_saturatingAdd (hfile.session_priced hpriced)
      (priced_numbered hadded 1 (primaryModel added.modelUsage))
      ((congrArg (file.session.count x + ·) hnumbered).trans_le (hfits x))
    have hsum := hadd.trans (congrArg (file.session.count x + ·) hnumbered)
    rw [hcount, ← hfile.session]
    exact (count_numbered _ _ _ x).trans hsum
  · refine List.forall_mem_append.2 ⟨hpriced, List.forall_mem_singleton.2 ?_⟩
    exact priced_numbered hadded _ _

theorem freeNumber_cases (file : SessionUsageFile) (turnNumber : ℕ) :
    file.freeNumber turnNumber = turnNumber ∨
      ∃ k ∈ file.turnNumbers, file.freeNumber turnNumber ≤ k + 1 := by
  rw [SessionUsageFile.freeNumber]
  by_cases htaken : turnNumber ∈ file.turnNumbers
  · rw [if_pos htaken]
    refine Or.inr ?_
    cases hmax : file.turnNumbers.max? with
    | none => exact absurd (List.max?_eq_none_iff.1 hmax ▸ htaken) List.not_mem_nil
    | some highest => exact ⟨highest, (List.max?_eq_some_iff.1 hmax).1, Nat.min_le_left _ _⟩
  · rw [if_neg htaken]
    exact Or.inl rfl

/-- Below the highest number of 32 bits a number past every turn is found. -/
theorem freeNumber_notMem (hbelow : ∀ k ∈ file.turnNumbers, k < u32Max) (turnNumber : ℕ) :
    file.freeNumber turnNumber ∉ file.turnNumbers := by
  rw [SessionUsageFile.freeNumber]
  by_cases htaken : turnNumber ∈ file.turnNumbers
  · rw [if_pos htaken]
    intro hmem
    cases hmax : file.turnNumbers.max? with
    | none => exact absurd (List.max?_eq_none_iff.1 hmax ▸ htaken) List.not_mem_nil
    | some highest =>
      obtain ⟨hhighest, hle⟩ := List.max?_eq_some_iff.1 hmax
      rw [hmax, Option.getD_some, u32SaturatingAdd,
        Nat.min_eq_left (Nat.succ_le_of_lt (hbelow highest hhighest))] at hmem
      exact absurd (hle _ hmem) (Nat.not_succ_le_self highest)
  · rwa [if_neg htaken]

/-- A grown ledger covers the one before it, and what is added is the growth. -/
theorem turnUsage_spec {live : UsageSummary} {prevLive : Option UsageSummary}
    (hlive : live.Balanced) (hprev : ∀ previous ∈ prevLive, previous.Balanced)
    (hle : ∀ x, (prevLive.getD {}).count x ≤ live.count x) (hfits : ∀ x, live.count x ≤ x.limit) :
    (turnUsage live prevLive).Balanced ∧
      ∀ x, (turnUsage live prevLive).count x = live.count x - (prevLive.getD {}).count x := by
  cases prevLive with
  | none =>
    refine ⟨hlive, fun x => ?_⟩
    rw [Option.getD_none, count_default, sub_zero]
    rfl
  | some previous =>
    have hcovers : live.covers previous = true := by
      have hinput : previous.inputTokens ≤ live.inputTokens :=
        Int.ofNat_le.1 (hle (.whole .inputTokens))
      have houtput : previous.outputTokens ≤ live.outputTokens :=
        Int.ofNat_le.1 (hle (.whole .outputTokens))
      have hcalls : previous.modelCalls ≤ live.modelCalls :=
        Int.ofNat_le.1 (hle (.whole .modelCalls))
      simp [UsageSummary.covers, hinput, houtput, hcalls]
    have hbalanced := hprev previous rfl
    rw [turnUsage, if_pos hcovers]
    exact ⟨hlive.sub hbalanced hle hfits, count_saturatingSub hlive hbalanced hle hfits⟩

/-- Whatever turn the usage goes to, it is counted once. -/
theorem takesIn_applyTurnInternal {live : UsageSummary} {prevLive : Option UsageSummary}
    (hfile : file.AddsUp) (hpriced : PricedTurns file.turns)
    (hbelow : ∀ k ∈ file.turnNumbers, k < u32Max) (hadded : (turnUsage live prevLive).Balanced)
    (hfits : ∀ x, file.session.count x + (turnUsage live prevLive).count x ≤ x.limit)
    (turnNumber : ℕ) (endedAt : Str) (foldInto : Option ℕ) :
    TakesIn file (file.applyTurnInternal turnNumber endedAt live prevLive foldInto).1
        (turnUsage live prevLive).count ∧
      ∀ k ∈ (file.applyTurnInternal turnNumber endedAt live prevLive foldInto).1.turnNumbers,
        k = turnNumber ∨ ∃ j ∈ file.turnNumbers, k ≤ j + 1 := by
  let stamped : SessionUsageFile := { file with updatedAt := endedAt }
  have hstamped : stamped.AddsUp := ⟨hfile.distinct, hfile.session, hfile.turnCount⟩
  rw [SessionUsageFile.applyTurnInternal]
  cases hfold : foldInto.filter (· ∈ stamped.turnNumbers) with
  | some foldN =>
    have hmem : foldN ∈ stamped.turnNumbers := by
      have hfound := (Option.filter_eq_some_iff.1 hfold).2
      exact of_decide_eq_true hfound
    have hkept : ∀ k ∈ file.turnNumbers, k = turnNumber ∨ ∃ j ∈ file.turnNumbers, k ≤ j + 1 :=
      fun k hk => Or.inr ⟨k, hk, Nat.le_succ k⟩
    by_cases hzero : (turnUsage live prevLive).isZero = true
    · -- nothing is added, and nothing is what the ledger grew by
      have hnone := hadded.count_of_isZero hzero
      dsimp only
      rw [if_pos hzero]
      refine ⟨⟨hstamped, hpriced, fun x => ?_⟩, hkept⟩
      rw [hnone, add_zero]
    · dsimp only
      rw [if_neg hzero]
      have htakes : TakesIn stamped _ _ :=
        takesIn_foldTurn hstamped hpriced hadded.toPriced hfits hmem endedAt
      refine ⟨⟨htakes.addsUp, htakes.priced, htakes.count⟩, ?_⟩
      intro k hk
      rw [turnNumbers_foldTurn stamped] at hk
      exact hkept k hk
  | none =>
    have htakes : TakesIn stamped _ _ := takesIn_pushTurn hstamped hpriced hadded.toPriced hfits
      (freeNumber_notMem hbelow turnNumber) endedAt
    refine ⟨⟨htakes.addsUp, htakes.priced, htakes.count⟩, fun k hk => ?_⟩
    rw [turnNumbers_pushTurn stamped] at hk
    cases List.mem_append.1 hk with
    | inl hold => exact Or.inr ⟨k, hold, Nat.le_succ k⟩
    | inr hnew =>
      rw [List.mem_singleton.1 hnew]
      exact freeNumber_cases stamped turnNumber

/-- A call adds to the turns what the ledger grew by. -/
theorem takesIn_applyTurn {live : UsageSummary} {prevLive : Option UsageSummary}
    (hfile : file.AddsUp) (hpriced : PricedTurns file.turns)
    (hbelow : ∀ k ∈ file.turnNumbers, k < u32Max)
    (hlive : live.Balanced) (hprev : ∀ previous ∈ prevLive, previous.Balanced)
    (hle : ∀ x, (prevLive.getD {}).count x ≤ live.count x) (hlimit : ∀ x, live.count x ≤ x.limit)
    (hfits : ∀ x, file.session.count x + (live.count x - (prevLive.getD {}).count x) ≤ x.limit)
    (turnNumber : ℕ) (endedAt : Str) :
    TakesIn file (file.applyTurn turnNumber endedAt live prevLive).1
        (fun x => live.count x - (prevLive.getD {}).count x) ∧
      ∀ k ∈ (file.applyTurn turnNumber endedAt live prevLive).1.turnNumbers,
        k = turnNumber ∨ ∃ j ∈ file.turnNumbers, k ≤ j + 1 := by
  obtain ⟨hadded, hgrowth⟩ := turnUsage_spec hlive hprev hle hlimit
  have hroom : ∀ x, file.session.count x + (turnUsage live prevLive).count x ≤ x.limit := by
    intro x
    rw [hgrowth]
    exact hfits x
  obtain ⟨htakes, hnumbers⟩ := takesIn_applyTurnInternal hfile hpriced hbelow hadded hroom
    turnNumber endedAt
    (if file.lastIncomingTurn = some turnNumber then file.lastWrittenTurn else none)
  refine ⟨⟨⟨htakes.addsUp.distinct, htakes.addsUp.session, htakes.addsUp.turnCount⟩, htakes.priced,
    fun x => ?_⟩, hnumbers⟩
  show _ = turnsCount file.turns x + (live.count x - (prevLive.getD {}).count x)
  rw [← hgrowth]
  exact htakes.count x

/-- What is kept of the turns is summed up anew. -/
theorem takesIn_retainTurnsThrough (hfile : file.AddsUp) (hpriced : PricedTurns file.turns)
    (hstored : ∀ x, file.session.count x ≤ x.limit) (maxTurn : ℕ) :
    (file.retainTurnsThrough maxTurn).AddsUp ∧
      PricedTurns (file.retainTurnsThrough maxTurn).turns ∧
      ∀ x, turnsCount (file.retainTurnsThrough maxTurn).turns x ≤ turnsCount file.turns x := by
  have hle := turnsCount_filter_le hpriced (fun turn => turn.turnNumber ≤ maxTurn)
  have hkept : PricedTurns (file.turns.filter fun turn => turn.turnNumber ≤ maxTurn) :=
    fun turn hturn => hpriced turn (List.mem_of_mem_filter hturn)
  have hsum := (count_foldl_saturatingAdd _ priced_default hkept fun x => by
    rw [count_default, zero_add]
    exact (hle x).trans ((hfile.session x).symm.trans_le (hstored x))).2
  refine ⟨⟨?_, fun x => ?_, rfl⟩, hkept, hle⟩
  · exact (List.filter_sublist.map TurnUsage.turnNumber).nodup hfile.distinct
  · have hx := hsum x
    rw [count_default, zero_add] at hx
    exact (count_numbered _ _ _ x).trans hx

end Calls

/-! ## Runs -/

section Runs

inductive UsageOp where
  | applyTurn (turnNumber : ℕ) (endedAt : Str) (live : UsageSummary)
  | retainTurnsThrough (maxTurn : ℕ)

def UsageOp.live? : UsageOp → Option UsageSummary
  | applyTurn _ _ live => some live
  | retainTurnsThrough _ => none

def UsageOp.incoming? : UsageOp → Option ℕ
  | applyTurn turnNumber _ _ => some turnNumber
  | retainTurnsThrough _ => none

def lives (ops : List UsageOp) : List UsageSummary := ops.filterMap UsageOp.live?

/-- The file, and the ledger as the call before saw it. -/
structure UsageRun where
  file : SessionUsageFile
  prevLive : Option UsageSummary := none

namespace UsageRun

def live (run : UsageRun) : UsageSummary := run.prevLive.getD {}

def step (run : UsageRun) : UsageOp → UsageRun
  | .applyTurn turnNumber endedAt live =>
    { file := (run.file.applyTurn turnNumber endedAt live run.prevLive).1, prevLive := some live }
  | .retainTurnsThrough maxTurn => { run with file := run.file.retainTurnsThrough maxTurn }

def after (run : UsageRun) (ops : List UsageOp) : UsageRun := ops.foldl step run

/-- Nothing that a call adds goes past 64 bits. -/
def FitsAlong : UsageRun → List UsageOp → Prop
  | _, [] => True
  | run, op :: ops =>
    (∀ live ∈ op.live?, ∀ x,
      run.file.session.count x + (live.count x - run.live.count x) ≤ x.limit) ∧
      FitsAlong (run.step op) ops

end UsageRun

def Growing (summaries : List UsageSummary) : Prop :=
  summaries.Pairwise fun previous live => ∀ x, previous.count x ≤ live.count x

def FromLedgers (summaries : List UsageSummary) : Prop :=
  ∀ live ∈ summaries, ∃ ledger : UsageLedger, ledger.Recorded ∧ live = .fromLedger ledger

/-- What holds at every step of a run, with the steps that are still to come. -/
structure Accounted (run : UsageRun) (ops : List UsageOp) : Prop where
  addsUp : run.file.AddsUp
  priced : PricedTurns run.file.turns
  stored : ∀ x, run.file.session.count x ≤ x.limit
  balanced : ∀ previous ∈ run.prevLive, previous.Balanced
  ledgers : FromLedgers (lives ops)
  covered : ∀ live ∈ lives ops, ∀ x, run.live.count x ≤ live.count x
  growing : Growing (lives ops)
  room : ∀ k ∈ run.file.turnNumbers ++ ops.filterMap UsageOp.incoming?,
    k + (lives ops).length < u32Max
  fits : run.FitsAlong ops

theorem Accounted.retain {run : UsageRun} {maxTurn : ℕ} {ops : List UsageOp}
    (h : Accounted run (.retainTurnsThrough maxTurn :: ops)) :
    Accounted (run.step (.retainTurnsThrough maxTurn)) ops := by
  obtain ⟨haddsUp, hpriced, hle⟩ := takesIn_retainTurnsThrough h.addsUp h.priced h.stored maxTurn
  refine ⟨haddsUp, hpriced, fun x => ?_, h.balanced, h.ledgers, h.covered, h.growing,
    fun k hk => ?_, h.fits.2⟩
  · have hsum := haddsUp.session x
    have hx := hle x
    have hstored := h.stored x
    rw [h.addsUp.session] at hstored
    show (run.file.retainTurnsThrough maxTurn).session.count x ≤ x.limit
    omega
  · have hsub : (run.file.retainTurnsThrough maxTurn).turnNumbers.Sublist run.file.turnNumbers :=
      List.filter_sublist.map TurnUsage.turnNumber
    exact h.room k ((hsub.append_right _).subset hk)

theorem Accounted.call {run : UsageRun} {turnNumber : ℕ} {endedAt : Str} {live : UsageSummary}
    {ops : List UsageOp} (h : Accounted run (.applyTurn turnNumber endedAt live :: ops)) :
    Accounted (run.step (.applyTurn turnNumber endedAt live)) ops ∧
      ∀ x, turnsCount (run.step (.applyTurn turnNumber endedAt live)).file.turns x =
        turnsCount run.file.turns x + (live.count x - run.live.count x) := by
  have hlives : lives (.applyTurn turnNumber endedAt live :: ops) = live :: lives ops := rfl
  obtain ⟨ledger, hrecorded, hledger⟩ := h.ledgers live List.mem_cons_self
  obtain ⟨hlive, hlimit⟩ := hrecorded.fromLedger
  rw [← hledger] at hlive hlimit
  have hroom : ∀ k ∈ run.file.turnNumbers ++ turnNumber :: ops.filterMap UsageOp.incoming?,
      k + 1 + (lives ops).length < u32Max := by
    intro k hk
    have hk' := h.room k hk
    rw [hlives, List.length_cons] at hk'
    omega
  have hbelow : ∀ k ∈ run.file.turnNumbers, k < u32Max := by
    intro k hk
    have hk' := hroom k (List.mem_append_left _ hk)
    omega
  obtain ⟨htakes, hnumbers⟩ := takesIn_applyTurn h.addsUp h.priced hbelow hlive h.balanced
    (h.covered live List.mem_cons_self) hlimit (h.fits.1 live rfl) turnNumber endedAt
  have hgrowing := List.pairwise_cons.1 h.growing
  refine ⟨⟨htakes.addsUp, htakes.priced, fun x => ?_, fun previous hprevious => ?_,
    fun other hother => h.ledgers other (List.mem_cons_of_mem _ hother), hgrowing.1, hgrowing.2,
    fun k hk => ?_, h.fits.2⟩, htakes.count⟩
  · have hcount := htakes.count x
    rw [← h.addsUp.session] at hcount
    exact ((htakes.addsUp.session x).trans hcount).trans_le (h.fits.1 live rfl x)
  · rw [← Option.some.inj hprevious]
    exact hlive
  · cases List.mem_append.1 hk with
    | inl hnumber =>
      cases hnumbers k hnumber with
      | inl heq =>
        have hk' := hroom turnNumber (List.mem_append_right _ List.mem_cons_self)
        omega
      | inr hnext =>
        obtain ⟨j, hj, hle⟩ := hnext
        have hj' := hroom j (List.mem_append_left _ hj)
        omega
    | inr hlater =>
      have hk' := hroom k (List.mem_append_right _ (List.mem_cons_of_mem _ hlater))
      omega

theorem Accounted.step {run : UsageRun} {op : UsageOp} {ops : List UsageOp}
    (h : Accounted run (op :: ops)) : Accounted (run.step op) ops := by
  cases op with
  | applyTurn turnNumber endedAt live => exact h.call.1
  | retainTurnsThrough maxTurn => exact h.retain

theorem Accounted.after {run : UsageRun} (done : List UsageOp) {todo : List UsageOp}
    (h : Accounted run (done ++ todo)) : Accounted (run.after done) todo := by
  induction done generalizing run with
  | nil => exact h
  | cons op done ih => exact ih h.step

/-- While nothing is cut off, the turns grow as the ledger does. -/
theorem Accounted.growth {run : UsageRun} {calls : List UsageOp}
    (hcalls : ∀ op ∈ calls, op.live?.isSome) {todo : List UsageOp}
    (h : Accounted run (calls ++ todo)) (x : Bucket) :
    turnsCount (run.after calls).file.turns x - turnsCount run.file.turns x =
      (run.after calls).live.count x - run.live.count x := by
  induction calls generalizing run with
  | nil => exact (sub_self _).trans (sub_self _).symm
  | cons op calls ih =>
    have hrest := ih (fun o ho => hcalls o (List.mem_cons_of_mem _ ho)) h.step
    cases op with
    | applyTurn turnNumber endedAt live =>
      have hcall := h.call.2 x
      have hlive : (run.step (.applyTurn turnNumber endedAt live)).live = live := rfl
      rw [hcall, hlive] at hrest
      show turnsCount ((run.step _).after calls).file.turns x - _ =
        ((run.step _).after calls).live.count x - _
      omega
    | retainTurnsThrough maxTurn =>
      exact absurd (hcalls _ List.mem_cons_self) Bool.false_ne_true

/-- In every run of calls and rewinds whose ledgers grow, the file adds up after every step. Until
the next rewind the turns take in what the ledger grows by. -/
theorem usageFile_addsUp {file : SessionUsageFile} {ops : List UsageOp} (hfile : file.AddsUp)
    (hpriced : PricedTurns file.turns) (hstored : ∀ x, file.session.count x ≤ x.limit)
    (hledgers : FromLedgers (lives ops)) (hgrowing : Growing (lives ops))
    (hroom : ∀ k ∈ file.turnNumbers ++ ops.filterMap UsageOp.incoming?,
      k + (lives ops).length < u32Max)
    (hfits : (UsageRun.mk file none).FitsAlong ops) :
    (∀ done todo, ops = done ++ todo → ((UsageRun.mk file none).after done).file.AddsUp) ∧
      ∀ done calls todo, ops = done ++ calls ++ todo → (∀ op ∈ calls, op.live?.isSome) →
        ∀ x, turnsCount ((UsageRun.mk file none).after (done ++ calls)).file.turns x -
            turnsCount ((UsageRun.mk file none).after done).file.turns x =
          ((UsageRun.mk file none).after (done ++ calls)).live.count x -
            ((UsageRun.mk file none).after done).live.count x := by
  have hstart : Accounted (UsageRun.mk file none) ops := by
    refine ⟨hfile, hpriced, hstored, fun _ h => absurd h (by simp), hledgers,
      fun live hlive x => ?_, hgrowing, hroom, hfits⟩
    obtain ⟨ledger, hrecorded, hledger⟩ := hledgers live hlive
    rw [UsageRun.live, Option.getD_none, count_default, hledger]
    exact UsageSummary.count_nonneg hrecorded.fromLedger.1.toPriced x
  constructor
  · intro done todo hops
    rw [hops] at hstart
    exact (hstart.after done).addsUp
  · intro done calls todo hops hcalls x
    rw [hops, List.append_assoc] at hstart
    have hafter : (UsageRun.mk file none).after (done ++ calls) =
        ((UsageRun.mk file none).after done).after calls := List.foldl_append
    rw [hafter]
    exact (hstart.after done).growth hcalls x

/-- A ledger of one call. -/
def oneCall : UsageLedger :=
  ({} : UsageLedger).recordMainLoopCall "m".toList
    { promptTokens := 4, completionTokens := 2, reasoningTokens := 1, cachedPromptTokens := 0,
      cacheCreationPromptTokens := 0 } (some 3)

/-- The ledger after another such call. -/
def twoCalls : UsageLedger :=
  oneCall.recordMainLoopCall "m".toList
    { promptTokens := 4, completionTokens := 2, reasoningTokens := 1, cachedPromptTokens := 0,
      cacheCreationPromptTokens := 0 } (some 3)

def callTwice : List UsageOp :=
  [.applyTurn 1 [] (.fromLedger oneCall), .applyTurn 1 [] (.fromLedger twoCalls),
    .retainTurnsThrough 0]

theorem oneCall_recorded : oneCall.Recorded :=
  .mainLoop _ _ _ .new fun c => by cases c <;> decide

theorem twoCalls_recorded : twoCalls.Recorded :=
  .mainLoop _ _ _ oneCall_recorded fun c => by cases c <;> decide

theorem forall_bucket {p : Bucket → Prop} (name : Str) (hwhole : ∀ c, p (.whole c))
    (hname : ∀ c, p (.model name c)) (hother : ∀ other c, other ≠ name → p (.model other c))
    (x : Bucket) : p x := by
  cases x with
  | whole c => exact hwhole c
  | model other c =>
    by_cases heq : other = name
    · exact heq ▸ hname c
    · exact hother other c heq

theorem usageFile_addsUp_callTwice :
    (∀ done todo, callTwice = done ++ todo → ((UsageRun.mk {} none).after done).file.AddsUp) ∧
      ∀ done calls todo, callTwice = done ++ calls ++ todo → (∀ op ∈ calls, op.live?.isSome) →
        ∀ x, turnsCount ((UsageRun.mk {} none).after (done ++ calls)).file.turns x -
            turnsCount ((UsageRun.mk {} none).after done).file.turns x =
          ((UsageRun.mk {} none).after (done ++ calls)).live.count x -
            ((UsageRun.mk {} none).after done).live.count x := by
  have hzero : ∀ x, ({} : SessionUsageFile).session.count x = 0 := count_default
  have hmodels : ∀ usage : UsageSummary, usage.modelUsage.models = {"m".toList} →
      ∀ other c, other ≠ "m".toList → usage.count (.model other c) = 0 := by
    intro usage husage other c hother
    refine count_of_notMem (fun h => hother ?_) c
    rw [husage] at h
    exact Finset.mem_singleton.1 h
  refine usageFile_addsUp ⟨List.nodup_nil, fun x => hzero x, rfl⟩
    (fun _ h => absurd h List.not_mem_nil) (fun x => (hzero x).trans_le x.limit_nonneg) ?_ ?_ ?_ ⟨?_, ?_, ?_, trivial⟩
  · exact List.forall_mem_cons.2 ⟨⟨oneCall, oneCall_recorded, rfl⟩,
      List.forall_mem_singleton.2 ⟨twoCalls, twoCalls_recorded, rfl⟩⟩
  · refine List.pairwise_pair.2 (forall_bucket "m".toList ?_ ?_ fun other c hother => ?_)
    · intro c
      cases c <;> decide
    · intro c
      cases c <;> decide
    · rw [hmodels (.fromLedger oneCall) rfl other c hother,
        hmodels (.fromLedger twoCalls) rfl other c hother]
  · decide
  · intro live hlive
    rw [← Option.some.inj hlive]
    refine forall_bucket "m".toList ?_ ?_ fun other c hother => ?_
    · intro c
      cases c <;> decide
    · intro c
      cases c <;> decide
    · have hone := hmodels (.fromLedger oneCall) rfl other c hother
      rw [hone, hzero]
      show 0 + (0 - ({} : UsageSummary).count (.model other c)) ≤ _
      rw [count_default]
      exact (Bucket.model other c).limit_nonneg
  · intro live hlive
    rw [← Option.some.inj hlive]
    refine forall_bucket "m".toList ?_ ?_ fun other c hother => ?_
    · intro c
      cases c <;> decide
    · intro c
      cases c <;> decide
    · have hsession := hmodels ((UsageRun.mk {} none).step
        (.applyTurn 1 [] (.fromLedger oneCall))).file.session rfl other c hother
      have htwo := hmodels (.fromLedger twoCalls) rfl other c hother
      have hone := hmodels (.fromLedger oneCall) rfl other c hother
      rw [hsession, htwo]
      show 0 + (0 - (UsageSummary.fromLedger oneCall).count (.model other c)) ≤ _
      rw [hone]
      exact (Bucket.model other c).limit_nonneg
  · exact fun live hlive => absurd hlive (by simp [UsageOp.live?])

/-- A summary in which nothing was used. -/
def unused : UsageSummary := .fromLedger {}

def lastNumberTwice : List UsageOp :=
  [.applyTurn u32Max [] unused, .applyTurn 1 [] unused, .applyTurn u32Max [] unused]

/-- A file with a turn whose cost is negative. -/
def refunded : SessionUsageFile where
  session := { costUsdTicks := some (-5), turnCount := 1 }
  turns := [{ turnNumber := 1, endedAt := [], usage := { costUsdTicks := some (-5) } }]

/-- A summary of which only the row of a model counts. -/
def unbalanced : UsageSummary where
  modelUsage := { rows := [("m".toList, { inputTokens := 5 })] }

/-- The highest number has none after it; a cost that is not positive is not kept; a growth that
the whole does not show is passed by. -/
theorem usageFile_not_addsUp :
    (({} : SessionUsageFile).AddsUp ∧ FromLedgers (lives lastNumberTwice) ∧
      Growing (lives lastNumberTwice) ∧ (UsageRun.mk {} none).FitsAlong lastNumberTwice ∧
      ((UsageRun.mk {} none).after lastNumberTwice).file.turnNumbers = [u32Max, 1, u32Max]) ∧
    (refunded.AddsUp ∧
      ((UsageRun.mk refunded none).after [.applyTurn 2 [] unused]).file.session.count
        (.whole .costUsdTicks) = 0 ∧
      turnsCount ((UsageRun.mk refunded none).after [.applyTurn 2 [] unused]).file.turns
        (.whole .costUsdTicks) = -5) ∧
    (Growing [unused, unbalanced] ∧
      unbalanced.count (.model "m".toList .inputTokens) = 5 ∧
      turnsCount ((UsageRun.mk {} none).after
        [.applyTurn 1 [] unused, .applyTurn 1 [] unbalanced]).file.turns
          (.model "m".toList .inputTokens) = 0) := by
  have hzero : ∀ x, unused.count x = 0 := count_default
  have hempty : ∀ x, ({} : SessionUsageFile).session.count x = 0 := count_default
  refine ⟨⟨⟨List.nodup_nil, fun x => hempty x, rfl⟩, ?_, ?_, ?_, by decide⟩,
    ⟨⟨List.nodup_singleton _, fun x => ?_, rfl⟩, by decide, by decide⟩, ?_, by decide, by decide⟩
  · refine List.forall_mem_cons.2 ⟨⟨{}, .new, rfl⟩, List.forall_mem_cons.2 ⟨⟨{}, .new, rfl⟩,
      List.forall_mem_singleton.2 ⟨{}, .new, rfl⟩⟩⟩
  · have hunused : ∀ live ∈ [unused, unused, unused], live = unused := by
      intro live hlive
      simpa using hlive
    refine List.pairwise_of_forall_mem_list fun previous hprevious live hlive x => ?_
    rw [hunused previous hprevious, hunused live hlive]
  · have hfits : ∀ (session : UsageSummary), session.toUsageRow = {} → session.modelUsage = {} →
        ∀ x : Bucket, session.count x + (unused.count x - unused.count x) ≤ x.limit := by
      intro session hrow hmodels x
      rw [sub_self, add_zero]
      cases x with
      | whole c =>
        rw [UsageSummary.count, hrow]
        exact (get_zero c).trans_le c.limit_nonneg
      | model name c =>
        rw [UsageSummary.count, hmodels]
        exact (get_zero c).trans_le c.limit_nonneg
    refine ⟨fun live hlive => ?_, fun live hlive => ?_, fun live hlive => ?_, trivial⟩
    · rw [← Option.some.inj hlive]
      exact hfits _ rfl rfl
    · rw [← Option.some.inj hlive]
      exact hfits _ (by decide) (by decide)
    · rw [← Option.some.inj hlive]
      exact hfits _ (by decide) (by decide)
  · show refunded.session.count x = turnsCount [_] x
    rw [turnsCount_singleton]
    cases x with
    | whole c => cases c <;> rfl
    | model name c => rfl
  · refine List.pairwise_pair.2 (forall_bucket "m".toList ?_ ?_ fun other c hother => ?_)
    · intro c
      cases c <;> decide
    · intro c
      cases c <;> decide
    · rw [hzero, count_of_notMem fun h => hother (Finset.mem_singleton.1 h)]

end Runs

end GrokBuild.Usage
