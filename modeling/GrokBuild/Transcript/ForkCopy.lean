import GrokBuild.Transcript.DeltaOrder
import GrokBuild.Transcript.Readers

/-!
# Copying the updates of a fork

`session/storage/jsonl/copy.rs`: `updates.jsonl` is read twice. The first pass finds the lines that
survive the rewinds and come before the cut; the second copies them by their numbers. Between the
two the file may have grown.
-/

namespace GrokBuild.Transcript

open GrokBuild.Text

section CappedLines

/-- `take(limit).read_until(b'\n', buf)`: what is read, and what is left of the file. -/
@[grind] def readUntil : ℕ → Bytes → Bytes × Bytes
  | 0, bytes => ([], bytes)
  | _ + 1, [] => ([], [])
  | limit + 1, b :: bytes =>
    if b = 0x0a then ([b], bytes)
    else (b :: (readUntil limit bytes).1, (readUntil limit bytes).2)

theorem readUntil_append (limit : ℕ) (bytes : Bytes) :
    (readUntil limit bytes).1 ++ (readUntil limit bytes).2 = bytes := by
  induction limit generalizing bytes with
  | zero => rfl
  | succ limit ih =>
    cases bytes with
    | nil => rfl
    | cons b bytes =>
      rw [readUntil]
      by_cases hb : b = 0x0a
      · rw [if_pos hb]
        rfl
      · rw [if_neg hb, List.cons_append, ih]

theorem length_readUntil {limit : ℕ} {bytes : Bytes} (h : (readUntil limit bytes).1 ≠ []) :
    (readUntil limit bytes).2.length < bytes.length := by
  have hlength := congrArg List.length (readUntil_append limit bytes)
  have hpos := List.length_pos_iff.2 h
  rw [List.length_append] at hlength
  omega

/-- The rest of an over-long line is read and forgotten. -/
def drainLine (cap : ℕ) (bytes : Bytes) : Bytes :=
  if _h : (readUntil cap bytes).1 = [] ∨ (readUntil cap bytes).1.getLast? = some 0x0a then
    (readUntil cap bytes).2
  else drainLine cap (readUntil cap bytes).2
termination_by bytes.length
decreasing_by exact length_readUntil (not_or.1 _h).1

theorem length_drainLine (cap : ℕ) (bytes : Bytes) :
    (drainLine cap bytes).length ≤ bytes.length := by
  induction hn : bytes.length using Nat.strong_induction_on generalizing bytes with
  | _ n ih =>
    have happend := congrArg List.length (readUntil_append cap bytes)
    rw [List.length_append] at happend
    rw [drainLine]
    split
    · omega
    · next h =>
      have hlt := length_readUntil (not_or.1 h).1
      have hrest := ih _ (hn ▸ hlt) _ rfl
      omega

/-- The lines that `for_each_jsonl_line_capped` numbers: those over the cap are left out, and so
are blank ones. -/
@[grind] def forEachJsonlLineCapped (cap : ℕ) (bytes : Bytes) : List Bytes :=
  if h : (readUntil (cap + 1) bytes).1 = [] then []
  else if cap < (readUntil (cap + 1) bytes).1.length ∧
      (readUntil (cap + 1) bytes).1.getLast? ≠ some 0x0a then
    forEachJsonlLineCapped cap (drainLine cap (readUntil (cap + 1) bytes).2)
  else
    let line := trimMatches isAsciiWhitespaceByte (readUntil (cap + 1) bytes).1
    if line = [] then forEachJsonlLineCapped cap (readUntil (cap + 1) bytes).2
    else line :: forEachJsonlLineCapped cap (readUntil (cap + 1) bytes).2
termination_by bytes.length
decreasing_by
  · exact (length_drainLine _ _).trans_lt (length_readUntil h)
  · exact length_readUntil h
  · exact length_readUntil h

def maxUpdateLineBytes : ℕ := 64 * 1024 * 1024

def forEachJsonlLine (bytes : Bytes) : List Bytes := forEachJsonlLineCapped maxUpdateLineBytes bytes

/-- What the reader makes of a line. -/
@[grind] def cappedLine (cap : ℕ) (line : Bytes) : Option Bytes :=
  if cap < line.length then none
  else
    let line := trimMatches isAsciiWhitespaceByte line
    if line = [] then none else some line

theorem readUntil_line {x : Bytes} (h : (0x0a : UInt8) ∉ x) (limit : ℕ) (t : Bytes) :
    readUntil limit (x ++ 0x0a :: t) =
      if x.length < limit then (x ++ [0x0a], t) else (x.take limit, x.drop limit ++ 0x0a :: t) := by
  induction x generalizing limit with
  | nil =>
    cases limit with
    | zero => rfl
    | succ limit => rfl
  | cons b x ih =>
    rw [List.mem_cons, not_or] at h
    cases limit with
    | zero => rfl
    | succ limit =>
      rw [List.cons_append, readUntil, if_neg fun hb => h.1 hb.symm, ih h.2]
      have hiff : (b :: x).length < limit + 1 ↔ x.length < limit := Nat.succ_lt_succ_iff
      by_cases hlt : x.length < limit
      · rw [if_pos hlt, if_pos (hiff.2 hlt)]
        rfl
      · rw [if_neg hlt, if_neg (hlt ∘ hiff.1)]
        rfl

theorem readUntil_last {x : Bytes} (h : (0x0a : UInt8) ∉ x) (limit : ℕ) :
    readUntil limit x = (x.take limit, x.drop limit) := by
  induction x generalizing limit with
  | nil =>
    cases limit with
    | zero => rfl
    | succ limit => rfl
  | cons b x ih =>
    rw [List.mem_cons, not_or] at h
    cases limit with
    | zero => rfl
    | succ limit =>
      rw [readUntil, if_neg fun hb => h.1 hb.symm, ih h.2]
      rfl

theorem getLast?_take_ne {x : Bytes} (h : (0x0a : UInt8) ∉ x) (n : ℕ) :
    (x.take n).getLast? ≠ some 0x0a :=
  fun hlast => h (List.mem_of_mem_take (List.mem_of_getLast? hlast))

theorem drainLine_line {cap : ℕ} (hcap : 0 < cap) {x : Bytes} (h : (0x0a : UInt8) ∉ x) (t : Bytes) :
    drainLine cap (x ++ 0x0a :: t) = t := by
  induction hn : x.length using Nat.strong_induction_on generalizing x with
  | _ n ih =>
    rw [drainLine, readUntil_line h]
    by_cases hlt : x.length < cap
    · rw [if_pos hlt]
      dsimp only
      rw [dif_pos (Or.inr List.getLast?_concat)]
    · rw [if_neg hlt]
      have htake : x.take cap ≠ [] := by
        rw [Ne, List.take_eq_nil_iff, not_or]
        exact ⟨hcap.ne', fun hnil => hlt (hnil ▸ hcap)⟩
      dsimp only
      rw [dif_neg (not_or.2 ⟨htake, getLast?_take_ne h cap⟩)]
      refine ih (x.drop cap).length ?_ (fun hmem => h (List.mem_of_mem_drop hmem)) rfl
      rw [List.length_drop]
      omega

theorem drainLine_last {cap : ℕ} (hcap : 0 < cap) {x : Bytes} (h : (0x0a : UInt8) ∉ x) :
    drainLine cap x = [] := by
  induction hn : x.length using Nat.strong_induction_on generalizing x with
  | _ n ih =>
    rw [drainLine, readUntil_last h]
    dsimp only
    by_cases htake : x.take cap = []
    · have hnil : x = [] := (List.take_eq_nil_iff.1 htake).resolve_left hcap.ne'
      rw [dif_pos (Or.inl htake), hnil, List.drop_nil]
    · rw [dif_neg (not_or.2 ⟨htake, getLast?_take_ne h cap⟩)]
      refine ih (x.drop cap).length ?_ (fun hmem => h (List.mem_of_mem_drop hmem)) rfl
      have hne : x ≠ [] := fun hnil => htake (by rw [hnil, List.take_nil])
      have hpos := List.length_pos_iff.2 hne
      rw [List.length_drop]
      omega

theorem trimMatches_newline (x : Bytes) :
    trimMatches isAsciiWhitespaceByte (x ++ [0x0a]) = trimMatches isAsciiWhitespaceByte x := by
  rw [trimMatches, trimMatches]
  by_cases hnil : x.dropWhile isAsciiWhitespaceByte = []
  · have hall := List.dropWhile_eq_nil_iff.1 hnil
    have hall' : ∀ b ∈ x ++ [0x0a], isAsciiWhitespaceByte b = true :=
      List.forall_mem_append.2 ⟨hall, List.forall_mem_singleton.2 rfl⟩
    rw [hnil, List.dropWhile_eq_nil_iff.2 hall']
  · rw [List.dropWhile_append, if_neg (by simpa using hnil), List.rdropWhile_concat_pos _ _ _ rfl]

/-- The reader takes a file line by line. -/
theorem forEachJsonlLineCapped_eq {cap : ℕ} (hcap : 0 < cap) (bytes : Bytes) :
    forEachJsonlLineCapped cap bytes = (splitNewlines bytes).filterMap (cappedLine cap) := by
  induction bytes using newline_induction with
  | last x h =>
    have hend : forEachJsonlLineCapped cap [] = [] := by
      rw [forEachJsonlLineCapped, readUntil]
      rfl
    rw [splitNewlines_last h, List.filterMap_cons, List.filterMap_nil, forEachJsonlLineCapped,
      readUntil_last h, cappedLine]
    dsimp only
    by_cases hnil : x = []
    · rw [hnil]
      rfl
    · have htake : x.take (cap + 1) ≠ [] := by
        rw [Ne, List.take_eq_nil_iff, not_or]
        exact ⟨Nat.succ_ne_zero cap, hnil⟩
      rw [dif_neg htake]
      by_cases hlong : cap < x.length
      · have hlength : (x.take (cap + 1)).length = cap + 1 :=
          List.length_take_of_le (Nat.succ_le_of_lt hlong)
        have hrest : (0x0a : UInt8) ∉ x.drop (cap + 1) := fun hmem => h (List.mem_of_mem_drop hmem)
        rw [if_pos ⟨by omega, getLast?_take_ne h _⟩, drainLine_last hcap hrest, hend, if_pos hlong]
      · have hall : x.take (cap + 1) = x := List.take_of_length_le (by omega)
        rw [hall, List.drop_of_length_le (by omega), if_neg fun hover => hlong hover.1, hend,
          if_neg hlong]
        by_cases hblank : trimMatches isAsciiWhitespaceByte x = []
        · rw [if_pos hblank, if_pos hblank]
        · rw [if_neg hblank, if_neg hblank]
  | line x t h ih =>
    rw [splitNewlines_line h, List.filterMap_cons, ← ih, forEachJsonlLineCapped, readUntil_line h,
      cappedLine]
    by_cases hlong : cap < x.length
    · have hlength : (x.take (cap + 1)).length = cap + 1 :=
        List.length_take_of_le (Nat.succ_le_of_lt hlong)
      have htake : x.take (cap + 1) ≠ [] := fun hnil => by simp [hnil] at hlength
      have hrest : (0x0a : UInt8) ∉ x.drop (cap + 1) := fun hmem => h (List.mem_of_mem_drop hmem)
      rw [if_neg (by omega : ¬x.length < cap + 1)]
      dsimp only
      rw [dif_neg htake, if_pos ⟨by omega, getLast?_take_ne h _⟩, drainLine_line hcap hrest,
        if_pos hlong]
    · have hne : x ++ [0x0a] ≠ [] := by simp
      rw [if_pos (by omega : x.length < cap + 1)]
      dsimp only
      rw [dif_neg hne, if_neg fun hover => hover.2 List.getLast?_concat, trimMatches_newline,
        if_neg hlong]
      by_cases hblank : trimMatches isAsciiWhitespaceByte x = []
      · rw [if_pos hblank, if_pos hblank]
      · rw [if_neg hblank, if_neg hblank]

theorem forEachJsonlLine_eq (bytes : Bytes) :
    forEachJsonlLine bytes = (splitNewlines bytes).filterMap (cappedLine maxUpdateLineBytes) :=
  forEachJsonlLineCapped_eq (by decide) bytes

/-- What is appended goes to the last line and behind it. -/
theorem splitNewlines_append (bytes : Bytes) :
    ∃ front last, splitNewlines bytes = front ++ [last] ∧
      ∀ appended,
        splitNewlines (bytes ++ appended) = front ++ splitNewlines (last ++ appended) := by
  induction bytes using newline_induction with
  | last x h => exact ⟨[], x, splitNewlines_last h, fun _ => rfl⟩
  | line x t h ih =>
    obtain ⟨front, last, hsplit, happend⟩ := ih
    refine ⟨x :: front, last, ?_, fun appended => ?_⟩
    · rw [splitNewlines_line h, hsplit]
      rfl
    · rw [List.append_assoc, List.cons_append, splitNewlines_line h, happend]
      rfl

/-- Every line but the last is found again in the grown file. -/
theorem getElem?_forEachJsonlLine_append (bytes appended : Bytes) {k : ℕ}
    (hk : k + 1 < (forEachJsonlLine bytes).length) :
    (forEachJsonlLine (bytes ++ appended))[k]? = (forEachJsonlLine bytes)[k]? := by
  obtain ⟨front, last, hsplit, happend⟩ := splitNewlines_append bytes
  have hlast : ([last].filterMap (cappedLine maxUpdateLineBytes)).length ≤ 1 :=
    List.length_filterMap_le _ _
  rw [forEachJsonlLine_eq, hsplit, List.filterMap_append, List.length_append] at hk
  rw [forEachJsonlLine_eq, forEachJsonlLine_eq, hsplit, happend, List.filterMap_append,
    List.filterMap_append, List.getElem?_append_left (by omega),
    List.getElem?_append_left (by omega)]

end CappedLines

section Copy

/-- A notification, and the session it is of. -/
structure Addressed (U : Type) where
  sessionId : Str
  update : U
deriving DecidableEq

/-- The updates of the other method, of which those that mirror an orchestration are told apart. -/
inductive XaiUpdate (X : Type) where
  | workflowUpdated (workflow : X)
  | goalUpdated (goal : X)
  | other (update : X)
deriving DecidableEq

abbrev SourceUpdate (A X : Type) := LoadedUpdate (Addressed A) (Addressed (XaiUpdate X))

variable {A X T : Type}

def isOrchestrationProjectionUpdate : SourceUpdate A X → Bool
  | .xai ⟨_, .workflowUpdated _⟩ => true
  | .xai ⟨_, .goalUpdated _⟩ => true
  | _ => false

def transformSessionIdInUpdate (newId : Str) : SourceUpdate A X → SourceUpdate A X
  | .acp notification => .acp { notification with sessionId := newId }
  | .xai notification => .xai { notification with sessionId := newId }

/-- What is written for a line, if anything is. -/
def copyLine (reader : EnvelopeReader (Addressed A) (Addressed (XaiUpdate X)))
    (targetSessionId : Str) (line : Bytes) : Option (SourceUpdate A X) :=
  ((fromUtf8 line).bind (fromStr reader)).bind fun update =>
    if isOrchestrationProjectionUpdate update then none
    else some (transformSessionIdInUpdate targetSessionId update)

def rewindStepForBytes (peeks : Peeks) (line : Bytes) : RewindStep :=
  match fromUtf8 line with
  | none => .other
  | some text => rewindStepForRaw peeks text

/-- The loop of `truncate_for_prompt_by`, behind so many items and counted turns. -/
@[grind] def truncateFrom (classify : T → RewindStep) (targetPromptIndex : ℕ) :
    ℕ → PromptCount → List T → ℕ
  | i, _, [] => i
  | i, count, item :: items =>
    match classify item with
    | .userChunk promptIndex =>
      let tracked := count.tracker.onUserChunk promptIndex
      let turns := if tracked.2 then count.depth + 1 else count.depth
      if tracked.2 ∧ targetPromptIndex + 1 < turns then i
      else truncateFrom classify targetPromptIndex (i + 1) ⟨turns, tracked.1⟩ items
    | _ =>
      truncateFrom classify targetPromptIndex (i + 1)
        { count with tracker := count.tracker.onNonUser } items

def truncateForPromptBy (items : List T) (targetPromptIndex : ℕ) (classify : T → RewindStep) : ℕ :=
  truncateFrom classify targetPromptIndex 0 {} items

structure LineRecord where
  index : ℕ
  step : RewindStep

def survivingLineIndexes (peeks : Peeks) (contents : Bytes) (targetPromptIndex : ℕ) : List ℕ :=
  let records := (forEachJsonlLine contents).zipIdx.map fun entry =>
    { index := entry.2, step := rewindStepForBytes peeks entry.1 : LineRecord }
  let records := filterRewindBy records LineRecord.step
  let keep := truncateForPromptBy records targetPromptIndex LineRecord.step
  (records.take keep).map LineRecord.index

/-- The second pass over the lines from a number on, which ends with the last survivor. -/
@[grind] def copySurvivors {U : Type} (copy : Bytes → Option U) : ℕ → List ℕ → List Bytes → List U
  | _, _, [] => []
  | index, survivors, line :: lines =>
    let copied := if survivors.head? = some index then (copy line).toList else []
    let survivors := if survivors.head? = some index then survivors.tail else survivors
    if survivors = [] then copied else copied ++ copySurvivors copy (index + 1) survivors lines

/-- The copy of a file that holds the contents when it is read first, and grows by what is
appended before it is read again. -/
@[grind] def copyUpdatesStreaming (peeks : Peeks)
    (reader : EnvelopeReader (Addressed A) (Addressed (XaiUpdate X))) (contents appended : Bytes)
    (targetSessionId : Str) : Option ℕ → List (SourceUpdate A X)
  | none => (forEachJsonlLine contents).filterMap (copyLine reader targetSessionId)
  | some targetPromptIndex =>
    copySurvivors (copyLine reader targetSessionId) 0
      (survivingLineIndexes peeks contents targetPromptIndex)
      (forEachJsonlLine (contents ++ appended))

/-- The filtered items before the start of a prompt, as the filter recorded it. -/
@[grind] def filteredBefore (classify : T → RewindStep) (items : List T) (prompt : ℕ) : List T :=
  let filter := StepRun.run (rewindFilterStep classify) {} items
  filter.result.take (filter.promptStarts[prompt]?.getD filter.result.length)

/-- An item that no later rewind reaches, with the prompts that are open at it: among all the
items, and among those that no rewind reaches alone. -/
structure Placed (T : Type) where
  item : T
  depth : ℕ
  own : ℕ

@[grind] def placed (classify : T → RewindStep) (s own : PromptCount) : List T → List (Placed T)
  | [] => []
  | item :: items =>
    let after := s.step (classify item)
    if rewindTarget (classify item) = none ∧ keepsDepth after.depth (items.map classify) then
      let ownAfter := own.step (classify item)
      ⟨item, after.depth, ownAfter.depth⟩ :: placed classify after ownAfter items
    else placed classify after own items

end Copy

/-! ## Where the survivors stand -/

section Placed

variable {T R : Type} {classify : T → RewindStep}

theorem map_item_placed (s own : PromptCount) (items : List T) :
    (placed classify s own items).map Placed.item = survivors classify s items := by
  induction items generalizing s own with
  | nil => rfl
  | cons item items ih =>
    rw [placed, survivors]
    by_cases hkeeps : rewindTarget (classify item) = none ∧
        keepsDepth (s.step (classify item)).depth (items.map classify)
    · simp only [hkeeps, and_self, if_true, List.map_cons, ih]
    · simp only [hkeeps, if_false, ih]

theorem placed_map (f : R → T) (s own : PromptCount) (items : List R) :
    placed classify s own (items.map f) =
      (placed (classify ∘ f) s own items).map fun p => ⟨f p.item, p.depth, p.own⟩ := by
  induction items generalizing s own with
  | nil => rfl
  | cons item items ih =>
    rw [List.map_cons, placed, placed, List.map_map]
    by_cases hkeeps : rewindTarget (classify (f item)) = none ∧
        keepsDepth (s.step (classify (f item))).depth (items.map (classify ∘ f))
    · simp only [Function.comp_apply, hkeeps, and_self, if_true, List.map_cons, ih]
    · simp only [Function.comp_apply, hkeeps, if_false, ih]

theorem depth_step_of_none (own : PromptCount) {step : RewindStep} (h : rewindTarget step = none) :
    own.depth ≤ (own.step step).depth := by
  cases step with
  | rewind target => cases h
  | other => exact le_refl _
  | userChunk promptIndex =>
    show own.depth ≤ if _ then _ else _
    split
    · exact Nat.le_succ _
    · exact le_refl _

theorem own_le_placed (s own : PromptCount) (items : List T) :
    ∀ p ∈ placed classify s own items, own.depth ≤ p.own := by
  induction items generalizing s own with
  | nil => exact fun p hp => absurd hp List.not_mem_nil
  | cons item items ih =>
    rw [placed]
    by_cases hkeeps : rewindTarget (classify item) = none ∧
        keepsDepth (s.step (classify item)).depth (items.map classify)
    · have hstep := depth_step_of_none own hkeeps.1
      rw [if_pos hkeeps]
      exact List.forall_mem_cons.2 ⟨hstep, fun p hp => hstep.trans (ih _ _ p hp)⟩
    · rw [if_neg hkeeps]
      exact ih _ _

/-- What is kept stays open at all that is kept after it. -/
theorem depth_le_placed {depth : ℕ} {s : PromptCount} (own : PromptCount) {items : List T}
    (hdepth : depth ≤ s.depth) (hkeeps : keepsDepth depth (items.map classify)) :
    ∀ p ∈ placed classify s own items, depth ≤ p.depth := by
  induction items generalizing s own with
  | nil => exact fun p hp => absurd hp List.not_mem_nil
  | cons item items ih =>
    rw [List.map_cons, keepsDepth_cons] at hkeeps
    have hafter : depth ≤ (s.step (classify item)).depth := by
      cases hstep : classify item with
      | rewind target => exact le_min (hkeeps.1 target hstep) hdepth
      | other => exact hdepth
      | userChunk promptIndex => exact hdepth.trans (depth_step_of_none s rfl)
    rw [placed]
    split
    · exact List.forall_mem_cons.2 ⟨hafter, ih _ hafter hkeeps.2⟩
    · exact ih _ hafter hkeeps.2

/-- Behind an item that is kept every count is as high as at it. -/
theorem pairwise_placed (s own : PromptCount) (items : List T) :
    (placed classify s own items).Pairwise fun p q => p.depth ≤ q.depth ∧ p.own ≤ q.own := by
  induction items generalizing s own with
  | nil => exact List.Pairwise.nil
  | cons item items ih =>
    rw [placed]
    split
    · next hkeeps =>
      refine List.pairwise_cons.2 ⟨fun q hq => ⟨?_, ?_⟩, ih _ _⟩
      · exact depth_le_placed _ (le_refl _) hkeeps.2 q hq
      · exact own_le_placed _ _ _ q hq
    · exact ih _ _

theorem keepsDepth_append_rewind (depth : ℕ) (steps : List RewindStep) (target : ℕ) :
    keepsDepth depth (steps ++ [.rewind target]) ↔ keepsDepth depth steps ∧ depth ≤ target := by
  rw [keepsDepth, List.filterMap_append, List.forall_mem_append]
  simp [keepsDepth, rewindTarget]

theorem linesAfter_run {s : KeptRuns T} (hw : s.WellFormed) (own : PromptCount) (items : List T)
    (target : ℕ) :
    linesAfter (StepRun.run (KeptRuns.step classify) s items) [.rewind target] =
      linesAfter s (items.map classify ++ [.rewind target]) ++
        ((placed classify s.count own items).filter (·.depth ≤ target)).map Placed.item := by
  induction items generalizing s own with
  | nil => exact (List.append_nil _).symm
  | cons item items ih =>
    have hstep : (s.step classify item).WellFormed := KeptRuns.wellFormed_step hw item
    have hcut := keepsDepth_append_rewind (s.count.step (classify item)).depth (items.map classify)
      target
    rw [StepRun.run_cons, placed]
    by_cases hkeeps : rewindTarget (classify item) = none ∧
        keepsDepth (s.count.step (classify item)).depth (items.map classify)
    · rw [ih hstep (own.step (classify item)), linesAfter_step hw, count_step, if_pos hkeeps,
        List.filter_cons, List.append_assoc, List.map_cons, List.cons_append]
      by_cases hle : (s.count.step (classify item)).depth ≤ target
      · rw [if_pos ⟨hkeeps.1, hcut.2 ⟨hkeeps.2, hle⟩⟩, if_pos (by simpa using hle)]
        rfl
      · rw [if_neg fun h => hle (hcut.1 h.2).2, if_neg (by simpa using hle)]
        rfl
    · rw [ih hstep own, linesAfter_step hw, count_step, if_neg hkeeps,
        if_neg fun h => hkeeps ⟨h.1, (hcut.1 h.2).1⟩, List.append_nil]
      rfl

/-- The filter's own prompts cut where more prompts are open. -/
theorem filteredBefore_eq (own : PromptCount) (items : List T) (prompt : ℕ) :
    filteredBefore classify items prompt =
      ((placed classify {} own items).filter (·.depth ≤ prompt)).map Placed.item := by
  have htracks : KeptRuns.Tracks (StepRun.run (rewindFilterStep classify) {} items)
      (KeptRuns.ofItems classify items) := KeptRuns.tracks_ofItems items
  have hcut := KeptRuns.take_starts (KeptRuns.ofItems classify items).head
    (KeptRuns.ofItems classify items).runs prompt
  have hwell : ({} : KeptRuns T).WellFormed := fun h => by (cases h)
  have hrun : linesAfter (KeptRuns.ofItems classify items) [.rewind prompt] = _ :=
    linesAfter_run hwell own items prompt
  have hnil : linesAfter ({} : KeptRuns T) (items.map classify ++ [.rewind prompt]) = [] := by
    simp [linesAfter, rewindAll_nil]
  rw [hnil, List.nil_append] at hrun
  rw [filteredBefore, htracks.result, htracks.promptStarts]
  exact hcut.trans hrun

/-- The loop goes on until the count of the turns is past the target. -/
theorem truncateFrom_cons {target : ℕ} {own : PromptCount} (hown : own.depth ≤ target + 1)
    {item : T} (hnone : rewindTarget (classify item) = none) (i : ℕ) (items : List T) :
    truncateFrom classify target i own (item :: items) =
      if target + 1 < (own.step (classify item)).depth then i
      else truncateFrom classify target (i + 1) (own.step (classify item)) items := by
  rw [truncateFrom]
  cases hstep : classify item with
  | rewind target' =>
    rw [hstep] at hnone
    cases hnone
  | other => exact (if_neg (not_lt.2 hown)).symm
  | userChunk promptIndex =>
    dsimp only [PromptCount.step]
    by_cases hopens : (own.tracker.onUserChunk promptIndex).2 = true
    · simp only [hopens, true_and, if_true]
    · have hnot : ¬target + 1 < own.depth := not_lt.2 hown
      simp only [hopens, false_and, Bool.false_eq_true, if_false, hnot]

/-- The loop over the kept items counts them by themselves. -/
theorem truncateFrom_placed (target i : ℕ) (s : PromptCount) {own : PromptCount}
    (hown : own.depth ≤ target + 1) (items : List T) :
    ∃ before behind, placed classify s own items = before ++ behind ∧
      (∀ p ∈ before, p.own ≤ target + 1) ∧ (∀ p ∈ behind, target + 1 < p.own) ∧
      truncateFrom classify target i own ((placed classify s own items).map Placed.item) =
        i + before.length := by
  induction items generalizing i s own with
  | nil => exact ⟨[], [], rfl, by simp, by simp, rfl⟩
  | cons item items ih =>
    rw [placed]
    by_cases hkeeps : rewindTarget (classify item) = none ∧
        keepsDepth (s.step (classify item)).depth (items.map classify)
    · rw [if_pos hkeeps]
      by_cases hover : target + 1 < (own.step (classify item)).depth
      · -- the first turn past the target, and every count behind it is as high
        refine ⟨[], _, rfl, by simp, ?_, ?_⟩
        · exact List.forall_mem_cons.2 ⟨hover, fun p hp =>
            hover.trans_le (own_le_placed _ _ _ p hp)⟩
        · rw [List.map_cons, truncateFrom_cons hown hkeeps.1, if_pos hover]
          rfl
      · obtain ⟨before, behind, heq, hbefore, hbehind, hloop⟩ :=
          ih (i + 1) (s.step (classify item)) (not_lt.1 hover)
        refine ⟨_ :: before, behind, congrArg (_ :: ·) heq, ?_, hbehind, ?_⟩
        · exact List.forall_mem_cons.2 ⟨not_lt.1 hover, hbefore⟩
        · rw [List.map_cons, truncateFrom_cons hown hkeeps.1, if_neg hover, hloop,
            List.length_cons, Nat.add_assoc, Nat.add_comm 1]
    · rw [if_neg hkeeps]
      exact ih i (s.step (classify item)) hown

/-- What is kept of the survivors are those at which they alone have no more open prompts. -/
theorem take_truncateForPromptBy (items : List T) (target : ℕ) :
    (filterRewindBy items classify).take
        (truncateForPromptBy (filterRewindBy items classify) target classify) =
      ((placed classify {} {} items).filter (·.own ≤ target + 1)).map Placed.item := by
  have hnone : ({} : PromptCount).depth ≤ target + 1 := Nat.zero_le _
  have hloop : ∃ before behind, placed classify {} {} items = before ++ behind ∧ _ :=
    truncateFrom_placed target 0 {} hnone items
  obtain ⟨before, behind, heq, hbefore, hbehind, hloop⟩ := hloop
  have hkept : before.filter (·.own ≤ target + 1) = before :=
    List.filter_eq_self.2 fun p hp => decide_eq_true (hbefore p hp)
  have hcut : behind.filter (·.own ≤ target + 1) = [] :=
    List.filter_eq_nil_iff.2 fun p hp => by simpa using hbehind p hp
  rw [filterRewindBy_eq_survivors, ← map_item_placed {} {} items, truncateForPromptBy, hloop, heq,
    List.filter_append, hkept, hcut, List.append_nil, Nat.zero_add, List.map_append,
    List.take_left' (List.length_map _)]

end Placed

/-! ## The second pass -/

section SecondPass

/-- A survivor is copied where its number is found. -/
theorem copySurvivors_eq {U : Type} (copy : Bytes → Option U) {index : ℕ} {survivors : List ℕ}
    (hsorted : survivors.Pairwise (· < ·)) (hfrom : ∀ k ∈ survivors, index ≤ k)
    (lines : List Bytes) :
    copySurvivors copy index survivors lines =
      survivors.filterMap fun k => (lines[k - index]?).bind copy := by
  induction lines generalizing index survivors with
  | nil =>
    rw [copySurvivors]
    exact (List.filterMap_eq_nil_iff.2 fun k _ => rfl).symm
  | cons line lines ih =>
    have hnext : ∀ ks : List ℕ, (∀ k ∈ ks, index < k) →
        (ks.filterMap fun k => ((line :: lines)[k - index]?).bind copy) =
          ks.filterMap fun k => (lines[k - (index + 1)]?).bind copy := by
      intro ks hks
      refine List.filterMap_congr fun k hk => ?_
      have hk' := hks k hk
      have hsub : k - index = k - (index + 1) + 1 := by omega
      rw [hsub, List.getElem?_cons_succ]
    rw [copySurvivors]
    cases survivors with
    | nil => rfl
    | cons k survivors =>
      obtain ⟨hafter, hrest⟩ := List.pairwise_cons.1 hsorted
      have hk := hfrom k List.mem_cons_self
      rw [List.head?_cons, List.tail_cons]
      by_cases hhere : k = index
      · have hbehind : ∀ j ∈ survivors, index < j := fun j hj => hhere ▸ hafter j hj
        have hfound : ((line :: lines)[k - index]?).bind copy = copy line := by
          rw [hhere, Nat.sub_self]
          rfl
        have hcons : ((k :: survivors).filterMap fun k => ((line :: lines)[k - index]?).bind copy) =
            (copy line).toList ++ copySurvivors copy (index + 1) survivors lines := by
          rw [ih hrest hbehind, ← hnext survivors hbehind, List.filterMap_cons, hfound]
          cases copy line <;> rfl
        rw [if_pos (congrArg some hhere), if_pos (congrArg some hhere), hcons]
        by_cases hlast : survivors = []
        · have hnone : copySurvivors copy (index + 1) [] lines = [] := by
            rw [ih List.Pairwise.nil (by simp)]
            rfl
          rw [if_pos hlast, hlast, hnone, List.append_nil]
        · rw [if_neg hlast]
      · have hbehind : ∀ j ∈ k :: survivors, index < j := by
          have hlt : index < k := lt_of_le_of_ne hk fun heq => hhere heq.symm
          exact List.forall_mem_cons.2 ⟨hlt, fun j hj => hlt.trans (hafter j hj)⟩
        have hother : ¬some k = some index := fun heq => hhere (Option.some.inj heq)
        rw [if_neg hother, if_neg hother, if_neg (List.cons_ne_nil _ _), List.nil_append,
          ih hsorted hbehind, hnext _ hbehind]

/-- Two readers that agree before the last item, up to where either stops, find the same only if
they find the same everywhere. -/
theorem filterMap_concat_iff {α β : Type} {f g : α → Option β} {l : List α} {a : α}
    (hf : (f a).isSome → ∀ x ∈ l, ∀ b, g x = some b → f x = some b)
    (hg : (g a).isSome → ∀ x ∈ l, ∀ b, f x = some b → g x = some b)
    (hfg : (∀ x ∈ l, ∀ b, f x = some b → g x = some b) ∨
      ∀ x ∈ l, ∀ b, g x = some b → f x = some b) :
    (l ++ [a]).filterMap f = (l ++ [a]).filterMap g ↔ ∀ x ∈ l ++ [a], f x = g x := by
  have hinit : l.filterMap f = l.filterMap g ↔ ∀ x ∈ l, f x = g x := by
    cases hfg with
    | inl hle => exact filterMap_eq_iff hle
    | inr hle =>
      rw [eq_comm, filterMap_eq_iff hle]
      exact forall₂_congr fun x _ => eq_comm
  rw [List.forall_mem_append, List.forall_mem_singleton, ← hinit, List.filterMap_append,
    List.filterMap_append, List.filterMap_cons, List.filterMap_cons, List.filterMap_nil,
    List.filterMap_nil]
  cases hfa : f a with
  | none =>
    cases hga : g a with
    | none => simp
    | some b =>
      -- the last item adds to what was found no less before it
      have hlength := length_filterMap_mono (hg (by rw [hga]; rfl))
      refine iff_of_false (fun heq => ?_) fun hand => by (cases hand.2)
      have hsame := congrArg List.length heq
      simp only [List.length_append, List.length_nil, List.length_singleton] at hsame
      omega
  | some b =>
    cases hga : g a with
    | none =>
      have hlength := length_filterMap_mono (hf (by rw [hfa]; rfl))
      refine iff_of_false (fun heq => ?_) fun hand => by (cases hand.2)
      have hsame := congrArg List.length heq
      simp only [List.length_append, List.length_nil, List.length_singleton] at hsame
      omega
    | some c =>
      refine ⟨fun heq => ?_, fun hand => by rw [hand.1, hand.2]⟩
      obtain ⟨hl, hlast⟩ := List.append_inj' heq rfl
      exact ⟨hl, congrArg some (List.singleton_inj.1 hlast)⟩

end SecondPass

section Fork

variable {A X : Type}

/-- The surviving lines with their numbers. -/
def placedLines (peeks : Peeks) (lines : List Bytes) : List (Placed (Bytes × ℕ)) :=
  placed (fun entry => rewindStepForBytes peeks entry.1) {} {} lines.zipIdx

theorem sorted_placedLines (peeks : Peeks) (lines : List Bytes) :
    ((placedLines peeks lines).map fun p => p.item.2).Pairwise (· < ·) := by
  have hsub : ((placedLines peeks lines).map Placed.item).Sublist lines.zipIdx := by
    rw [placedLines, map_item_placed, ← filterRewindBy_eq_survivors]
    exact filterRewindBy_sublist lines.zipIdx
  have hmap := hsub.map Prod.snd
  rw [List.map_map, List.zipIdx_map_snd] at hmap
  exact List.Pairwise.sublist hmap List.pairwise_lt_range'

theorem pairwise_placedLines (peeks : Peeks) (lines : List Bytes) :
    (placedLines peeks lines).Pairwise fun p q => p.depth ≤ q.depth ∧ p.own ≤ q.own :=
  pairwise_placed {} {} lines.zipIdx

/-- Of two survivors one has no more open prompts than the other, either way they are counted. -/
theorem total_placedLines (peeks : Peeks) (lines : List Bytes) {p q : Placed (Bytes × ℕ)}
    (hp : p ∈ placedLines peeks lines) (hq : q ∈ placedLines peeks lines) :
    (p.depth ≤ q.depth ∧ p.own ≤ q.own) ∨ (q.depth ≤ p.depth ∧ q.own ≤ p.own) := by
  have hle : (placedLines peeks lines).Pairwise fun p q =>
      (p.depth ≤ q.depth ∧ p.own ≤ q.own) ∨ (q.depth ≤ p.depth ∧ q.own ≤ p.own) :=
    (pairwise_placedLines peeks lines).imp Or.inl
  have hge : (placedLines peeks lines).Pairwise fun q p =>
      (p.depth ≤ q.depth ∧ p.own ≤ q.own) ∨ (q.depth ≤ p.depth ∧ q.own ≤ p.own) :=
    (pairwise_placedLines peeks lines).imp Or.inr
  refine List.Pairwise.forall_of_forall_of_flip ?_ hle hge hp hq
  exact fun p _ => Or.inl ⟨le_rfl, le_rfl⟩

theorem mem_placedLines {peeks : Peeks} {lines : List Bytes} {p : Placed (Bytes × ℕ)}
    (hp : p ∈ placedLines peeks lines) : lines[p.item.2]? = some p.item.1 := by
  have hitem : p.item ∈ (placedLines peeks lines).map Placed.item := List.mem_map_of_mem hp
  rw [placedLines, map_item_placed, ← filterRewindBy_eq_survivors] at hitem
  exact List.mem_zipIdx_iff_getElem?.1 ((filterRewindBy_sublist lines.zipIdx).subset hitem)

theorem survivingLineIndexes_eq (peeks : Peeks) (contents : Bytes) (target : ℕ) :
    survivingLineIndexes peeks contents target =
      ((placedLines peeks (forEachJsonlLine contents)).filter (·.own ≤ target + 1)).map
        fun p => p.item.2 := by
  rw [survivingLineIndexes, take_truncateForPromptBy, placed_map, List.filter_map, List.map_map,
    List.map_map]
  rfl

theorem filteredBefore_lines (peeks : Peeks) (lines : List Bytes) (prompt : ℕ) :
    filteredBefore (rewindStepForBytes peeks) lines prompt =
      ((placedLines peeks lines).filter (·.depth ≤ prompt)).map fun p => p.item.1 := by
  have hmap : placed (rewindStepForBytes peeks) {} {} lines =
      (placedLines peeks lines).map fun p => ⟨p.item.1, p.depth, p.own⟩ := by
    have hnumbers := congrArg (placed (rewindStepForBytes peeks) {} {}) (List.zipIdx_map_fst 0 lines)
    exact hnumbers.symm.trans (placed_map Prod.fst {} {} lines.zipIdx)
  rw [filteredBefore_eq {}, hmap, List.filter_map, List.map_map]
  rfl

theorem copyUpdatesStreaming_some (peeks : Peeks)
    (reader : EnvelopeReader (Addressed A) (Addressed (XaiUpdate X))) (contents appended : Bytes)
    (targetSessionId : Str) (target : ℕ) :
    copyUpdatesStreaming peeks reader contents appended targetSessionId (some target) =
      (placedLines peeks (forEachJsonlLine contents)).filterMap fun p =>
        if p.own ≤ target + 1 then
          ((forEachJsonlLine (contents ++ appended))[p.item.2]?).bind
            (copyLine reader targetSessionId)
        else none := by
  have hsorted : (((placedLines peeks (forEachJsonlLine contents)).filter
      (·.own ≤ target + 1)).map fun p => p.item.2).Pairwise (· < ·) :=
    (sorted_placedLines peeks (forEachJsonlLine contents)).sublist (List.filter_sublist.map _)
  rw [copyUpdatesStreaming, survivingLineIndexes_eq,
    copySurvivors_eq _ hsorted fun k _ => Nat.zero_le k, List.filterMap_map, List.filterMap_filter]
  simp only [Function.comp_apply, Nat.sub_zero, decide_eq_true_eq]

/-- A fork copies what survives before the cut exactly when every surviving line is copied or not
as its place among all the lines says: where the survivors are counted by themselves as they are
in the whole file, and a last line that goes on in the meantime is the same to copy. -/
theorem copyUpdatesStreaming_eq_iff (peeks : Peeks)
    (reader : EnvelopeReader (Addressed A) (Addressed (XaiUpdate X))) (contents appended : Bytes)
    (targetSessionId : Str) (target : ℕ) :
    copyUpdatesStreaming peeks reader contents appended targetSessionId (some target) =
        (filteredBefore (rewindStepForBytes peeks) (forEachJsonlLine contents)
          (target + 1)).filterMap (copyLine reader targetSessionId) ↔
      ∀ p ∈ placedLines peeks (forEachJsonlLine contents),
        (if p.own ≤ target + 1 then
          ((forEachJsonlLine (contents ++ appended))[p.item.2]?).bind
            (copyLine reader targetSessionId)
        else none) =
          if p.depth ≤ target + 1 then copyLine reader targetSessionId p.item.1 else none := by
  rw [copyUpdatesStreaming_some, filteredBefore_lines, List.filterMap_map, List.filterMap_filter]
  simp only [Function.comp_apply, decide_eq_true_eq]
  rcases List.eq_nil_or_concat (placedLines peeks (forEachJsonlLine contents)) with
    hnil | ⟨l, last, heq⟩
  · rw [hnil]
    simp
  · rw [List.concat_eq_append] at heq
    have hlast : last ∈ placedLines peeks (forEachJsonlLine contents) := by
      rw [heq]
      exact List.mem_append_right _ List.mem_cons_self
    have hl : ∀ p ∈ l, p ∈ placedLines peeks (forEachJsonlLine contents) := by
      intro p hp
      rw [heq]
      exact List.mem_append_left _ hp
    have hle : ∀ p ∈ l, p.depth ≤ last.depth ∧ p.own ≤ last.own := by
      have hpairs := pairwise_placedLines peeks (forEachJsonlLine contents)
      rw [heq] at hpairs
      exact fun p hp => (List.pairwise_append.1 hpairs).2.2 p hp last List.mem_cons_self
    -- before the last survivor the file is the same in both passes
    have hsame : ∀ p ∈ l, ((forEachJsonlLine (contents ++ appended))[p.item.2]?).bind
        (copyLine reader targetSessionId) = copyLine reader targetSessionId p.item.1 := by
      intro p hp
      have hsorted := sorted_placedLines peeks (forEachJsonlLine contents)
      rw [heq, List.map_append] at hsorted
      have hlt : p.item.2 < last.item.2 :=
        (List.pairwise_append.1 hsorted).2.2 _ (List.mem_map_of_mem hp) _ (by simp)
      have hlength := (List.getElem?_eq_some_iff.1 (mem_placedLines hlast)).1
      rw [getElem?_forEachJsonlLine_append contents appended (by omega), mem_placedLines (hl p hp)]
      rfl
    rw [heq]
    refine filterMap_concat_iff (fun hsome p hp b hb => ?_) (fun hsome p hp b hb => ?_) ?_
    · have hown : last.own ≤ target + 1 := by
        by_contra hnot
        rw [if_neg hnot] at hsome
        cases hsome
      rw [if_pos ((hle p hp).2.trans hown), hsame p hp]
      exact (Option.ite_none_right_eq_some.1 hb).2
    · have hdepth : last.depth ≤ target + 1 := by
        by_contra hnot
        rw [if_neg hnot] at hsome
        cases hsome
      rw [hsame p hp] at hb
      rw [if_pos ((hle p hp).1.trans hdepth)]
      exact (Option.ite_none_right_eq_some.1 hb).2
    · by_cases hcuts : ∀ p ∈ l, p.own ≤ target + 1 → p.depth ≤ target + 1
      · refine Or.inl fun p hp b hb => ?_
        obtain ⟨hown, hcopy⟩ := Option.ite_none_right_eq_some.1 hb
        rw [if_pos (hcuts p hp hown), ← hsame p hp]
        exact hcopy
      · -- a line that only its own count lets in is behind all that the other count lets in
        push Not at hcuts
        obtain ⟨q, hq, hqown, hqdepth⟩ := hcuts
        refine Or.inr fun p hp b hb => ?_
        obtain ⟨hdepth, hcopy⟩ := Option.ite_none_right_eq_some.1 hb
        have hown : p.own ≤ q.own := by
          cases total_placedLines peeks _ (hl p hp) (hl q hq) with
          | inl hle => exact hle.2
          | inr hge => exact absurd (hge.1.trans hdepth) (not_le.2 hqdepth)
        rw [if_pos (hown.trans hqown), hsame p hp]
        exact hcopy

end Fork

/-! ## A rewound prompt that was numbered -/

section Numbered

def notificationParams (tag fields : Str) : Str :=
  "\x7b\"sessionId\":\"s\",\"update\":\x7b\"sessionUpdate\":\"".toList ++ tag ++ '"' :: fields ++
    "\x7d\x7d".toList

def chunkParams (tag : Str) (text : Char) (metaFields : Str) : Str :=
  notificationParams tag
    (",\"content\":\x7b\"type\":\"text\",\"text\":\"".toList ++ text :: "\"\x7d".toList ++
      metaFields)

def agentMessageChunkTag : Str := "agent_message_chunk".toList

/-- A notification: whether it is sent by the other method, its text, and the peek of its update. -/
structure LoggedNotification where
  isXai : Bool := false
  params : Str
  update : RawUpdatePeek

def LoggedNotification.line (entry : LoggedNotification) : Str :=
  if entry.isXai then xaiLine entry.params else acpLine entry.params

def numberedChunk : LoggedNotification where
  params := chunkParams userMessageChunkTag 'a' ",\"_meta\":\x7b\"promptIndex\":0\x7d".toList
  update := { sessionUpdate := userMessageChunkTag, chunkMeta := some { promptIndex := some 0 } }

def agentChunk : LoggedNotification where
  params := chunkParams agentMessageChunkTag 'b' []
  update := { sessionUpdate := agentMessageChunkTag }

def rewindToFirst : LoggedNotification where
  isXai := true
  params := notificationParams rewindMarkerTag
    ",\"target_prompt_index\":0,\"created_at\":\"t\"".toList
  update := { sessionUpdate := rewindMarkerTag, targetPromptIndex := some 0 }

def plainChunk (text : Char) : LoggedNotification where
  params := chunkParams userMessageChunkTag text []
  update := { sessionUpdate := userMessageChunkTag }

def forkNotifications : List LoggedNotification :=
  [numberedChunk, agentChunk, rewindToFirst, plainChunk 'x', agentChunk, plainChunk 'y']

/-- The readers on these notifications. -/
def forkPeeks : Peeks where
  rawLine line := (forkNotifications.find? (·.line == line)).map fun entry =>
    { method := if entry.isXai then some xaiSessionUpdateMethod else none
      params := some entry.params }
  rawParams raw := (forkNotifications.find? (·.params == raw)).map fun entry =>
    { update := some entry.update }
  eventIdPeek _ := none
  tokensPeek _ := none
  valueEventId _ := none
  notification _ := none

def forkReader : EnvelopeReader (Addressed Str) (Addressed (XaiUpdate Str)) where
  envelope line := (forkNotifications.find? (·.line == line)).map fun entry =>
    { method := if entry.isXai then some xaiSessionUpdateMethod else none, params := entry.params }
  acp raw := (forkNotifications.find? (·.params == raw)).map fun _ =>
    { sessionId := "s".toList, update := raw }
  xai raw := (forkNotifications.find? (·.params == raw)).map fun _ =>
    { sessionId := "s".toList, update := .other raw }

/-- A file of whole lines. -/
def fileOf (texts : List Str) : Bytes := texts.flatMap fun text => encode text ++ [0x0a]

theorem forEachJsonlLine_fileOf {texts : List Str}
    (h : ∀ text ∈ texts, (0x0a : UInt8) ∉ encode text ∧
      cappedLine maxUpdateLineBytes (encode text) = some (encode text)) :
    forEachJsonlLine (fileOf texts) = texts.map encode := by
  rw [forEachJsonlLine_eq]
  induction texts with
  | nil => rfl
  | cons text texts ih =>
    obtain ⟨hnewline, hwhole⟩ := h text List.mem_cons_self
    have hcons : fileOf (text :: texts) = encode text ++ 0x0a :: fileOf texts := by
      rw [fileOf, List.flatMap_cons, List.append_assoc]
      rfl
    rw [hcons, splitNewlines_line hnewline, List.filterMap_cons_some hwhole,
      ih fun t ht => h t (List.mem_cons_of_mem _ ht), List.map_cons]

theorem placedLines_encode (peeks : Peeks) (texts : List Str) :
    placedLines peeks (texts.map encode) =
      (placed (fun entry : Str × ℕ => rewindStepForRaw peeks entry.1) {} {} texts.zipIdx).map
        fun p => ⟨(encode p.item.1, p.item.2), p.depth, p.own⟩ := by
  have hclassify : (fun entry : Bytes × ℕ => rewindStepForBytes peeks entry.1) ∘
      (fun entry : Str × ℕ => (encode entry.1, entry.2)) =
        fun entry : Str × ℕ => rewindStepForRaw peeks entry.1 := by
    funext entry
    show rewindStepForBytes peeks (encode entry.1) = _
    rw [rewindStepForBytes, fromUtf8_encode]
  rw [placedLines, List.zipIdx_map, ← hclassify]
  exact placed_map (fun entry : Str × ℕ => (encode entry.1, entry.2)) {} {} texts.zipIdx

theorem copyLine_encode {A X : Type}
    (reader : EnvelopeReader (Addressed A) (Addressed (XaiUpdate X))) (sessionId text : Str) :
    copyLine reader sessionId (encode text) = (fromStr reader text).bind fun update =>
      if isOrchestrationProjectionUpdate update then none
      else some (transformSessionIdInUpdate sessionId update) := by
  rw [copyLine, fromUtf8_encode]
  rfl

/-- The one prompt that had a number is rewound. Counted by themselves the two chunks that are left
open two prompts, and the second is not copied. -/
theorem rewound_number_shortens_fork :
    copyUpdatesStreaming forkPeeks forkReader (fileOf (forkNotifications.map (·.line))) []
        "t".toList (some 0) ≠
      (filteredBefore (rewindStepForBytes forkPeeks)
        (forEachJsonlLine (fileOf (forkNotifications.map (·.line)))) 1).filterMap
          (copyLine forkReader "t".toList) := by
  -- the literals are spelled out first, as they are slow to evaluate
  have huser : userMessageChunkTag = _ := String.toList_ofList
  have hagent : agentMessageChunkTag = _ := String.toList_ofList
  have hmarker : rewindMarkerTag = _ := String.toList_ofList
  have hmethod : xaiSessionUpdateMethod = _ := String.toList_ofList
  have hxai (params : Str) : xaiLine params = _ :=
    congrArg₂ (· ++ params ++ ·) String.toList_ofList String.toList_ofList
  have hacp (params : Str) : acpLine params = _ :=
    congrArg₂ (· ++ params ++ ·) String.toList_ofList String.toList_ofList
  have hparams (tag fields : Str) : notificationParams tag fields = _ :=
    congrArg₂ (· ++ tag ++ '"' :: fields ++ ·) String.toList_ofList String.toList_ofList
  have hchunk (tag metaFields : Str) (text : Char) : chunkParams tag text metaFields = _ :=
    congrArg₂ (fun front back => notificationParams tag (front ++ text :: back ++ metaFields))
      String.toList_ofList String.toList_ofList
  have hnumbered : numberedChunk = _ := congrArg (fun fields => LoggedNotification.mk false
    (chunkParams userMessageChunkTag 'a' fields)
    { sessionUpdate := userMessageChunkTag, chunkMeta := some { promptIndex := some 0 } })
    String.toList_ofList
  have hrewind : rewindToFirst = _ := congrArg (fun fields => LoggedNotification.mk true
    (notificationParams rewindMarkerTag fields)
    { sessionUpdate := rewindMarkerTag, targetPromptIndex := some 0 }) String.toList_ofList
  have hlines : forEachJsonlLine (fileOf (forkNotifications.map (·.line))) =
      (forkNotifications.map (·.line)).map encode := by
    refine forEachJsonlLine_fileOf ?_
    simp only [forkNotifications, hnumbered, hrewind, plainChunk, agentChunk,
      LoggedNotification.line, hxai, hacp, hchunk, hparams, huser, hagent, hmarker]
    decide +kernel
  rw [copyUpdatesStreaming_some, filteredBefore_lines, List.append_nil, hlines, placedLines_encode]
  simp only [List.filterMap_map, List.filter_map, List.getElem?_map, Option.bind_map,
    Function.comp_def, copyLine_encode]
  simp only [forkPeeks, forkReader, forkNotifications, hnumbered, hrewind, plainChunk, agentChunk,
    LoggedNotification.line, hxai, hacp, hchunk, hparams, huser, hagent, hmarker, hmethod]
  decide +kernel

end Numbered

end GrokBuild.Transcript
