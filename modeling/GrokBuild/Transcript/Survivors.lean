import GrokBuild.Transcript.Runs

/-!
# What survives the rewinds

An item of the transcript belongs to as many prompts as are open when it is kept, and a rewind to
the `n`th prompt drops the items of more than `n`. So what survives can be read off the items
from the front: those with no later target below their number of open prompts.
-/

namespace GrokBuild.Transcript

open GrokBuild.Text

/-- The prompts that are counted and not rewound, with the tracker that counts them. -/
structure PromptCount where
  depth : ℕ := 0
  tracker : UserRunTurnTracker := {}
deriving DecidableEq

def PromptCount.step (s : PromptCount) : RewindStep → PromptCount
  | .rewind target => ⟨min target s.depth, s.tracker.onNonUser⟩
  | .userChunk promptIndex =>
    let tracked := s.tracker.onUserChunk promptIndex
    ⟨if tracked.2 then s.depth + 1 else s.depth, tracked.1⟩
  | .other => { s with tracker := s.tracker.onNonUser }

def rewindTarget : RewindStep → Option ℕ
  | .rewind target => some target
  | _ => none

/-- No rewind among the steps goes back behind the `depth`th prompt. -/
def keepsDepth (depth : ℕ) (steps : List RewindStep) : Prop :=
  ∀ target ∈ steps.filterMap rewindTarget, depth ≤ target

instance (depth : ℕ) (steps : List RewindStep) : Decidable (keepsDepth depth steps) :=
  inferInstanceAs (Decidable (∀ target ∈ steps.filterMap rewindTarget, depth ≤ target))

variable {T : Type} {classify : T → RewindStep}

/-- The items that no later rewind reaches. -/
def survivors (classify : T → RewindStep) (s : PromptCount) : List T → List T
  | [] => []
  | item :: items =>
    let after := s.step (classify item)
    if rewindTarget (classify item) = none ∧ keepsDepth after.depth (items.map classify) then
      item :: survivors classify after items
    else survivors classify after items

section Depth

theorem keepsDepth_cons (depth : ℕ) (step : RewindStep) (steps : List RewindStep) :
    keepsDepth depth (step :: steps) ↔
      (∀ target, step = .rewind target → depth ≤ target) ∧ keepsDepth depth steps := by
  cases step with
  | rewind target => simp [keepsDepth, rewindTarget]
  | userChunk promptIndex => simp [keepsDepth, rewindTarget]
  | other => simp [keepsDepth, rewindTarget]

theorem keepsDepth.le {depth depth' : ℕ} {steps : List RewindStep} (h : keepsDepth depth' steps)
    (hle : depth ≤ depth') : keepsDepth depth steps :=
  fun target hmem => hle.trans (h target hmem)

end Depth

section Survivors

/-- The runs that are left when the rewinds of the steps have cut them one by one. -/
def rewindAll (runs : List (CountedRun T)) (steps : List RewindStep) : List (CountedRun T) :=
  (steps.filterMap rewindTarget).foldl (fun runs target => runs.take target) runs

theorem rewindAll_cons_rewind (runs : List (CountedRun T)) (target : ℕ) (steps : List RewindStep) :
    rewindAll runs (.rewind target :: steps) = rewindAll (runs.take target) steps := rfl

theorem rewindAll_cons_of_none (runs : List (CountedRun T)) {step : RewindStep}
    (h : rewindTarget step = none) (steps : List RewindStep) :
    rewindAll runs (step :: steps) = rewindAll runs steps := by
  rw [rewindAll, List.filterMap_cons_none h]
  rfl

/-- The last run goes with the first rewind below the number of runs. -/
theorem rewindAll_concat (init : List (CountedRun T)) (run : CountedRun T)
    (steps : List RewindStep) :
    rewindAll (init ++ [run]) steps =
      rewindAll init steps ++ if keepsDepth (init.length + 1) steps then [run] else [] := by
  induction steps generalizing init with
  | nil => simp [rewindAll, keepsDepth]
  | cons step steps ih =>
    cases step with
    | userChunk promptIndex =>
      rw [rewindAll_cons_of_none _ rfl, rewindAll_cons_of_none _ rfl, ih]
      rfl
    | other =>
      rw [rewindAll_cons_of_none _ rfl, rewindAll_cons_of_none _ rfl, ih]
      rfl
    | rewind target =>
      rw [rewindAll_cons_rewind, rewindAll_cons_rewind]
      by_cases hle : init.length + 1 ≤ target
      · have hall : (init ++ [run]).take target = init ++ [run] :=
          List.take_of_length_le (by simpa using hle)
        have hinit : init.take target = init := List.take_of_length_le (by omega)
        have hkeeps : keepsDepth (init.length + 1) (.rewind target :: steps) ↔
            keepsDepth (init.length + 1) steps := by
          rw [keepsDepth_cons]
          refine ⟨fun h => h.2, fun h => ⟨fun target' heq => ?_, h⟩⟩
          obtain rfl : target = target' := by simpa using heq
          exact hle
        simp only [hall, hinit, ih, hkeeps]
      · have hcut : (init ++ [run]).take target = init.take target :=
          List.take_append_of_le_length (by omega)
        rw [hcut, if_neg, List.append_nil]
        intro hkeeps
        exact hle (((keepsDepth_cons _ _ _).1 hkeeps).1 target rfl)

theorem rewindAll_nil (steps : List RewindStep) :
    rewindAll ([] : List (CountedRun T)) steps = [] := by
  induction steps with
  | nil => rfl
  | cons step steps ih =>
    cases step with
    | userChunk promptIndex => rw [rewindAll_cons_of_none _ rfl, ih]
    | other => rw [rewindAll_cons_of_none _ rfl, ih]
    | rewind target => rw [rewindAll_cons_rewind, List.take_nil, ih]

/-- What is left of the kept lines when the rewinds of the steps have cut them. -/
def linesAfter (s : KeptRuns T) (steps : List RewindStep) : List T :=
  s.head ++ (rewindAll s.runs steps).flatMap CountedRun.all

theorem linesAfter_addAfter (s : KeptRuns T) (item : T) (steps : List RewindStep) :
    linesAfter (s.addAfter item) steps =
      linesAfter s steps ++ if keepsDepth s.runs.length steps then [item] else [] := by
  rcases List.eq_nil_or_concat s.runs with hnil | ⟨init, run, heq⟩
  · have hkeeps : keepsDepth 0 steps := fun target _ => Nat.zero_le target
    simp [linesAfter, KeptRuns.addAfter, hnil, hkeeps, rewindAll_nil]
  · rw [List.concat_eq_append] at heq
    simp only [linesAfter, KeptRuns.addAfter, heq, List.getLast?_concat, List.dropLast_concat,
      rewindAll_concat, List.length_append, List.length_singleton]
    split
    · simp [CountedRun.all]
    · simp

theorem linesAfter_addLine {s : KeptRuns T} {init : List (CountedRun T)} {lines : List T}
    (heq : s.runs = init ++ [{ lines := lines }]) (item : T) (steps : List RewindStep) :
    linesAfter (s.addLine item) steps =
      linesAfter s steps ++ if keepsDepth s.runs.length steps then [item] else [] := by
  rw [KeptRuns.addLine_eq heq]
  simp only [linesAfter, heq, rewindAll_concat, List.length_append, List.length_singleton]
  split
  · simp [CountedRun.all]
  · simp

theorem length_runs_addAfter (s : KeptRuns T) (item : T) :
    (s.addAfter item).runs.length = s.runs.length := by
  rcases List.eq_nil_or_concat s.runs with hnil | ⟨init, run, heq⟩
  · simp [KeptRuns.addAfter, hnil]
  · rw [List.concat_eq_append] at heq
    simp [KeptRuns.addAfter, heq]

/-- The count of the open prompts that goes with the kept runs. -/
def KeptRuns.count (s : KeptRuns T) : PromptCount := ⟨s.runs.length, s.tracker⟩

theorem count_userChunk (s : KeptRuns T) (promptIndex : Option ℕ) :
    s.count.step (.userChunk promptIndex) =
      ⟨if (s.tracker.onUserChunk promptIndex).2 then s.runs.length + 1 else s.runs.length,
        (s.tracker.onUserChunk promptIndex).1⟩ := rfl

theorem length_runs_addLine (s : KeptRuns T) (item : T) :
    (s.addLine item).runs.length = s.runs.length := by
  rcases List.eq_nil_or_concat s.runs with hnil | ⟨init, run, heq⟩
  · simp [KeptRuns.addLine, hnil]
  · rw [List.concat_eq_append] at heq
    simp [KeptRuns.addLine, heq]

theorem linesAfter_cons_of_none (s : KeptRuns T) {step : RewindStep} (h : rewindTarget step = none)
    (steps : List RewindStep) : linesAfter s (step :: steps) = linesAfter s steps := by
  rw [linesAfter, rewindAll_cons_of_none _ h]
  rfl

/-- An item is counted as the count says. -/
theorem count_step (s : KeptRuns T) (item : T) :
    (s.step classify item).count = s.count.step (classify item) := by
  rw [KeptRuns.step]
  cases hstep : classify item with
  | rewind target => simp [KeptRuns.count, PromptCount.step, List.length_take]
  | other =>
    simp only [KeptRuns.count, PromptCount.step]
    rw [length_runs_addAfter]
  | userChunk promptIndex =>
    rw [count_userChunk]
    dsimp only
    split
    · simp [KeptRuns.count]
    · split
      · simp [KeptRuns.count, length_runs_addLine]
      · simp [KeptRuns.count, length_runs_addAfter]

/-- An item is kept as long as no rewind reaches it. -/
theorem linesAfter_step {s : KeptRuns T} (hw : s.WellFormed) (item : T) (steps : List RewindStep) :
    linesAfter (s.step classify item) steps = linesAfter s (classify item :: steps) ++
      if rewindTarget (classify item) = none ∧
        keepsDepth (s.count.step (classify item)).depth steps then [item] else [] := by
  rw [KeptRuns.step]
  cases hstep : classify item with
  | rewind target => simp [linesAfter, rewindAll_cons_rewind, rewindTarget]
  | other =>
    rw [linesAfter_cons_of_none s rfl]
    simp only [rewindTarget, true_and]
    exact linesAfter_addAfter s item steps
  | userChunk promptIndex =>
    rw [linesAfter_cons_of_none s rfl, count_userChunk]
    simp only [rewindTarget, true_and]
    split
    · simp only [linesAfter, rewindAll_concat]
      split
      · simp [CountedRun.all]
      · simp
    · split
      · next hgoes =>
        -- the run goes on, and so nothing is after it yet
        obtain ⟨init, lines, heq⟩ := hw (Bool.and_eq_true_iff.1 hgoes).1
        exact linesAfter_addLine heq item steps
      · exact linesAfter_addAfter s item steps

theorem run_lines (s : KeptRuns T) (hw : s.WellFormed) (items : List T) :
    (StepRun.run (KeptRuns.step classify) s items).lines =
      linesAfter s (items.map classify) ++ survivors classify s.count items := by
  induction items generalizing s with
  | nil => simp [linesAfter, rewindAll, survivors, KeptRuns.lines]
  | cons item items ih =>
    rw [StepRun.run_cons, ih _ (KeptRuns.wellFormed_step hw item), linesAfter_step hw, count_step,
      survivors, List.append_assoc, List.map_cons]
    congr 1
    split
    · rfl
    · rfl

/-- The rewind filter keeps the items that no later rewind reaches. -/
theorem filterRewindBy_eq_survivors (items : List T) :
    filterRewindBy items classify = survivors classify {} items := by
  rw [KeptRuns.filterRewindBy_eq, KeptRuns.ofItems, run_lines {} (fun h => by (cases h))]
  simp [linesAfter, rewindAll_nil, KeptRuns.count]

end Survivors

end GrokBuild.Transcript
