import GrokBuild.Transcript.Rewind

/-!
# The kept transcript as counted runs

What the rewind filter keeps is a head and, for every run it has counted and not rewound, the
lines of the run and those after it. A rewind to the `n`th prompt keeps the first `n` runs.
-/

namespace GrokBuild.Transcript

open GrokBuild.Text

variable {T : Type} {classify : T → RewindStep} {item : T}

structure CountedRun (T : Type) where
  lines : List T
  after : List T := []
deriving DecidableEq

def CountedRun.all (run : CountedRun T) : List T := run.lines ++ run.after

/-- The kept lines with the runs that were counted; `counting` says that the last of these
goes on. -/
structure KeptRuns (T : Type) where
  head : List T := []
  runs : List (CountedRun T) := []
  counting : Bool := false
  tracker : UserRunTurnTracker := {}

namespace KeptRuns

def lines (s : KeptRuns T) : List T := s.head ++ s.runs.flatMap CountedRun.all

/-- Lines that are in no counted run. -/
def addAfter (s : KeptRuns T) (item : T) : KeptRuns T :=
  match s.runs.getLast? with
  | none => { s with head := s.head ++ [item] }
  | some run => { s with runs := s.runs.dropLast ++ [{ run with after := run.after ++ [item] }] }

def addLine (s : KeptRuns T) (item : T) : KeptRuns T :=
  match s.runs.getLast? with
  | none => s
  | some run => { s with runs := s.runs.dropLast ++ [{ run with lines := run.lines ++ [item] }] }

def step (classify : T → RewindStep) (s : KeptRuns T) (item : T) : KeptRuns T :=
  match classify item with
  | .rewind target =>
    { s with runs := s.runs.take target, counting := false, tracker := s.tracker.onNonUser }
  | .userChunk promptIndex =>
    let tracked := s.tracker.onUserChunk promptIndex
    if tracked.2 then
      { s with runs := s.runs ++ [{ lines := [item] }], counting := true, tracker := tracked.1 }
    else if s.counting && !s.tracker.newRun promptIndex then
      { s.addLine item with tracker := tracked.1 }
    else { s.addAfter item with counting := false, tracker := tracked.1 }
  | .other => { s.addAfter item with counting := false, tracker := s.tracker.onNonUser }

/-- While a run goes on nothing is after it. -/
def WellFormed (s : KeptRuns T) : Prop :=
  s.counting = true → ∃ init lines, s.runs = init ++ [{ lines := lines }]

theorem addLine_eq {s : KeptRuns T} {init : List (CountedRun T)} {run : CountedRun T}
    (h : s.runs = init ++ [run]) (item : T) :
    s.addLine item = { s with runs := init ++ [{ run with lines := run.lines ++ [item] }] } := by
  rw [addLine, h, List.getLast?_concat, List.dropLast_concat]

theorem wellFormed_step {s : KeptRuns T} (h : s.WellFormed) (item : T) :
    (s.step classify item).WellFormed := by
  rw [step]
  cases classify item with
  | rewind target => exact fun hc => by (cases hc)
  | other => exact fun hc => by (cases hc)
  | userChunk promptIndex =>
    dsimp only
    split
    · exact fun _ => ⟨s.runs, [item], rfl⟩
    · split
      · next hgoes =>
        intro _
        obtain ⟨init, lines, heq⟩ := h (Bool.and_eq_true_iff.1 hgoes).1
        rw [addLine_eq heq]
        exact ⟨init, lines ++ [item], rfl⟩
      · exact fun hc => by (cases hc)

theorem lines_addAfter (s : KeptRuns T) (item : T) : (s.addAfter item).lines = s.lines ++ [item] := by
  rcases List.eq_nil_or_concat s.runs with hnil | ⟨init, run, heq⟩
  · simp [addAfter, lines, hnil]
  · rw [List.concat_eq_append] at heq
    simp [addAfter, lines, heq, CountedRun.all]

/-- Where the runs start. -/
def starts : ℕ → List (CountedRun T) → List ℕ
  | _, [] => []
  | n, run :: runs => n :: starts (n + run.all.length) runs

theorem starts_append (n : ℕ) (runs runs' : List (CountedRun T)) :
    starts n (runs ++ runs') =
      starts n runs ++ starts (n + (runs.flatMap CountedRun.all).length) runs' := by
  induction runs generalizing n with
  | nil => rfl
  | cons run runs ih =>
    rw [List.cons_append, starts, starts, ih, List.cons_append, List.flatMap_cons,
      List.length_append, Nat.add_assoc]

theorem starts_take (n k : ℕ) (runs : List (CountedRun T)) :
    starts n (runs.take k) = (starts n runs).take k := by
  induction runs generalizing n k with
  | nil => simp [starts]
  | cons run runs ih =>
    cases k with
    | zero => rfl
    | succ k => rw [List.take_succ_cons, starts, starts, List.take_succ_cons, ih]

/-- Cutting where a run starts leaves the runs before it. -/
theorem take_starts (head : List T) (runs : List (CountedRun T)) (k : ℕ) :
    (head ++ runs.flatMap CountedRun.all).take
        ((starts head.length runs)[k]?.getD (head ++ runs.flatMap CountedRun.all).length) =
      head ++ (runs.take k).flatMap CountedRun.all := by
  induction runs generalizing head k with
  | nil => simp [starts]
  | cons run runs ih =>
    cases k with
    | zero => simp [starts]
    | succ k =>
      have hih := ih (head ++ run.all) k
      simp only [List.length_append, List.append_assoc] at hih
      rw [starts, List.getElem?_cons_succ, List.flatMap_cons, List.take_succ_cons,
        List.flatMap_cons, List.length_append, List.length_append]
      exact hih

/-- The filter's own state, read off the runs. -/
structure Tracks (f : RewindFilter T) (s : KeptRuns T) : Prop where
  result : f.result = s.lines
  promptStarts : f.promptStarts = starts s.head.length s.runs
  tracker : f.tracker = s.tracker

theorem starts_addAfter (s : KeptRuns T) (item : T) :
    starts (s.addAfter item).head.length (s.addAfter item).runs = starts s.head.length s.runs := by
  rcases List.eq_nil_or_concat s.runs with hnil | ⟨init, run, heq⟩
  · simp [addAfter, hnil, starts]
  · rw [List.concat_eq_append] at heq
    simp [addAfter, heq, starts_append, starts]

theorem Tracks.step {f : RewindFilter T} {s : KeptRuns T} (h : Tracks f s) (hw : s.WellFormed)
    (item : T) : Tracks (rewindFilterStep classify f item) (s.step classify item) := by
  rw [rewindFilterStep, KeptRuns.step]
  cases classify item with
  | rewind target =>
    refine ⟨?_, ?_, by rw [h.tracker]⟩
    · dsimp only
      rw [h.result, h.promptStarts, lines, take_starts]
      rfl
    · dsimp only
      rw [h.promptStarts, starts_take]
  | other =>
    refine ⟨?_, ?_, by rw [h.tracker]⟩
    · dsimp only
      rw [h.result]
      exact (lines_addAfter s item).symm
    · dsimp only
      rw [h.promptStarts, starts_addAfter]
  | userChunk promptIndex =>
    dsimp only
    rw [h.tracker]
    split
    · refine ⟨?_, ?_, rfl⟩
      · simp [h.result, lines, CountedRun.all]
      · rw [starts_append, h.promptStarts, h.result, lines, List.length_append]
        rfl
    · split
      · next hgoes =>
        obtain ⟨init, last, heq⟩ := hw (Bool.and_eq_true_iff.1 hgoes).1
        rw [addLine_eq heq]
        refine ⟨?_, ?_, rfl⟩
        · simp [h.result, lines, heq, CountedRun.all]
        · rw [h.promptStarts, heq, starts_append, starts_append]
          rfl
      · refine ⟨?_, ?_, rfl⟩
        · dsimp only
          rw [h.result]
          exact (lines_addAfter s item).symm
        · dsimp only
          rw [h.promptStarts, starts_addAfter]

/-- The runs that a filter counts and keeps. -/
def ofItems (classify : T → RewindStep) (items : List T) : KeptRuns T :=
  StepRun.run (step classify) {} items

theorem ofItems_concat (items : List T) (item : T) :
    ofItems classify (items ++ [item]) = (ofItems classify items).step classify item := by
  rw [ofItems, StepRun.run_append]
  rfl

theorem wellFormed_ofItems (items : List T) : (ofItems classify items).WellFormed :=
  StepRun.invariant (P := WellFormed) (fun _ item h => wellFormed_step h item)
    (fun h => by (cases h)) items

theorem tracks_ofItems (items : List T) :
    Tracks (StepRun.run (rewindFilterStep classify) {} items) (ofItems classify items) := by
  induction items using List.reverseRecOn with
  | nil => exact ⟨rfl, rfl, rfl⟩
  | append_singleton items item ih =>
    rw [StepRun.run_append, ofItems_concat]
    exact ih.step (wellFormed_ofItems items) item

theorem filterRewindBy_eq (items : List T) :
    filterRewindBy items classify = (ofItems classify items).lines :=
  (tracks_ofItems items).result

/-- Every counted run has a user chunk. -/
def Opened (classify : T → RewindStep) (P : T → Prop) (s : KeptRuns T) : Prop :=
  ∀ run ∈ s.runs, ∃ item ∈ run.lines, P item ∧ ∃ promptIndex, classify item = .userChunk promptIndex

theorem Opened.addAfter {P : T → Prop} {s : KeptRuns T} (h : s.Opened classify P) (item : T) :
    (s.addAfter item).Opened classify P := by
  rcases List.eq_nil_or_concat s.runs with hnil | ⟨init, last, heq⟩
  · simpa [Opened, KeptRuns.addAfter, hnil] using h
  · rw [List.concat_eq_append] at heq
    rw [Opened, heq] at h
    intro run hrun
    rw [KeptRuns.addAfter, heq, List.getLast?_concat, List.dropLast_concat] at hrun
    rcases List.mem_append.1 hrun with hinit | hlast
    · exact h run (List.mem_append_left _ hinit)
    · rw [List.mem_singleton.1 hlast]
      exact h last (by simp)

theorem Opened.addLine {P : T → Prop} {s : KeptRuns T} (h : s.Opened classify P) (item : T) :
    (s.addLine item).Opened classify P := by
  rcases List.eq_nil_or_concat s.runs with hnil | ⟨init, last, heq⟩
  · simpa [Opened, KeptRuns.addLine, hnil] using h
  · rw [List.concat_eq_append] at heq
    rw [Opened, heq] at h
    intro run hrun
    rw [KeptRuns.addLine, heq, List.getLast?_concat, List.dropLast_concat] at hrun
    rcases List.mem_append.1 hrun with hinit | hlast
    · exact h run (List.mem_append_left _ hinit)
    · rw [List.mem_singleton.1 hlast]
      obtain ⟨opener, hmem, hopener⟩ := h last (by simp)
      exact ⟨opener, List.mem_append_left _ hmem, hopener⟩

theorem opened_ofItems {P : T → Prop} {items : List T} (h : ∀ item ∈ items, P item) :
    (ofItems classify items).Opened classify P := by
  induction items using List.reverseRecOn with
  | nil => exact fun _ hrun => by (cases hrun)
  | append_singleton items item ih =>
    have hitems := ih fun i hi => h i (List.mem_append_left _ hi)
    rw [ofItems_concat, step]
    cases hitem : classify item with
    | rewind target => exact fun run hrun => hitems run (List.mem_of_mem_take hrun)
    | other => exact hitems.addAfter item
    | userChunk promptIndex =>
      dsimp only
      split
      · intro run hrun
        rcases List.mem_append.1 hrun with hold | hnew
        · exact hitems run hold
        · rw [List.mem_singleton.1 hnew]
          exact ⟨item, by simp, h item (by simp), promptIndex, hitem⟩
      · split
        · exact hitems.addLine item
        · exact hitems.addAfter item

end KeptRuns

/-- Without rewinds every item is kept. -/
theorem filterRewindBy_eq_self {items : List T}
    (h : ∀ item ∈ items, ∀ target, classify item ≠ .rewind target) :
    filterRewindBy items classify = items := by
  induction items using List.reverseRecOn with
  | nil => rfl
  | append_singleton items item ih =>
    have hitems := ih fun i hi => h i (List.mem_append_left _ hi)
    rw [filterRewindBy] at hitems ⊢
    rw [StepRun.run_append, StepRun.run_cons, StepRun.run_nil, rewindFilterStep]
    cases hstep : classify item with
    | rewind target => exact absurd hstep (h item (by simp) target)
    | userChunk promptIndex =>
      dsimp only
      rw [hitems]
    | other =>
      dsimp only
      rw [hitems]

/-- The runs of the transcript that are kept. -/
def keptRuns (lines : List Line) : KeptRuns Line := KeptRuns.ofItems rewindStepForLine lines

theorem keptRuns_concat (p : List Line) (line : Line) :
    keptRuns (p ++ [line]) = (keptRuns p).step rewindStepForLine line :=
  KeptRuns.ofItems_concat p line

namespace KeptRuns

/-- The tracker knows whether the run it is in was counted. -/
structure Counting (s : KeptRuns T) : Prop where
  unseen : s.tracker.seenMarker = false → s.tracker.currentRunPi = none
  counted : s.counting = true →
    s.tracker.inUser = true ∧ (s.tracker.seenMarker = true → s.tracker.currentRunPi.isSome = true)
  uncounted : s.tracker.inUser = true → s.counting = false →
    s.tracker.seenMarker = true ∧ s.tracker.currentRunPi = none

/-- The chunk opens a run that is counted, continues a counted run, or belongs to a run that is
not counted. -/
theorem Counting.step_userChunk {s : KeptRuns T} (h : s.Counting) {promptIndex : Option ℕ}
    (hitem : classify item = .userChunk promptIndex) :
    ((s.tracker.seenMarker = true → promptIndex.isSome = true) ∧
      (s.tracker.inUser = true → promptIndex.isSome = true ∧ promptIndex ≠ s.tracker.currentRunPi) ∧
      s.tracker.newRun promptIndex = true ∧
      s.step classify item =
        { s with runs := s.runs ++ [{ lines := [item] }], counting := true
                 tracker := ⟨s.tracker.sees promptIndex, true, promptIndex⟩ }) ∨
    (s.counting = true ∧ promptIndex = s.tracker.currentRunPi ∧
      s.tracker.newRun promptIndex = false ∧
      s.step classify item =
        { s.addLine item with tracker := ⟨s.tracker.seenMarker, true, promptIndex⟩ }) ∨
    (promptIndex = none ∧ s.tracker.seenMarker = true ∧
      (s.counting = true → s.tracker.newRun promptIndex = true) ∧
      s.step classify item =
        { s.addAfter item with counting := false, tracker := ⟨true, true, none⟩ }) := by
  rw [step, hitem]
  dsimp only
  rw [UserRunTurnTracker.onUserChunk]
  cases hnew : s.tracker.newRun promptIndex with
  | true =>
    rw [if_pos rfl]
    dsimp only
    cases hcounts : s.tracker.counts promptIndex with
    | true =>
      have hsome : s.tracker.sees promptIndex = true → promptIndex.isSome = true := by
        intro hsees
        rwa [UserRunTurnTracker.counts, if_pos hsees] at hcounts
      refine .inl ⟨fun hseen => hsome (by simp [UserRunTurnTracker.sees, hseen]), ?_, rfl, rfl⟩
      intro hin
      simp only [UserRunTurnTracker.newRun, hin, Bool.not_true, Bool.false_eq_true, if_false,
        Bool.if_false_right, Bool.and_eq_true, bne_iff_ne] at hnew
      exact ⟨hsome (of_decide_eq_true hnew.1), hnew.2⟩
    | false =>
      -- only a chunk without index is not counted, after one with an index
      have hsees : s.tracker.sees promptIndex = true ∧ promptIndex = none := by
        rw [UserRunTurnTracker.counts] at hcounts
        split at hcounts
        · next hsees => exact ⟨hsees, by simpa using hcounts⟩
        · cases hcounts
      obtain ⟨hsees, rfl⟩ := hsees
      have hseen : s.tracker.seenMarker = true := by
        simpa [UserRunTurnTracker.sees] using hsees
      exact .inr (.inr ⟨rfl, hseen, fun _ => rfl, by simp [hsees]⟩)
  | false =>
    have hin : s.tracker.inUser = true := by
      by_contra hnot
      simp [UserRunTurnTracker.newRun, hnot] at hnew
    have hsame : s.tracker.sees promptIndex = true → promptIndex = s.tracker.currentRunPi := by
      intro hsees
      simpa [UserRunTurnTracker.newRun, hin, hsees] using hnew
    have hindex : promptIndex = s.tracker.currentRunPi := by
      cases hsees : s.tracker.sees promptIndex with
      | true => exact hsame hsees
      | false =>
        rw [UserRunTurnTracker.sees, Bool.or_eq_false_iff, Option.isSome_eq_false_iff,
          Option.isNone_iff_eq_none] at hsees
        rw [hsees.2, h.unseen hsees.1]
    have hsees : s.tracker.sees promptIndex = s.tracker.seenMarker := by
      cases hseen : s.tracker.seenMarker with
      | true => simp [UserRunTurnTracker.sees, hseen]
      | false => simp [UserRunTurnTracker.sees, hseen, hindex, h.unseen hseen]
    rw [if_neg Bool.false_ne_true]
    cases hcounting : s.counting with
    | true => exact .inr (.inl ⟨rfl, hindex, rfl, by simp [hsees, ← hindex]⟩)
    | false =>
      obtain ⟨hseen, hpi⟩ := h.uncounted hin hcounting
      exact .inr (.inr ⟨hindex.trans hpi, hseen, fun hc => by (cases hc), by simp [hsees, hseen, hpi]⟩)

theorem addLine_counting (s : KeptRuns T) (item : T) : (s.addLine item).counting = s.counting := by
  rw [addLine]
  split <;> rfl

theorem Counting.step {s : KeptRuns T} (h : s.Counting) (item : T) :
    (s.step classify item).Counting := by
  cases hitem : classify item with
  | rewind target =>
    rw [KeptRuns.step, hitem]
    exact ⟨fun _ => rfl, fun hc => by (cases hc), fun hin => by (cases hin)⟩
  | other =>
    rw [KeptRuns.step, hitem]
    exact ⟨fun _ => rfl, fun hc => by (cases hc), fun hin => by (cases hin)⟩
  | userChunk promptIndex =>
    rcases h.step_userChunk hitem with ⟨hseen, -, -, heq⟩ | ⟨hc, hindex, -, heq⟩ | ⟨-, -, -, heq⟩
    · rw [heq]
      refine ⟨fun hsees => ?_, fun _ => ⟨rfl, fun hsees => ?_⟩, fun _ hc => by (cases hc)⟩
      · rw [UserRunTurnTracker.sees, Bool.or_eq_false_iff] at hsees
        simpa using hsees.2
      · rw [UserRunTurnTracker.sees, Bool.or_eq_true] at hsees
        exact hsees.elim hseen id
    · rw [heq]
      refine ⟨fun hunseen => hindex.trans (h.unseen hunseen), fun _ => ⟨rfl, fun hs => ?_⟩,
        fun _ hnot => ?_⟩
      · exact hindex ▸ (h.counted hc).2 hs
      · exact absurd ((addLine_counting s item).trans hc) (ne_true_of_eq_false hnot)
    · rw [heq]
      exact ⟨fun _ => rfl, fun hc => by (cases hc), fun _ _ => ⟨rfl, rfl⟩⟩

end KeptRuns

theorem counting_keptRuns (lines : List Line) : (keptRuns lines).Counting :=
  StepRun.invariant (P := KeptRuns.Counting) (fun _ item h => h.step item)
    ⟨fun _ => rfl, fun hc => by (cases hc), fun hin => by (cases hin)⟩ lines

end GrokBuild.Transcript
