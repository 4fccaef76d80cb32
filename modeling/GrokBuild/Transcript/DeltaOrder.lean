import GrokBuild.Transcript.Cursor
import GrokBuild.Transcript.Survivors

/-!
# Dropping lines and rewinding

A replay rewinds the transcript and then drops the catalogs and the updates of calls in progress.
For a delta the two are done in the other order. A dropped line ends a user run, and so the prompts
are numbered differently where it is gone before they are counted.
-/

namespace GrokBuild.Transcript

open GrokBuild.Text

section Definitions

variable (peeks : Peeks)

end Definitions

section Trackers

/-- A tracker that saw fewer lines end a run: it is in a run where the other is, and so counts no
run that the other does not. -/
structure UserRunTurnTracker.Lags (a b : UserRunTurnTracker) : Prop where
  seenMarker : a.seenMarker = b.seenMarker
  run : b.inUser = true → a.inUser = true ∧ a.currentRunPi = b.currentRunPi
  unmarked : a.seenMarker = false → a.currentRunPi = none

namespace UserRunTurnTracker.Lags

variable {a b : UserRunTurnTracker}

theorem onNonUser (h : a.Lags b) : a.Lags b.onNonUser :=
  ⟨h.seenMarker, fun hrun => by (cases hrun), h.unmarked⟩

theorem onNonUser_both (h : a.Lags b) : a.onNonUser.Lags b.onNonUser :=
  ⟨h.seenMarker, fun hrun => by (cases hrun), fun _ => rfl⟩

theorem sees_eq (h : a.Lags b) (promptIndex : Option ℕ) :
    a.sees promptIndex = b.sees promptIndex := by
  rw [sees, sees, h.seenMarker]

/-- A run that the tracker does not take for a new one has the index of the chunk. -/
theorem current_of_same (h : a.Lags b) {promptIndex : Option ℕ}
    (hsame : a.newRun promptIndex = false) : a.currentRunPi = promptIndex := by
  rw [newRun] at hsame
  split at hsame
  · cases hsame
  · split at hsame
    · have hindex : promptIndex = a.currentRunPi := by simpa using hsame
      exact hindex.symm
    · next hsees =>
      rw [sees, Bool.or_eq_true, not_or, Bool.not_eq_true] at hsees
      rw [h.unmarked hsees.1, Option.not_isSome_iff_eq_none.1 hsees.2]

theorem counts_eq (h : a.Lags b) (promptIndex : Option ℕ) :
    a.counts promptIndex = b.counts promptIndex := by
  rw [counts, counts, h.sees_eq]

theorem newRun_of_run (h : a.Lags b) (hrun : b.inUser = true) (promptIndex : Option ℕ) :
    a.newRun promptIndex = b.newRun promptIndex := by
  rw [newRun, newRun, h.sees_eq, (h.run hrun).1, hrun, (h.run hrun).2]

/-- What is kept of the index of the run where no marker has been seen. -/
theorem unmarked_after (h : a.Lags b) {promptIndex : Option ℕ}
    (hsees : a.sees promptIndex = false) : a.currentRunPi = none ∧ promptIndex = none := by
  rw [sees, Bool.or_eq_false_iff] at hsees
  refine ⟨h.unmarked hsees.1, Option.not_isSome_iff_eq_none.1 fun hsome => ?_⟩
  rw [hsome] at hsees
  cases hsees.2

/-- A chunk that the tracker counts is counted by the other as well. -/
theorem onUserChunk (h : a.Lags b) (promptIndex : Option ℕ) :
    (a.onUserChunk promptIndex).1.Lags (b.onUserChunk promptIndex).1 ∧
      ((a.onUserChunk promptIndex).2 = true → (b.onUserChunk promptIndex).2 = true) := by
  rw [UserRunTurnTracker.onUserChunk, UserRunTurnTracker.onUserChunk]
  cases hnew : a.newRun promptIndex with
  | true =>
    have hnewB : b.newRun promptIndex = true := by
      cases hrun : b.inUser with
      | true => rw [← h.newRun_of_run hrun, hnew]
      | false => rw [newRun, hrun]; rfl
    rw [if_pos rfl, if_pos hnewB]
    refine ⟨⟨h.sees_eq promptIndex, fun _ => ⟨rfl, rfl⟩, fun hsees => (h.unmarked_after hsees).2⟩,
      fun hcounts => ?_⟩
    rw [← h.counts_eq]
    exact hcounts
  | false =>
    have hcurrent := h.current_of_same hnew
    rw [if_neg (by decide)]
    cases hnewB : b.newRun promptIndex with
    | true =>
      rw [if_pos rfl]
      exact ⟨⟨h.sees_eq promptIndex, fun _ => ⟨rfl, hcurrent⟩,
        fun hsees => (h.unmarked_after hsees).1⟩, fun hcounts => by (cases hcounts)⟩
    | false =>
      have hrun : b.inUser = true := by
        rw [newRun] at hnewB
        split at hnewB
        · cases hnewB
        · next hin => simpa using hin
      rw [if_neg (by decide)]
      exact ⟨⟨h.sees_eq promptIndex, fun _ => ⟨rfl, (h.run hrun).2⟩,
        fun hsees => (h.unmarked_after hsees).1⟩, fun hcounts => by (cases hcounts)⟩

end UserRunTurnTracker.Lags

/-- Fewer prompts are open, and the tracker counts no more of them. -/
structure PromptCount.Lags (a b : PromptCount) : Prop where
  depth : a.depth ≤ b.depth
  tracker : a.tracker.Lags b.tracker

theorem PromptCount.Lags.step {a b : PromptCount} (h : a.Lags b) (step : RewindStep) :
    (a.step step).Lags (b.step step) := by
  cases step with
  | rewind target =>
    have hdepth := h.depth
    refine ⟨?_, h.tracker.onNonUser_both⟩
    show min target a.depth ≤ min target b.depth
    omega
  | other => exact ⟨h.depth, h.tracker.onNonUser_both⟩
  | userChunk promptIndex =>
    obtain ⟨htracker, hcounted⟩ := h.tracker.onUserChunk promptIndex
    refine ⟨?_, htracker⟩
    rw [PromptCount.step, PromptCount.step]
    have hdepth := h.depth
    split
    · next hcounts =>
      rw [if_pos (hcounted hcounts)]
      exact Nat.succ_le_succ hdepth
    · dsimp only
      split
      · exact Nat.le_succ_of_le hdepth
      · exact hdepth

end Trackers

section Compare

variable {T : Type} {classify : T → RewindStep} {dropped : T → Bool}

end Compare

section Orders

variable {peeks : Peeks}

end Orders

section SplitRun

def acpLine (params : Str) : Str := "\x7b\"params\":".toList ++ params ++ "\x7d".toList

def xaiLine (params : Str) : Str :=
  "\x7b\"method\":\"_x.ai/session/update\",\"params\":".toList ++ params ++ "\x7d".toList

end SplitRun

end GrokBuild.Transcript
