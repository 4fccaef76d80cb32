import Mathlib
import GrokBuild.HunkTracker.TurnIndex

/-!
# Rejections that fail

A rejection counts its hunks in the session statistics and takes them out of the turn index
before it writes the file. When the file cannot be written these two have changed, unless the
counters are full and the index lists none of the hunks.
-/

namespace GrokBuild.HunkTracker

open Text SecondaryIndex

variable {HunkId : Type*} [DecidableEq HunkId]

/-- A `usize` counter that does not move when so much is added. -/
def CounterFull (counter added : ℕ) : Prop :=
  counter = 2 ^ 64 - 1 ∨ added = 0 ∧ counter ≤ 2 ^ 64 - 1

theorem saturatingAdd_eq_self_iff {counter added : ℕ} :
    saturatingAdd counter added = counter ↔ CounterFull counter added := by
  unfold saturatingAdd CounterFull
  omega

theorem saturatingAdd_saturatingAdd (a b c : ℕ) :
    saturatingAdd (saturatingAdd a b) c = saturatingAdd a (b + c) := by
  unfold saturatingAdd
  omega

/-- The statistics once some hunks are counted as rejected. -/
def SessionStats.rejectAll (stats : SessionStats) (hunks : List (Hunk HunkId PathBuf)) : SessionStats :=
  { stats with
    rejectedHunks := saturatingAdd stats.rejectedHunks hunks.length
    rejectedLinesAdded :=
      saturatingAdd stats.rejectedLinesAdded (hunks.map fun h => h.lineInfo.newCount).sum
    rejectedLinesRemoved :=
      saturatingAdd stats.rejectedLinesRemoved (hunks.map fun h => h.lineInfo.oldCount).sum }

namespace Tracker

variable {s t : Tracker HunkId} {hunks : List (Hunk HunkId PathBuf)}

/-- The files with their baselines, contents and hunks, the turn index and the statistics. -/
def SameRecords (s t : Tracker HunkId) : Prop :=
  s.fileStates = t.fileStates ∧ s.turnIndex = t.turnIndex ∧ s.sessionStats = t.sessionStats

/-- The counters of rejections are full for the hunks, and the turn index lists none of them. -/
structure Uncounted (s : Tracker HunkId) (hunks : List (Hunk HunkId PathBuf)) : Prop where
  hunkCount : CounterFull s.sessionStats.rejectedHunks hunks.length
  linesAdded : CounterFull s.sessionStats.rejectedLinesAdded (hunks.map fun h => h.lineInfo.newCount).sum
  linesRemoved :
    CounterFull s.sessionStats.rejectedLinesRemoved (hunks.map fun h => h.lineInfo.oldCount).sum
  unlisted : ∀ h ∈ hunks, ∀ promptIndex, h.promptIndex = some promptIndex →
    h.id ∉ s.turnIndex promptIndex

/-- A rejection in the file has something to write and cannot. -/
def Blocked (s : Tracker HunkId) (w : World) (path : PathBuf) : Prop :=
  (w.files path).writable = false ∧ ∃ st, s.fileStates.lookup path = some st ∧
    ((∃ text, st.currentContent = .full text) ∨
      st.currentContent = .missing ∧ ∃ text, st.baseline = .full text)

theorem sessionStats_countOut (s : Tracker HunkId) (h : Hunk HunkId PathBuf)
    (hunks : List (Hunk HunkId PathBuf)) :
    (s.countOut (h :: hunks) .reject).sessionStats = s.sessionStats.rejectAll (h :: hunks) := by
  induction hunks generalizing s h with
  | nil => simp [countOut, removeFromTurnIndex, updateSessionStats, SessionStats.update, SessionStats.rejectAll]
  | cons h' hunks ih =>
    have hstep : s.countOut (h :: h' :: hunks) .reject =
        ((s.updateSessionStats h.lineInfo .reject).removeFromTurnIndex [h]).countOut (h' :: hunks) .reject := rfl
    rw [hstep, ih]
    simp only [SessionStats.rejectAll, removeFromTurnIndex, updateSessionStats, SessionStats.update,
      saturatingAdd_saturatingAdd, List.length_cons, List.map_cons, List.sum_cons, Nat.add_comm 1]

omit [DecidableEq HunkId] in
theorem rejectAll_eq_self_iff {stats : SessionStats} : stats.rejectAll hunks = stats ↔
    CounterFull stats.rejectedHunks hunks.length ∧
      CounterFull stats.rejectedLinesAdded (hunks.map fun h => h.lineInfo.newCount).sum ∧
      CounterFull stats.rejectedLinesRemoved (hunks.map fun h => h.lineInfo.oldCount).sum := by
  obtain ⟨a, b, c, d, e, f⟩ := stats
  simp only [SessionStats.rejectAll, SessionStats.mk.injEq, saturatingAdd_eq_self_iff, true_and]

/-- Counting hunks out changes nothing exactly when the counters are full and the index lists none
of them. -/
theorem sameRecords_countOut_iff (hne : hunks ≠ []) :
    SameRecords (s.countOut hunks .reject) s ↔ s.Uncounted hunks := by
  obtain ⟨hfiles, hindex, -⟩ := countOut_fields s hunks .reject
  obtain ⟨h, rest, rfl⟩ := List.exists_cons_of_ne_nil hne
  rw [SameRecords, hfiles, hindex, sessionStats_countOut, unlist_eq_self_iff, rejectAll_eq_self_iff]
  constructor
  · rintro ⟨-, hunlisted, hcount, hadded, hremoved⟩
    exact ⟨hcount, hadded, hremoved, hunlisted⟩
  · intro huncounted
    exact ⟨rfl, huncounted.unlisted, huncounted.hunkCount, huncounted.linesAdded, huncounted.linesRemoved⟩

section Fail

variable (diffLines : Str → Str → Option (List Change)) (newId : ℕ → HunkId) (w : World)
  (path : PathBuf)

/-- The rejection of one hunk fails exactly when it is blocked, and then leaves its state. -/
theorem rejectHunk_error (s : Tracker HunkId) (hunk : Hunk HunkId PathBuf) :
    (s.Blocked w path → ∃ e, (e = .writeError path ∨ e = .deleteError path) ∧
      s.rejectHunk diffLines newId w path hunk = (s, .error e)) ∧
    (¬s.Blocked w path → ∃ t, s.rejectHunk diffLines newId w path hunk = (t, .ok ())) := by
  unfold Blocked rejectHunk rejectAction
  cases hl : s.fileStates.lookup path with
  | none => simp
  | some st =>
    obtain ⟨baseline, current, hunks, isAgentFile, accepted⟩ := st
    cases hw : (w.files path).writable <;> cases current <;> cases baseline <;> simp

theorem rejectHunksBatch_error (s : Tracker HunkId) (hne : hunks ≠ []) :
    (s.Blocked w path → ∃ e, s.rejectHunksBatch diffLines newId w path hunks = (s, .error e)) ∧
    (¬s.Blocked w path → ∃ t, s.rejectHunksBatch diffLines newId w path hunks = (t, .ok ())) := by
  unfold Blocked rejectHunksBatch
  rw [if_neg hne]
  cases hl : s.fileStates.lookup path with
  | none => simp
  | some st =>
    obtain ⟨baseline, current, hunks, isAgentFile, accepted⟩ := st
    cases hw : (w.files path).writable <;> cases current <;> cases baseline <;> simp

variable {path} {w}

theorem blocked_countOut {action : HunkAction} :
    (s.countOut hunks action).Blocked w path ↔ s.Blocked w path := by
  rw [Blocked, Blocked, (countOut_fields s hunks action).1]

/-- The rejection of a file fails exactly when it is blocked, with its hunks counted out. -/
theorem applyToFile_error_iff : (∃ e, (s.applyToFile diffLines newId w path hunks .reject).2 = .error e) ↔
    hunks ≠ [] ∧ s.Blocked w path := by
  by_cases hne : hunks = []
  · subst hne
    simp [applyToFile, rejectHunksBatch]
  · obtain ⟨hfail, hpass⟩ := rejectHunksBatch_error diffLines newId w path (s.countOut hunks .reject) hne
    rw [blocked_countOut] at hfail hpass
    by_cases hblocked : s.Blocked w path
    · obtain ⟨e, he⟩ := hfail hblocked
      exact ⟨fun _ => ⟨hne, hblocked⟩, fun _ => ⟨e, congrArg Prod.snd he⟩⟩
    · obtain ⟨t, ht⟩ := hpass hblocked
      constructor
      · rintro ⟨e, he⟩
        have hok : (s.applyToFile diffLines newId w path hunks .reject).2 = .ok () := congrArg Prod.snd ht
        rw [hok] at he
        cases he
      · exact fun h => absurd h.2 hblocked

theorem applyToFile_of_blocked (hne : hunks ≠ []) (hblocked : s.Blocked w path) :
    ∃ e, s.applyToFile diffLines newId w path hunks .reject = (s.countOut hunks .reject, .error e) :=
  (rejectHunksBatch_error diffLines newId w path (s.countOut hunks .reject) hne).1
    (blocked_countOut.2 hblocked)

/-- The batch ends with the first file that fails, in the state that this file leaves. -/
theorem applyActionBatch_of_error {pre post : List (PathBuf × List (Hunk HunkId PathBuf))}
    {ids : List HunkId} {u : Tracker HunkId} {e : HunkActionError HunkId}
    (hpre : s.applyActionBatch diffLines newId w .reject pre = (t, .ok ids))
    (herr : t.applyToFile diffLines newId w path hunks .reject = (u, .error e)) :
    s.applyActionBatch diffLines newId w .reject (pre ++ (path, hunks) :: post) = (u, .error e) := by
  induction pre generalizing s ids with
  | nil =>
    obtain ⟨rfl, -⟩ := Prod.mk.inj hpre
    rw [List.nil_append, applyActionBatch, herr]
  | cons file pre ih =>
    obtain ⟨path', hunks'⟩ := file
    rw [applyActionBatch] at hpre
    rw [List.cons_append, applyActionBatch]
    cases hfile : s.applyToFile diffLines newId w path' hunks' .reject with
    | mk s' r =>
      rw [hfile] at hpre
      cases r with
      | error e' => cases (Prod.mk.inj hpre).2
      | ok _ =>
        cases hrest : s'.applyActionBatch diffLines newId w .reject pre with
        | mk t' r' =>
          simp only [hrest] at hpre
          cases r' with
          | error e' => cases (Prod.mk.inj hpre).2
          | ok ids' =>
            obtain ⟨rfl, -⟩ := Prod.mk.inj hpre
            simp only [ih hrest]

variable (w)

/-- The batch of rejections stops at this file, which it reaches in state `t`. -/
def StopsAt (s : Tracker HunkId) (files : List (PathBuf × List (Hunk HunkId PathBuf)))
    (t : Tracker HunkId) (path : PathBuf) (hunks : List (Hunk HunkId PathBuf)) : Prop :=
  ∃ pre post ids, files = pre ++ (path, hunks) :: post ∧
    s.applyActionBatch diffLines newId w .reject pre = (t, .ok ids) ∧
    ∃ e, (t.applyToFile diffLines newId w path hunks .reject).2 = .error e

theorem failedHunk_iff (s : Tracker HunkId) (hunkId : HunkId) :
    (∀ e, (∃ path, e = .writeError path ∨ e = .deleteError path) →
      (s.applyHunkAction diffLines newId w hunkId .reject).2 = .error e →
      SameRecords (s.applyHunkAction diffLines newId w hunkId .reject).1 s) ↔
    ∀ path hunk, s.findHunk w hunkId = some (path, hunk) → s.Blocked w path →
      s.Uncounted [hunk] := by
  unfold applyHunkAction
  cases hfind : s.findHunk w hunkId with
  | none =>
    constructor
    · intro _ path hunk h
      cases h
    · rintro - e ⟨path, rfl | rfl⟩ herr
      · cases herr
      · cases herr
  | some found =>
    obtain ⟨path, hunk⟩ := found
    have hcount : ((s.updateSessionStats hunk.lineInfo .reject).removeFromTurnIndex [hunk]) =
        s.countOut [hunk] .reject := rfl
    obtain ⟨hfail, hpass⟩ := rejectHunk_error diffLines newId w path (s.countOut [hunk] .reject) hunk
    rw [blocked_countOut] at hfail hpass
    simp only [hcount]
    constructor
    · intro h path' hunk' heq hblocked
      obtain ⟨rfl, rfl⟩ := Prod.mk.inj (Option.some.inj heq)
      obtain ⟨e, he, hreject⟩ := hfail hblocked
      have hsame := h e ⟨_, he⟩ (by rw [hreject])
      rw [hreject] at hsame
      exact (sameRecords_countOut_iff (List.cons_ne_nil _ _)).mp hsame
    · intro h e _ herr
      by_cases hblocked : s.Blocked w path
      · obtain ⟨e', -, hreject⟩ := hfail hblocked
        rw [hreject]
        exact (sameRecords_countOut_iff (List.cons_ne_nil _ _)).mpr (h path hunk rfl hblocked)
      · obtain ⟨t, hreject⟩ := hpass hblocked
        rw [hreject] at herr
        cases herr

theorem failedBatch_iff (s : Tracker HunkId) (files : List (PathBuf × List (Hunk HunkId PathBuf))) :
    (∀ t path hunks, StopsAt diffLines newId w s files t path hunks →
      SameRecords (s.applyActionBatch diffLines newId w .reject files).1 t) ↔
    ∀ pre path hunks post t ids, files = pre ++ (path, hunks) :: post →
      s.applyActionBatch diffLines newId w .reject pre = (t, .ok ids) →
      hunks ≠ [] → t.Blocked w path → t.Uncounted hunks := by
  constructor
  · intro h pre path hunks post t ids hfiles hpre hne hblocked
    obtain ⟨e, hfile⟩ := applyToFile_of_blocked diffLines newId hne hblocked
    have hsame := h t path hunks ⟨pre, post, ids, hfiles, hpre, e, by rw [hfile]⟩
    rw [hfiles, applyActionBatch_of_error diffLines newId hpre hfile] at hsame
    exact (sameRecords_countOut_iff hne).mp hsame
  · rintro h t path hunks ⟨pre, post, ids, hfiles, hpre, herr⟩
    obtain ⟨hne, hblocked⟩ := (applyToFile_error_iff diffLines newId).mp herr
    obtain ⟨e, hfile⟩ := applyToFile_of_blocked diffLines newId hne hblocked
    rw [hfiles, applyActionBatch_of_error diffLines newId hpre hfile]
    exact (sameRecords_countOut_iff hne).mpr (h pre path hunks post t ids hfiles hpre hne hblocked)

/-- Exactly when a failed rejection changes nothing, for one hunk and for a batch: whenever the
file has something to write and cannot, the counters are full and the index lists no hunk of
it. -/
theorem failed_reject_changes_nothing_iff (s : Tracker HunkId) (hunkId : HunkId)
    (files : List (PathBuf × List (Hunk HunkId PathBuf))) :
    ((∀ e, (∃ path, e = .writeError path ∨ e = .deleteError path) →
        (s.applyHunkAction diffLines newId w hunkId .reject).2 = .error e →
        SameRecords (s.applyHunkAction diffLines newId w hunkId .reject).1 s) ↔
      ∀ path hunk, s.findHunk w hunkId = some (path, hunk) → s.Blocked w path →
        s.Uncounted [hunk]) ∧
    ((∀ t path hunks, StopsAt diffLines newId w s files t path hunks →
        SameRecords (s.applyActionBatch diffLines newId w .reject files).1 t) ↔
      ∀ pre path hunks post t ids, files = pre ++ (path, hunks) :: post →
        s.applyActionBatch diffLines newId w .reject pre = (t, .ok ids) →
        hunks ≠ [] → t.Blocked w path → t.Uncounted hunks) :=
  ⟨failedHunk_iff diffLines newId w s hunkId, failedBatch_iff diffLines newId w s files⟩

end Fail

section Failing

/-- An agent's edit of a file that has since become read-only. -/
def readOnlyEdit : Tracker ℕ :=
  { workingDir := ⟨false, []⟩
    fileStates := AList.singleton ⟨false, []⟩
      { baseline := .full "a\n".toList, currentContent := .full "b\n".toList
        hunks := [⟨0, ⟨false, []⟩, ⟨1, 1, 1, 1⟩, .agentEdit 1, some "a\n".toList, "b\n".toList⟩]
        isAgentFile := true, baselineAccepted := false }
    turnIndex := fun p => if p = 1 then [0] else []
    mode := .agentOnly }

def readOnlyWorld : World :=
  { files := fun _ => { writable := false }
    batchHead := fun _ => none
    contents := fun _ => .missing
    status := none
    syncState := none
    order := id
    order_perm := fun l => List.Perm.refl l }

/-- The hunk stays, and yet it is counted as rejected and is no longer listed for its turn. -/
theorem readOnly_reject_counted :
    let failed := readOnlyEdit.applyHunkAction (fun _ _ => none) id readOnlyWorld 0 .reject
    let batched := readOnlyEdit.applyFileAction (fun _ _ => none) id readOnlyWorld ⟨false, []⟩ .reject
    failed.2 = .error (.writeError ⟨false, []⟩) ∧ batched.2 = .error (.writeError ⟨false, []⟩) ∧
      readOnlyEdit.sessionStats.rejectedHunks = 0 ∧ readOnlyEdit.turnIndex 1 = [0] ∧
      failed.1.sessionStats.rejectedHunks = 1 ∧ failed.1.turnIndex 1 = [] ∧
      batched.1.sessionStats.rejectedHunks = 1 ∧ batched.1.turnIndex 1 = [] := by
  refine ⟨rfl, rfl, ?_⟩
  decide

end Failing

end Tracker

end GrokBuild.HunkTracker
