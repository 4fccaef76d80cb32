import GrokBuild.Workspace.RewindSession

/-!
# Rewinding files restores the past

`rewind_files` puts back the first image of each file since the target. On a tracked session
these undo the change since the target exactly, and the last after-image of each file is its
current content.
-/

namespace GrokBuild.Workspace

open GrokBuild.FiniteMap GrokBuild.UndoLog GrokBuild.StepRun FileStateTracker

variable {P C : Type*} [DecidableEq P] [DecidableEq C]

/-- Reverting files whose after-image is their content: each gets its before-image, the
others stay, and no file is in conflict. -/
theorem foldl_revertFile {all : List (RewindPoint P C)} {entries : List (Sigma fun _ : P => Option C)}
    (hnodup : entries.NodupKeys) {r : Reverting P C}
    (hafter : ∀ entry ∈ entries, afterContent all entry.1 = r.files entry.1) :
    (∀ path, (entries.foldl (revertFile all .all) r).files path =
        (entries.dlookup path).getD (r.files path)) ∧
      (entries.foldl (revertFile all .all) r).conflicts = r.conflicts ∧
      (entries.foldl (revertFile all .all) r).hadErrors = r.hadErrors := by
  induction entries generalizing r with
  | nil => simp
  | cons entry entries ih =>
    obtain ⟨path, content⟩ := entry
    obtain ⟨hnotin, hnodup⟩ := List.nodupKeys_cons.mp hnodup
    have hclean := hafter ⟨path, content⟩ List.mem_cons_self
    have hstep : (revertFile all .all r ⟨path, content⟩).files =
          Function.update r.files path content ∧
        (revertFile all .all r ⟨path, content⟩).conflicts = r.conflicts ∧
        (revertFile all .all r ⟨path, content⟩).hadErrors = r.hadErrors := by
      cases content with
      | some data => simp [revertFile, RewindIo.all, hclean]
      | none =>
        cases hcur : r.files path with
        | some data => simp [revertFile, RewindIo.all, hclean, hcur]
        | none =>
          have hsame : Function.update r.files path none = r.files := by
            rw [← hcur, Function.update_eq_self]
          simp [revertFile, RewindIo.all, hclean, hcur, hsame]
    -- the files still to come are not touched by this one
    have hrest : ∀ entry ∈ entries, entry.1 ≠ path := by
      intro entry he heq
      have hkey : entry.1 ∈ entries.keys := List.mem_keys_of_mem he
      exact hnotin (heq ▸ hkey)
    rw [List.foldl_cons]
    obtain ⟨hfiles, hconf, herr⟩ := ih hnodup (r := revertFile all .all r ⟨path, content⟩) (by
      intro entry he
      rw [hafter entry (List.mem_cons_of_mem _ he), hstep.1,
        Function.update_of_ne (hrest entry he)])
    refine ⟨fun p => ?_, hconf.trans hstep.2.1, herr.trans hstep.2.2⟩
    rw [hfiles, hstep.1]
    by_cases hp : p = path
    · subst hp
      rw [List.dlookup_cons_eq, List.dlookup_eq_none.mpr hnotin, Option.getD_none,
        Function.update_self, Option.getD_some]
    · rw [List.dlookup_cons_ne entries _ hp, Function.update_of_ne hp]

namespace Session

/-- The files are rewound to the start of prompt `target`, which is prompted next. -/
def rewind (s : Session P C) (target : ℕ) : Session P C :=
  let rewound := s.tracker.rewindFiles s.files .all target
  { s with tracker := rewound.1, files := rewound.2.1, next := target }

inductive Op (P C : Type*) where
  | prompt (touches : List (Touch P C))
  | rewind (target : ℕ)
  | rewindConversation (target : ℕ)

/-- A rewind goes to a prompt that there was, or to the next one. -/
def step (s : Session P C) : Op P C → Session P C
  | .prompt touches => s.prompt touches
  | .rewind target => if target ≤ s.next then s.rewind target else s
  | .rewindConversation target => if target ≤ s.next then s.rewindConversation target else s

variable {s : Session P C}

theorem findSome?_eq_none_of_subset {β γ : Type*} {l l' : List β} {f : β → Option γ}
    (hsub : l ⊆ l') (h : l'.findSome? f = none) : l.findSome? f = none := by
  rw [List.findSome?_eq_none_iff] at h ⊢
  exact fun x hx => h x (hsub hx)

/-- A rewind puts back the files of the start of the prompt and finds no conflict. -/
theorem Tracked.rewindFiles (h : s.Tracked) {target : ℕ} (ht : target ≤ s.next) :
    (s.tracker.rewindFiles s.files .all target).1 = s.tracker.truncateFrom target ∧
      (s.tracker.rewindFiles s.files .all target).2.1 = s.start target ∧
      (s.tracker.rewindFiles s.files .all target).2.2.conflicts = [] := by
  have hsince := h.change_since ht
  have hall := h.change_since (Nat.zero_le s.next)
  set all := (List.range s.next).map (pointAt s.tracker.rewindPoints) with hall_def
  have hlookup (path : P) : ((filesToRevert all target).entries).dlookup path =
      (List.range' target (s.next - target)).findSome?
        fun j => befores s.tracker.rewindPoints j path :=
    h.indexed.lookup_filesToRevert ht path
  have hafter : ∀ entry ∈ (filesToRevert all target).entries,
      afterContent all entry.1 = s.files entry.1 := by
    intro entry hentry
    have htouched : (List.range' 0 (s.next - 0)).findSome?
        (fun j => befores s.tracker.rewindPoints j entry.1) ≠ none := by
      intro hnone
      have hsub : List.range' target (s.next - target) ⊆ List.range' 0 (s.next - 0) := by
        intro j hj
        rw [List.mem_range'_1] at hj ⊢
        omega
      have hgone := findSome?_eq_none_of_subset hsub hnone
      rw [← hlookup, List.dlookup_eq_none] at hgone
      exact hgone (List.mem_keys_of_mem hentry)
    have himage := hall.after_eq_some htouched
    have hcontent : afterContent all entry.1 = ((List.range' 0 (s.next - 0)).reverse.findSome?
        fun j => afters s.tracker.rewindPoints j entry.1).join := by
      rw [afterContent, hall_def, ← List.map_reverse, List.findSome?_map, List.range_eq_range']
      rfl
    rw [hcontent, himage, Option.join_some]
  obtain ⟨hfiles, hconf, herr⟩ := foldl_revertFile (filesToRevert all target).nodupKeys
    (r := { files := s.files }) hafter
  unfold FileStateTracker.rewindFiles
  rw [h.getRewindPoints, ← hall_def]
  dsimp only
  rw [herr, hconf]
  refine ⟨rfl, ?_, rfl⟩
  funext path
  rw [hfiles, hlookup]
  exact hsince.restore path

theorem Tracked.rewind (h : s.Tracked) {target : ℕ} (ht : target ≤ s.next) :
    (s.rewind target).Tracked := by
  obtain ⟨htracker, hfiles, -⟩ := h.rewindFiles ht
  have hnext : (s.rewind target).next = target := rfl
  apply h.of_agree
  · exact ht
  · rw [Session.rewind]
    dsimp only
    rw [htracker, truncateFrom, ensureHistoricalLoaded, h.lazy]
    exact h.lazy
  · intro j
    rw [hnext, Session.rewind]
    dsimp only
    rw [htracker, lookup_truncateFrom h]
  · intro i hi
    rw [hnext] at hi
    rcases Nat.lt_or_eq_of_le hi with hlt | rfl
    · rw [start, start, if_pos (by rw [hnext]; exact hlt), if_pos (by omega)]
      rfl
    · rw [start, hnext, if_neg (lt_irrefl _)]
      exact hfiles

theorem Tracked.step (h : s.Tracked) (op : Op P C) : (s.step op).Tracked := by
  cases op with
  | prompt touches => exact h.prompt touches
  | rewind target =>
    rw [Session.step]
    split
    · rename_i ht
      exact h.rewind ht
    · exact h
  | rewindConversation target =>
    rw [Session.step]
    split
    · rename_i ht
      exact h.rewindConversation ht
    · exact h

end Session

end GrokBuild.Workspace
