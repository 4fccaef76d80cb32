import GrokBuild.HunkTracker.Actions

/-!
# The turn index

`turn_index` is kept by hand beside the hunks. Every command keeps it consistent with them,
except a rejection that fails on the file: by then the hunks have left the index, and they
stay in the file.
-/

namespace GrokBuild.HunkTracker

open Text SecondaryIndex StepRun

namespace Tracker

variable {HunkId : Type*} [DecidableEq HunkId]

/-! ## What the state changes touch -/

section Frame

variable (s : Tracker HunkId) (path : PathBuf)

omit [DecidableEq HunkId] in
theorem hunksAt_of_lookup {s : Tracker HunkId} {path : PathBuf} {st : FileHunkState HunkId}
    (h : s.fileStates.lookup path = some st) : s.hunksAt path = st.hunks := by
  rw [hunksAt, h]

omit [DecidableEq HunkId] in
theorem lookup_of_mem_hunksAt {s : Tracker HunkId} {path : PathBuf} {h : Hunk HunkId PathBuf}
    (hm : h ∈ s.hunksAt path) : ∃ st, s.fileStates.lookup path = some st ∧ h ∈ st.hunks := by
  unfold hunksAt at hm
  cases hl : s.fileStates.lookup path with
  | none => simp [hl] at hm
  | some st => exact ⟨st, rfl, by simpa [hl] using hm⟩

omit [DecidableEq HunkId] in
theorem hunksAt_congr {s s' : Tracker HunkId} {path : PathBuf}
    (h : s'.fileStates.lookup path = s.fileStates.lookup path) :
    s'.hunksAt path = s.hunksAt path := by
  rw [hunksAt, h, hunksAt]

omit [DecidableEq HunkId] in
@[simp] theorem lookup_setFile (st : FileHunkState HunkId) :
    (s.setFile path st).fileStates.lookup path = some st :=
  AList.lookup_insert _

omit [DecidableEq HunkId] in
theorem lookup_setFile_of_ne (st : FileHunkState HunkId) {p : PathBuf} (h : p ≠ path) :
    (s.setFile path st).fileStates.lookup p = s.fileStates.lookup p :=
  AList.lookup_insert_ne h

/-- A command's part on one file: other files stay, and the file's hunks become fewer. The
hunks of `out` leave the turn index. -/
structure Shrinks (path : PathBuf) (out : List (Hunk HunkId PathBuf)) (s s' : Tracker HunkId) :
    Prop where
  frame : ∀ p, p ≠ path → s'.fileStates.lookup p = s.fileStates.lookup p
  index : s'.turnIndex = unlist Hunk.id Hunk.promptIndex out s.turnIndex
  next : s'.nextId = s.nextId
  sub : (s'.hunksAt path).Sublist (s.hunksAt path)
  out_sub : out ⊆ s.hunksAt path
  gone : ∀ h ∈ s'.hunksAt path, h ∉ out

theorem shrinks_setFile {st : FileHunkState HunkId} (h : st.hunks.Sublist (s.hunksAt path)) :
    Shrinks path [] s (s.setFile path st) where
  frame _ hp := s.lookup_setFile_of_ne path st hp
  index := rfl
  next := rfl
  sub := by rwa [hunksAt_of_lookup (s.lookup_setFile path st)]
  out_sub := by simp
  gone := by simp

end Frame

/-! ## The invariant -/

section Invariant

variable (newId : ℕ → HunkId)

/-- Ids come from the supply, in order. -/
def Drawn (next : ℕ) (id : HunkId) : Prop := ∃ k < next, id = newId k

/-- How many hunks there may be: some only for contents that can be patched, and one for a
created file. -/
def PatchableWith (baseline current : FileContentState) (count : ℕ) : Prop :=
  match baseline, current with
  | .full _, .full _ => True
  | .full _, .missing => True
  | .missing, .full _ => count ≤ 1
  | _, _ => count = 0

theorem patchableWith_zero (baseline current : FileContentState) :
    PatchableWith baseline current 0 := by
  unfold PatchableWith
  split <;> simp

def Patchable (st : FileHunkState HunkId) : Prop :=
  PatchableWith st.baseline st.currentContent st.hunks.length

omit [DecidableEq HunkId] in
/-- What a file with hunks is like: edited, deleted or created. -/
theorem Patchable.cases {st : FileHunkState HunkId} (h : Patchable st) (hne : st.hunks ≠ []) :
    (∃ b c, st.baseline = .full b ∧ st.currentContent = .full c) ∨
    (∃ b, st.baseline = .full b ∧ st.currentContent = .missing) ∨
    (∃ c, st.baseline = .missing ∧ st.currentContent = .full c ∧ st.hunks.length ≤ 1) := by
  unfold Patchable PatchableWith at h
  split at h
  · rename_i hb hc
    exact Or.inl ⟨_, _, hb, hc⟩
  · rename_i hb hc
    exact Or.inr (Or.inl ⟨_, hb, hc⟩)
  · rename_i hb hc
    exact Or.inr (Or.inr ⟨_, hb, hc, h⟩)
  · exact absurd (List.eq_nil_of_length_eq_zero h) hne

/-- The invariant, with the contents of the files in `off` left out. -/
structure IndexedOff (off : PathBuf → Prop) (s : Tracker HunkId) : Prop where
  consistent : Consistent Hunk.id Hunk.promptIndex s.hunksAt s.turnIndex
  live_drawn : ∀ path, ∀ h ∈ s.hunksAt path, Drawn newId s.nextId h.id
  index_drawn : ∀ p, ∀ id ∈ s.turnIndex p, Drawn newId s.nextId id
  patchable : ∀ path, ¬off path → ∀ st, s.fileStates.lookup path = some st → Patchable st

abbrev Indexed (s : Tracker HunkId) : Prop := IndexedOff newId (fun _ => False) s

variable {newId} {s s' : Tracker HunkId} {path : PathBuf}

omit [DecidableEq HunkId] in
theorem Indexed.off (h : Indexed newId s) (path : PathBuf) :
    IndexedOff newId (· = path) s :=
  { h with patchable := fun p _ => h.patchable p not_false }

omit [DecidableEq HunkId] in
theorem IndexedOff.indexed (h : IndexedOff newId (· = path) s)
    (hp : ∀ st, s.fileStates.lookup path = some st → Patchable st) : Indexed newId s :=
  { h with
    patchable := by
      intro p _ st hst
      by_cases hpp : p = path
      · subst hpp
        exact hp st hst
      · exact h.patchable p hpp st hst }

omit [DecidableEq HunkId] in
theorem indexed_new (workingDir : PathBuf) (mode : TrackingMode) :
    Indexed newId (Tracker.new workingDir mode) where
  consistent :=
    { nodup := by simp [Tracker.new, hunksAt]
      disjoint := by simp [Tracker.new, hunksAt]
      index_nodup := by simp [Tracker.new]
      exact := by simp [Tracker.new, hunksAt] }
  live_drawn := by simp [Tracker.new, hunksAt]
  index_drawn := by simp [Tracker.new]
  patchable := by simp [Tracker.new]

omit [DecidableEq HunkId] in
theorem IndexedOff.sendEvents {off : PathBuf → Prop} (h : IndexedOff newId off s)
    (events : List (HunkEvent HunkId PathBuf)) : IndexedOff newId off (s.sendEvents events) :=
  ⟨h.consistent, h.live_drawn, h.index_drawn, h.patchable⟩

omit [DecidableEq HunkId] in
theorem hunksAt_eq_update (h : ∀ p, p ≠ path → s'.fileStates.lookup p = s.fileStates.lookup p) :
    s'.hunksAt = Function.update s.hunksAt path (s'.hunksAt path) := by
  funext p
  by_cases hp : p = path
  · subst hp
    simp
  · rw [Function.update_of_ne hp, hunksAt_congr (h p hp)]

theorem IndexedOff.shrinks (h : IndexedOff newId (· = path) s)
    {out : List (Hunk HunkId PathBuf)} (hs : Shrinks path out s s') :
    IndexedOff newId (· = path) s' where
  consistent := by
    rw [hunksAt_eq_update hs.frame, hs.index]
    exact h.consistent.remove hs.out_sub hs.sub hs.gone
  live_drawn := by
    intro p x hx
    rw [hs.next]
    by_cases hp : p = path
    · subst hp
      exact h.live_drawn p x (hs.sub.subset hx)
    · rw [hunksAt_congr (hs.frame p hp)] at hx
      exact h.live_drawn p x hx
  index_drawn := by
    intro p id hid
    rw [hs.index, mem_unlist h.consistent.index_nodup] at hid
    rw [hs.next]
    exact h.index_drawn p id hid.1
  patchable := by
    intro p hp st hst
    rw [hs.frame p hp] at hst
    exact h.patchable p hp st hst

theorem IndexedOff.setFile (h : IndexedOff newId (· = path) s) {st : FileHunkState HunkId}
    (hst : st.hunks.Sublist (s.hunksAt path)) :
    IndexedOff newId (· = path) (s.setFile path st) :=
  h.shrinks (s.shrinks_setFile path hst)

theorem Indexed.setFile_nil (h : Indexed newId s) {st : FileHunkState HunkId}
    (hst : st.hunks = []) : Indexed newId (s.setFile path st) := by
  apply ((h.off path).setFile (by simp [hst])).indexed
  intro st' hst'
  rw [lookup_setFile, Option.some.injEq] at hst'
  rw [Patchable, ← hst', hst]
  exact patchableWith_zero _ _

theorem Indexed.track (h : Indexed newId s) (path : PathBuf)
    (baseline current : FileContentState) (isAgentFile : Bool) :
    Indexed newId (s.track path baseline current isAgentFile) :=
  (h.setFile_nil rfl).sendEvents _

end Invariant

/-! ## Recomputing -/

section Recompute

variable (diffLines : Str → Str → Option (List Change)) {newId : ℕ → HunkId}
  {s : Tracker HunkId} {path : PathBuf}

omit [DecidableEq HunkId] in
theorem rawHunks_patchable (newId : ℕ → HunkId) (path : PathBuf)
    (baseline current : FileContentState) (source : HunkSource) :
    PatchableWith baseline current
      (rawHunks diffLines newId path baseline current source).length := by
  unfold PatchableWith
  split
  · trivial
  · trivial
  · simp only [rawHunks]
    split <;> simp
  · rename_i h1 h2 h3
    unfold rawHunks
    split
    · exact absurd rfl (h1 _ _ rfl)
    · exact absurd rfl (h2 _ rfl)
    · exact absurd rfl (h3 _ rfl)
    · rfl

theorem recomputeHunks_patchable (newId : ℕ → HunkId) (path : PathBuf)
    (st : FileHunkState HunkId) (current : FileContentState) (source : HunkSource) :
    Patchable
      { st with
        currentContent := current
        hunks := (HunkTracker.recomputeHunks diffLines newId path st.baseline current source
          st.hunks).1 } := by
  show PatchableWith st.baseline current (preserveIds st.hunks []
    (rawHunks diffLines newId path st.baseline current source)).length
  rw [length_preserveIds]
  exact rawHunks_patchable diffLines newId path st.baseline current source

/-- An id of the new list is an id of an old hunk, or the next of the supply. -/
theorem recomputeHunks_ids (hinj : Function.Injective newId) {next : ℕ}
    {old : List (Hunk HunkId PathBuf)} (hold : ∀ o ∈ old, Drawn newId next o.id)
    (path : PathBuf) (baseline current : FileContentState) (source : HunkSource) :
    let new := (HunkTracker.recomputeHunks diffLines (fun k => newId (next + k)) path baseline
      current source old).1
    (new.map Hunk.id).Nodup ∧
      ∀ x ∈ new, (∃ o ∈ old, o.id = x.id) ∨ ∃ k < new.length, x.id = newId (next + k) := by
  intro new
  have hshift : Function.Injective fun k => newId (next + k) := by
    intro a b hab
    have := hinj hab
    omega
  set raw := rawHunks diffLines (fun k => newId (next + k)) path baseline current source
  have hraw : ∀ n ∈ raw, ∃ k < raw.length, n.id = newId (next + k) := by
    intro n hn
    have hid := List.mem_map_of_mem (f := Hunk.id) hn
    rw [rawHunks_ids] at hid
    obtain ⟨k, hk, hkn⟩ := List.mem_map.mp hid
    exact ⟨k, List.mem_range.mp hk, hkn.symm⟩
  have hnodup : (raw.map Hunk.id).Nodup := by
    rw [rawHunks_ids]
    exact List.nodup_range.map hshift
  have hfresh : ∀ n ∈ raw, ∀ o ∈ old, n.id ≠ o.id := by
    intro n hn o ho heq
    obtain ⟨k, -, hk⟩ := hraw n hn
    obtain ⟨i, hi, hoi⟩ := hold o ho
    have := hinj (hk.symm.trans (heq.trans hoi))
    omega
  have hlen : new.length = raw.length := length_preserveIds old [] raw
  obtain ⟨hnew, hids⟩ := preserveIds_ids old [] hfresh hnodup
  refine ⟨hnew, fun x hx => ?_⟩
  rw [hlen]
  rcases hids x hx with ⟨n, hn, hxn⟩ | ⟨n, -, o, ho, hxo, -⟩
  · obtain ⟨k, hk, hnk⟩ := hraw n hn
    exact Or.inr ⟨k, hk, hxn.trans hnk⟩
  · exact Or.inl ⟨o, (findMatchingOldHunk_some ho).1, hxo.symm⟩

omit [DecidableEq HunkId] in
theorem Drawn.mono {n m : ℕ} {id : HunkId} (h : Drawn newId n id) (hnm : n ≤ m) :
    Drawn newId m id := by
  obtain ⟨k, hk, rfl⟩ := h
  exact ⟨k, hk.trans_le hnm, rfl⟩

/-- Recomputing a file brings it back in order, whatever its contents were before. -/
theorem IndexedOff.recomputeHunks (hinj : Function.Injective newId)
    (h : IndexedOff newId (· = path) s) (newCurrent : Option FileContentState)
    (source : HunkSource) :
    Indexed newId (s.recomputeHunks diffLines newId path newCurrent source) := by
  cases hl : s.fileStates.lookup path with
  | none =>
    rw [Tracker.recomputeHunks, hl]
    exact h.indexed (by simp [hl])
  | some st =>
    have hat := hunksAt_of_lookup hl
    have hold : ∀ o ∈ st.hunks, Drawn newId s.nextId o.id := by
      rw [← hat]
      exact h.live_drawn path
    set r := HunkTracker.recomputeHunks diffLines (fun k => newId (s.nextId + k)) path
      st.baseline (newCurrent.getD .missing) source st.hunks with hr
    obtain ⟨hnodup, hids⟩ := recomputeHunks_ids diffLines hinj hold path st.baseline
      (newCurrent.getD .missing) source
    rw [← hr] at hnodup hids
    set s' := s.recomputeHunks diffLines newId path newCurrent source with hs'
    rw [Tracker.recomputeHunks, hl] at hs'
    simp only [← hr] at hs'
    have hframe : ∀ p, p ≠ path → s'.fileStates.lookup p = s.fileStates.lookup p := by
      intro p hp
      rw [hs']
      exact AList.lookup_insert_ne hp
    have hfile : s'.fileStates.lookup path =
        some { st with currentContent := newCurrent.getD .missing, hunks := r.1 } := by
      rw [hs']
      exact AList.lookup_insert _
    have hat' := hunksAt_of_lookup hfile
    have hindex : s'.turnIndex = enlist Hunk.id Hunk.promptIndex r.1
        (unlist Hunk.id Hunk.promptIndex (s.hunksAt path) s.turnIndex) := by
      rw [hs', hat]
    have hnext : s'.nextId = s.nextId + r.1.length := by rw [hs']
    have hdrawn : ∀ x ∈ r.1, Drawn newId (s.nextId + r.1.length) x.id := by
      intro x hx
      rcases hids x hx with ⟨o, ho, hox⟩ | ⟨k, hk, hxk⟩
      · rw [← hox]
        exact (hold o ho).mono (Nat.le_add_right _ _)
      · exact ⟨s.nextId + k, by omega, hxk⟩
    have hoff : IndexedOff newId (· = path) s' := by
      refine ⟨?_, ?_, ?_, fun p hp st' hst' => h.patchable p hp st' (hframe p hp ▸ hst')⟩
      · rw [hunksAt_eq_update hframe, hindex, hat']
        apply h.consistent.replace hnodup
        intro x hx
        rw [hat]
        -- a fresh id is neither live nor listed
        refine (hids x hx).imp_right ?_
        rintro ⟨k, -, hxk⟩
        have hne : ∀ id, Drawn newId s.nextId id → id ≠ x.id := by
          rintro id ⟨i, hi, rfl⟩ heq
          have := hinj (heq.trans hxk)
          omega
        exact ⟨fun p o ho => hne _ (h.live_drawn p o ho),
          fun p hp => hne _ (h.index_drawn p _ hp) rfl⟩
      · intro p x hx
        rw [hnext]
        by_cases hp : p = path
        · subst hp
          rw [hat'] at hx
          exact hdrawn x hx
        · rw [hunksAt_congr (hframe p hp)] at hx
          exact (h.live_drawn p x hx).mono (Nat.le_add_right _ _)
      · intro p id hid
        rw [hindex, mem_enlist, mem_unlist h.consistent.index_nodup] at hid
        rw [hnext]
        rcases hid with ⟨hid, -⟩ | ⟨x, hx, -, rfl⟩
        · exact (h.index_drawn p id hid).mono (Nat.le_add_right _ _)
        · exact hdrawn x hx
    apply hoff.indexed
    intro st' hst'
    rw [hfile, Option.some.injEq] at hst'
    rw [← hst']
    exact recomputeHunks_patchable diffLines _ path st _ source

end Recompute

/-! ## The file events -/

section Mutations

variable (diffLines : Str → Str → Option (List Change)) {newId : ℕ → HunkId}
  (hinj : Function.Injective newId) (w : World) {s : Tracker HunkId} {path : PathBuf}

include hinj

theorem Indexed.recomputeHunks (h : Indexed newId s) (path : PathBuf)
    (newCurrent : Option FileContentState) (source : HunkSource) :
    Indexed newId (s.recomputeHunks diffLines newId path newCurrent source) :=
  (h.off path).recomputeHunks diffLines hinj newCurrent source

/-- A file's contents change and its hunks are recomputed. -/
theorem Indexed.setFile_recomputeHunks (h : Indexed newId s) {st : FileHunkState HunkId}
    (hst : st.hunks.Sublist (s.hunksAt path)) (newCurrent : Option FileContentState)
    (source : HunkSource) :
    Indexed newId ((s.setFile path st).recomputeHunks diffLines newId path newCurrent source) :=
  ((h.off path).setFile hst).recomputeHunks diffLines hinj newCurrent source

theorem Indexed.recordAgentWrite (h : Indexed newId s) (path : PathBuf) (content : Str)
    (promptIndex : ℕ) (previousContent : Option Str) :
    Indexed newId
      (s.recordAgentWrite diffLines newId w path content promptIndex previousContent) := by
  unfold Tracker.recordAgentWrite
  cases hl : s.fileStates.lookup path with
  | none =>
    simp only
    split
    · exact h.track path _ _ _
    · exact (h.track path _ _ _).recomputeHunks diffLines hinj path _ _
  | some st =>
    simp only
    split
    · exact h.setFile_nil rfl
    · apply h.setFile_recomputeHunks diffLines hinj
      rw [hunksAt_of_lookup hl]

theorem Indexed.processFileChange (h : Indexed newId s) (path : PathBuf)
    (preloadedBaseline : Option FileContentState) :
    Indexed newId (s.processFileChange diffLines newId w path preloadedBaseline) := by
  unfold Tracker.processFileChange
  cases hl : s.fileStates.lookup path with
  | none =>
    simp only
    split
    · exact h
    · split
      · exact h
      · split
        · split
          · exact (h.track path _ _ _).recomputeHunks diffLines hinj path _ _
          · exact h.track path _ _ _
        · exact (h.track path _ _ _).recomputeHunks diffLines hinj path _ _
  | some st =>
    simp only
    split
    · exact h.setFile_nil rfl
    · exact h.recomputeHunks diffLines hinj path _ _

theorem Indexed.processBatch (h : Indexed newId s)
    (baselines : PathBuf → Option FileContentState) (paths : List PathBuf) :
    Indexed newId (s.processBatch diffLines newId w baselines paths) := by
  induction paths generalizing s baselines with
  | nil => exact h
  | cons path paths ih => exact ih (h.processFileChange diffLines hinj w path _) _

theorem Indexed.handleFileDeleted (h : Indexed newId s) (path : PathBuf) :
    Indexed newId (s.handleFileDeleted diffLines newId w path) := by
  unfold Tracker.handleFileDeleted
  cases hl : s.fileStates.lookup path with
  | none =>
    simp only
    split
    · exact h
    · split
      · exact h
      · split
        · exact h
        · exact (h.track path _ _ _).recomputeHunks diffLines hinj path _ _
  | some st =>
    simp only
    split
    · exact h.processFileChange diffLines hinj w path none
    · exact h.recomputeHunks diffLines hinj path _ _

theorem Indexed.refreshGitDirtyCache (h : Indexed newId s) :
    Indexed newId (s.refreshGitDirtyCache diffLines newId w) := by
  unfold Tracker.refreshGitDirtyCache
  split
  · exact h
  · have h' := fun dirty staged =>
      (show Indexed newId { s with gitDirtyCache := dirty, gitStagedCache := staged } from
        ⟨h.consistent, h.live_drawn, h.index_drawn, h.patchable⟩)
    simp only
    split
    · exact invariant (P := Indexed newId)
        (fun s p hs => hs.processFileChange diffLines hinj w _ none) (h' _ _) _
    · exact h' _ _

omit hinj in
/-- A file loses its hunks, and these leave the turn index. -/
theorem Indexed.clear (h : Indexed newId s) {st st' : FileHunkState HunkId}
    (hl : s.fileStates.lookup path = some st) (hst : st'.hunks = []) :
    Indexed newId ((s.setFile path st').removeFromTurnIndex st.hunks) := by
  have hlookup : ((s.setFile path st').removeFromTurnIndex st.hunks).fileStates.lookup path =
      some st' := s.lookup_setFile path st'
  have hat := hunksAt_of_lookup hlookup
  have hs : Shrinks path st.hunks s ((s.setFile path st').removeFromTurnIndex st.hunks) :=
    { frame := fun p hp => s.lookup_setFile_of_ne path st' hp
      index := rfl
      next := rfl
      sub := by simp [hat, hst]
      out_sub := by rw [hunksAt_of_lookup hl]; exact List.Subset.refl _
      gone := by simp [hat, hst] }
  apply ((h.off path).shrinks hs).indexed
  intro st'' hst''
  rw [hlookup, Option.some.injEq] at hst''
  rw [Patchable, ← hst'', hst]
  exact patchableWith_zero _ _

omit hinj in
theorem Indexed.resetBaseline (h : Indexed newId s) (path : PathBuf) :
    Indexed newId (s.resetBaseline path) := by
  unfold Tracker.resetBaseline
  cases hl : s.fileStates.lookup path with
  | none => exact h
  | some st => exact (h.clear hl rfl).sendEvents _

omit hinj in
theorem Indexed.dropFile (h : Indexed newId s) {st st' : FileHunkState HunkId}
    (hl : s.fileStates.lookup path = some st) (hst : st'.hunks = st.hunks) :
    Indexed newId (s.dropFile path st') := by
  have hlookup : (s.dropFile path st').fileStates.lookup path = none := AList.lookup_erase _ _
  have hat : (s.dropFile path st').hunksAt path = [] := by rw [hunksAt, hlookup]
  have hs : Shrinks path st'.hunks s (s.dropFile path st') :=
    { frame := fun p hp => AList.lookup_erase_ne hp
      index := rfl
      next := rfl
      sub := by simp [hat]
      out_sub := by rw [hunksAt_of_lookup hl, hst]; exact List.Subset.refl _
      gone := by simp [hat] }
  exact ((h.off path).shrinks hs).indexed (by simp [hlookup])

theorem Indexed.refreshFile (h : Indexed newId s) (path : PathBuf) :
    Indexed newId (s.refreshFile diffLines newId w path) := by
  unfold Tracker.refreshFile
  cases hl : s.fileStates.lookup path with
  | none => exact h
  | some st =>
    simp only
    split
    · split
      · exact (h.clear hl rfl).sendEvents _
      · exact h.dropFile hl rfl
    · refine (h.setFile_recomputeHunks diffLines hinj ?_ _ _).sendEvents _
      rw [hunksAt_of_lookup hl]

theorem Indexed.refreshAllBaselinesExcept (h : Indexed newId s) (skip : List PathBuf) :
    Indexed newId (s.refreshAllBaselinesExcept diffLines newId w skip) := by
  unfold Tracker.refreshAllBaselinesExcept
  split
  · exact h
  · split
    · exact h
    · have h' := fun sync => (show Indexed newId { s with repoSyncState := sync } from
        ⟨h.consistent, h.live_drawn, h.index_drawn, h.patchable⟩)
      simp only
      apply invariant (P := Indexed newId) fun s p hs => hs.refreshFile diffLines hinj w p
      split
      · exact ⟨h.consistent, h.live_drawn, h.index_drawn, h.patchable⟩
      · exact (h' _).refreshGitDirtyCache diffLines hinj w

theorem Indexed.setMode (h : Indexed newId s) (mode : TrackingMode) :
    Indexed newId (s.setMode diffLines newId w mode) := by
  have h' : Indexed newId { s with mode } :=
    ⟨h.consistent, h.live_drawn, h.index_drawn, h.patchable⟩
  unfold Tracker.setMode
  simp only
  split
  · exact h'.refreshGitDirtyCache diffLines hinj w
  · split
    · refine invariant (P := Indexed newId) (fun s p hs => ?_) h' _
      cases hl : s.fileStates.lookup p with
      | none => exact hs
      | some st => exact hs.dropFile hl rfl
    · exact h'

end Mutations

/-! ## The actions -/

section Actions

variable (diffLines : Str → Str → Option (List Change)) {newId : ℕ → HunkId} (w : World)
  {s : Tracker HunkId} {path : PathBuf} {hunks : List (Hunk HunkId PathBuf)}

/-- Counting hunks out changes the statistics and the turn index only. -/
theorem countOut_fields (s : Tracker HunkId) (hunks : List (Hunk HunkId PathBuf))
    (action : HunkAction) :
    (s.countOut hunks action).fileStates = s.fileStates ∧
      (s.countOut hunks action).turnIndex =
        unlist Hunk.id Hunk.promptIndex hunks s.turnIndex ∧
      (s.countOut hunks action).nextId = s.nextId := by
  induction hunks generalizing s with
  | nil => exact ⟨rfl, rfl, rfl⟩
  | cons h hunks ih => exact ih _

theorem retained_sublist (hunks out : List (Hunk HunkId PathBuf)) :
    (retained hunks out).Sublist hunks :=
  List.filter_sublist

theorem not_mem_out_of_mem_retained {hunks out : List (Hunk HunkId PathBuf)}
    {h : Hunk HunkId PathBuf} (hr : h ∈ retained hunks out) : h ∉ out := by
  intro ho
  have := (List.mem_filter.mp hr).2
  simp only [Bool.not_eq_true', List.contains_eq_mem, decide_eq_false_iff_not] at this
  exact this (List.mem_map_of_mem ho)

/-- Hunks leave the index and then the file. -/
theorem shrinks_countOut {st st' : FileHunkState HunkId}
    (hl : s.fileStates.lookup path = some st) (hsub : hunks ⊆ st.hunks) (action : HunkAction)
    (hst : st'.hunks = retained st.hunks hunks) :
    Shrinks path hunks s ((s.countOut hunks action).setFile path st') := by
  obtain ⟨hfiles, hindex, hnext⟩ := countOut_fields s hunks action
  have hat := hunksAt_of_lookup ((s.countOut hunks action).lookup_setFile path st')
  exact
    { frame := by
        intro p hp
        rw [lookup_setFile_of_ne _ _ _ hp, hfiles]
      index := hindex
      next := hnext
      sub := by
        rw [hat, hst, hunksAt_of_lookup hl]
        exact retained_sublist _ _
      out_sub := by rwa [hunksAt_of_lookup hl]
      gone := by
        rw [hat, hst]
        exact fun h hr => not_mem_out_of_mem_retained hr }

theorem Indexed.countOut_setFile (h : Indexed newId s) {st st' : FileHunkState HunkId}
    (hl : s.fileStates.lookup path = some st) (hsub : hunks ⊆ st.hunks) (action : HunkAction)
    (hst : st'.hunks = retained st.hunks hunks) :
    IndexedOff newId (· = path) ((s.countOut hunks action).setFile path st') :=
  (h.off path).shrinks (shrinks_countOut hl hsub action hst)

omit [DecidableEq HunkId] in
/-- A file with hunks to act on is tracked, and it is edited, deleted or created. -/
theorem Indexed.lookup_acted (h : Indexed newId s) (hne : hunks ≠ [])
    (hsub : hunks ⊆ s.hunksAt path) :
    ∃ st, s.fileStates.lookup path = some st ∧ hunks ⊆ st.hunks ∧
      ((∃ b c, st.baseline = .full b ∧ st.currentContent = .full c) ∨
      (∃ b, st.baseline = .full b ∧ st.currentContent = .missing) ∨
      (∃ c, st.baseline = .missing ∧ st.currentContent = .full c ∧ st.hunks.length ≤ 1)) := by
  obtain ⟨x, hx⟩ := List.exists_mem_of_ne_nil hunks hne
  obtain ⟨st, hl, hm⟩ := lookup_of_mem_hunksAt (hsub hx)
  refine ⟨st, hl, hunksAt_of_lookup hl ▸ hsub, ?_⟩
  exact (h.patchable path not_false st hl).cases (List.ne_nil_of_mem hm)

theorem Indexed.acceptHunksBatch (hinj : Function.Injective newId) (h : Indexed newId s)
    (hne : hunks ≠ []) (hsub : hunks ⊆ s.hunksAt path) :
    Indexed newId
      ((s.countOut hunks .accept).acceptHunksBatch diffLines newId path hunks) := by
  obtain ⟨st, hl, hsub, hshape⟩ := h.lookup_acted hne hsub
  unfold Tracker.acceptHunksBatch
  rw [if_neg hne, (countOut_fields s hunks .accept).1, hl]
  simp only
  split
  · rename_i hb
    apply ((h.countOut_setFile hl hsub .accept rfl).sendEvents _).indexed
    intro st' hst'
    have heq := Option.some.inj ((lookup_setFile _ _ _).symm.trans hst')
    rw [← heq]
    -- the new baseline is the text of the created file
    rcases hshape with ⟨b, c, hb', -⟩ | ⟨b, hb', -⟩ | ⟨c, -, hc, -⟩
    · rw [hb] at hb'
      simp at hb'
    · rw [hb] at hb'
      simp at hb'
    · simp [Patchable, PatchableWith, hc]
  · exact ((h.countOut_setFile hl hsub .accept rfl).sendEvents _).recomputeHunks diffLines hinj
      _ _

/-- The one hunk of a created file is among those acted on. -/
theorem retained_eq_nil {st : FileHunkState HunkId} (hne : hunks ≠ [])
    (hsub : hunks ⊆ st.hunks) (hlen : st.hunks.length ≤ 1) : retained st.hunks hunks = [] := by
  obtain ⟨x, hx⟩ := List.exists_mem_of_ne_nil hunks hne
  rw [List.eq_nil_iff_forall_not_mem]
  intro y hy
  have hxy : y = x := by
    obtain ⟨z, hz⟩ := List.length_eq_one_iff.mp
      (le_antisymm hlen (List.length_pos_of_mem (hsub hx)))
    have h1 := hsub hx
    have h2 := (retained_sublist _ _).subset hy
    rw [hz, List.mem_singleton] at h1 h2
    rw [h1, h2]
  exact not_mem_out_of_mem_retained hy (hxy ▸ hx)

/-- A rejection either goes through on the file, or fails and leaves the file's hunks. -/
theorem Indexed.rejectHunksBatch (hinj : Function.Injective newId) (h : Indexed newId s)
    (hne : hunks ≠ []) (hsub : hunks ⊆ s.hunksAt path) :
    if (w.files path).writable then
      ∃ s', (s.countOut hunks .reject).rejectHunksBatch diffLines newId w path hunks =
        (s', .ok ()) ∧ Indexed newId s'
    else
      ∃ e, (s.countOut hunks .reject).rejectHunksBatch diffLines newId w path hunks =
        (s.countOut hunks .reject, .error e) := by
  obtain ⟨st, hl, hsub, hshape⟩ := h.lookup_acted hne hsub
  have hfile : (s.countOut hunks .reject).fileStates.lookup path = some st := by
    rw [(countOut_fields s hunks .reject).1, hl]
  have hoff : ∀ current, IndexedOff newId (· = path)
      ((s.countOut hunks .reject).rejected path st current hunks) :=
    fun current => (h.countOut_setFile hl hsub .reject rfl).sendEvents _
  have hafter : ∀ current st', ((s.countOut hunks .reject).rejected path st current
      hunks).fileStates.lookup path = some st' →
      st' = { st with currentContent := current, hunks := retained st.hunks hunks } :=
    fun current st' hst' => Option.some.inj (hst'.symm.trans (lookup_setFile _ _ _))
  unfold Tracker.rejectHunksBatch
  rw [if_neg hne, hfile]
  rcases hshape with ⟨b, c, hb, hc⟩ | ⟨b, hb, hc⟩ | ⟨c, hb, hc, hlen⟩
  · by_cases hw : (w.files path).writable
    · simp only [hb, hc, hw, if_true]
      exact ⟨_, rfl, (hoff _).recomputeHunks diffLines hinj _ _⟩
    · simp only [hb, hc, hw, Bool.false_eq_true, if_false]
      exact ⟨_, rfl⟩
  · by_cases hw : (w.files path).writable
    · simp only [hb, hc, hw, if_true]
      refine ⟨_, rfl, (hoff _).indexed fun st' hst' => ?_⟩
      rw [hafter _ st' hst']
      simp [Patchable, PatchableWith, hb]
    · simp only [hb, hc, hw, Bool.false_eq_true, if_false]
      exact ⟨_, rfl⟩
  · by_cases hw : (w.files path).writable
    · simp only [hb, hc, hw, if_true]
      refine ⟨_, rfl, (hoff _).indexed fun st' hst' => ?_⟩
      rw [hafter _ st' hst', Patchable]
      simp only [retained_eq_nil hne hsub hlen]
      exact patchableWith_zero _ _
    · simp only [hb, hc, hw, Bool.false_eq_true, if_false]
      exact ⟨_, rfl⟩

variable (newId) in
theorem lookup_recomputeHunks_of_ne (s : Tracker HunkId) {p : PathBuf} (hp : p ≠ path)
    (newCurrent : Option FileContentState) (source : HunkSource) :
    (s.recomputeHunks diffLines newId path newCurrent source).fileStates.lookup p =
      s.fileStates.lookup p := by
  unfold Tracker.recomputeHunks
  split
  · rfl
  · exact AList.lookup_insert_ne hp

variable (newId) in
/-- An action on one file leaves the others as they are. -/
theorem lookup_applyToFile_of_ne (s : Tracker HunkId) {p : PathBuf} (hp : p ≠ path)
    (hunks : List (Hunk HunkId PathBuf)) (action : HunkAction) :
    (s.applyToFile diffLines newId w path hunks action).1.fileStates.lookup p =
      s.fileStates.lookup p := by
  have hcount : (s.countOut hunks action).fileStates.lookup p = s.fileStates.lookup p := by
    rw [(countOut_fields s hunks action).1]
  have hset : ∀ st events, (((s.countOut hunks action).setFile path st).sendEvents
      events).fileStates.lookup p = s.fileStates.lookup p :=
    fun st events => ((s.countOut hunks action).lookup_setFile_of_ne path st hp).trans hcount
  unfold Tracker.applyToFile
  cases action with
  | accept =>
    simp only [Tracker.acceptHunksBatch]
    split
    · exact hcount
    · split
      · exact hcount
      · split
        · exact hset _ _
        · rw [lookup_recomputeHunks_of_ne diffLines newId _ hp]
          exact hset _ _
  | reject =>
    simp only [Tracker.rejectHunksBatch]
    split
    · exact hcount
    · split
      · exact hcount
      · split
        · split
          · exact hset _ _
          · exact hcount
        · split
          · exact hset _ _
          · exact hcount
        · split
          · rw [lookup_recomputeHunks_of_ne diffLines newId _ hp]
            exact hset _ _
          · exact hcount
        · exact hcount

/-- The first file of a rejection that cannot be written, if any, has no agent edits among
the hunks to reject. -/
def RejectSafe (files : List (PathBuf × List (Hunk HunkId PathBuf))) : Prop :=
  ∀ f, files.find? (fun f => !(w.files f.1).writable) = some f →
    ∀ h ∈ f.2, h.source.isAgentEdit = false

/-- The files of a batch: each once, with some of its own hunks. -/
structure Batch (s : Tracker HunkId) (files : List (PathBuf × List (Hunk HunkId PathBuf))) :
    Prop where
  nodup : (files.map Prod.fst).Nodup
  ne_nil : ∀ f ∈ files, f.2 ≠ []
  sub : ∀ f ∈ files, f.2 ⊆ s.hunksAt f.1

omit [DecidableEq HunkId] in
theorem promptIndex_of_not_agentEdit {h : Hunk HunkId PathBuf}
    (hs : h.source.isAgentEdit = false) : h.promptIndex = none := by
  unfold Hunk.promptIndex
  cases hsrc : h.source with
  | agentEdit p => simp [hsrc, HunkSource.isAgentEdit] at hs
  | externalEditOnAgentFile => rfl
  | external => rfl

theorem Indexed.countOut_external (h : Indexed newId s)
    (hext : ∀ x ∈ hunks, x.source.isAgentEdit = false) (action : HunkAction) :
    Indexed newId (s.countOut hunks action) := by
  obtain ⟨hfiles, hindex, hnext⟩ := countOut_fields s hunks action
  rw [unlist_of_no_key fun x hx => promptIndex_of_not_agentEdit (hext x hx)] at hindex
  have hat : (s.countOut hunks action).hunksAt = s.hunksAt :=
    funext fun p => hunksAt_congr (by rw [hfiles])
  exact
    { consistent := by rw [hat, hindex]; exact h.consistent
      live_drawn := by rw [hat, hnext]; exact h.live_drawn
      index_drawn := by rw [hindex, hnext]; exact h.index_drawn
      patchable := by rw [hfiles]; exact h.patchable }

theorem applyActionBatch_ok {action : HunkAction} {s' : Tracker HunkId}
    (h : s.applyToFile diffLines newId w path hunks action = (s', .ok ()))
    (files : List (PathBuf × List (Hunk HunkId PathBuf))) :
    (s.applyActionBatch diffLines newId w action ((path, hunks) :: files)).1 =
      (s'.applyActionBatch diffLines newId w action files).1 := by
  rw [Tracker.applyActionBatch, h]
  simp only
  split
  · rename_i heq
    rw [heq]
  · rename_i heq
    rw [heq]

theorem applyActionBatch_error {action : HunkAction} {s' : Tracker HunkId}
    {e : HunkActionError HunkId}
    (h : s.applyToFile diffLines newId w path hunks action = (s', .error e))
    (files : List (PathBuf × List (Hunk HunkId PathBuf))) :
    (s.applyActionBatch diffLines newId w action ((path, hunks) :: files)).1 = s' := by
  rw [Tracker.applyActionBatch, h]

theorem Indexed.applyActionBatch (hinj : Function.Injective newId) (action : HunkAction)
    {files : List (PathBuf × List (Hunk HunkId PathBuf))} (h : Indexed newId s)
    (hb : Batch s files) (hsafe : action = .reject → RejectSafe w files) :
    Indexed newId (s.applyActionBatch diffLines newId w action files).1 := by
  induction files generalizing s with
  | nil => exact h
  | cons f files ih =>
    obtain ⟨path, hunks⟩ := f
    have hne := hb.ne_nil _ (List.mem_cons_self ..)
    have hsub := hb.sub _ (List.mem_cons_self ..)
    have hnd := List.nodup_cons.mp hb.nodup
    have htail : ∀ s' : Tracker HunkId,
        (∀ p, p ≠ path → s'.fileStates.lookup p = s.fileStates.lookup p) → Batch s' files := by
      intro s' hframe
      refine ⟨hnd.2, fun f hf => hb.ne_nil f (List.mem_cons_of_mem _ hf), fun f hf => ?_⟩
      have hp : f.1 ≠ path := fun hp => hnd.1 (List.mem_map.mpr ⟨f, hf, hp⟩)
      rw [hunksAt_congr (hframe f.1 hp)]
      exact hb.sub f (List.mem_cons_of_mem _ hf)
    have hframe : ∀ p, p ≠ path → (s.applyToFile diffLines newId w path hunks
        action).1.fileStates.lookup p = s.fileStates.lookup p :=
      fun p hp => lookup_applyToFile_of_ne diffLines newId w s hp hunks action
    cases action with
    | accept =>
      have hok : s.applyToFile diffLines newId w path hunks .accept =
          ((s.countOut hunks .accept).acceptHunksBatch diffLines newId path hunks, .ok ()) := rfl
      rw [applyActionBatch_ok diffLines w hok]
      rw [hok] at hframe
      exact ih (h.acceptHunksBatch diffLines hinj hne hsub) (htail _ hframe) (by simp)
    | reject =>
      have hr := h.rejectHunksBatch diffLines w hinj hne hsub
      have hsafe := hsafe rfl
      by_cases hw : (w.files path).writable
      · rw [if_pos hw] at hr
        obtain ⟨s', hs', hi⟩ := hr
        have hok : s.applyToFile diffLines newId w path hunks .reject = (s', .ok ()) := hs'
        rw [applyActionBatch_ok diffLines w hok]
        rw [hok] at hframe
        apply ih hi (htail _ hframe)
        intro _ f hf
        exact hsafe f (by simpa [List.find?_cons, hw] using hf)
      · -- the batch stops here, with the hunks counted out
        rw [if_neg hw] at hr
        obtain ⟨e, he⟩ := hr
        have herr : s.applyToFile diffLines newId w path hunks .reject =
            (s.countOut hunks .reject, .error e) := he
        rw [applyActionBatch_error diffLines w herr]
        apply h.countOut_external
        exact hsafe (path, hunks) (by simp [hw])

/-! ## Actions as batches -/

theorem filter_eq_retained (hs : List (Hunk HunkId PathBuf)) (hunk : Hunk HunkId PathBuf) :
    (hs.filter fun h => h.id != hunk.id) = retained hs [hunk] := by
  unfold retained
  congr 1
  funext h
  by_cases hid : h.id = hunk.id
  · simp [hid]
  · simp [hid]

variable (newId) in
theorem acceptHunk_eq_batch (s : Tracker HunkId) (path : PathBuf) (hunk : Hunk HunkId PathBuf) :
    s.acceptHunk diffLines newId path hunk =
      s.acceptHunksBatch diffLines newId path [hunk] := by
  unfold Tracker.acceptHunk Tracker.acceptHunksBatch
  rw [if_neg (by simp)]
  cases s.fileStates.lookup path with
  | none => rfl
  | some st =>
    obtain ⟨baseline, current, hs, agent, accepted⟩ := st
    cases baseline <;> simp [filter_eq_retained, removedEvents, acceptPatches]

variable (newId) in
theorem rejectHunk_eq_batch (s : Tracker HunkId) (path : PathBuf) (hunk : Hunk HunkId PathBuf) :
    s.rejectHunk diffLines newId w path hunk =
      s.rejectHunksBatch diffLines newId w path [hunk] := by
  unfold Tracker.rejectHunk Tracker.rejectHunksBatch
  rw [if_neg (by simp)]
  cases s.fileStates.lookup path with
  | none => rfl
  | some st =>
    obtain ⟨baseline, current, hs, agent, accepted⟩ := st
    cases current <;> cases baseline <;>
      simp [rejectAction, rejected, filter_eq_retained, removedEvents, rejectPatches]

variable (newId) in
/-- An action on a hunk is a batch of one file and one hunk. -/
theorem applyHunkAction_eq_batch {hunkId : HunkId} {hunk : Hunk HunkId PathBuf}
    (hf : s.findHunk w hunkId = some (path, hunk)) (action : HunkAction) :
    (s.applyHunkAction diffLines newId w hunkId action).1 =
      (s.applyActionBatch diffLines newId w action [(path, [hunk])]).1 := by
  have hone : (s.applyHunkAction diffLines newId w hunkId action) =
      s.applyToFile diffLines newId w path [hunk] action := by
    unfold Tracker.applyHunkAction Tracker.applyToFile
    rw [hf]
    cases action with
    | accept => simp only [acceptHunk_eq_batch]; rfl
    | reject => simp only [rejectHunk_eq_batch]; rfl
  rw [hone]
  rcases ha : s.applyToFile diffLines newId w path [hunk] action with ⟨s', e | _⟩
  · rw [applyActionBatch_error diffLines w ha]
  · rw [applyActionBatch_ok diffLines w ha]
    rfl

omit [DecidableEq HunkId] in
theorem batch_filesWith (s : Tracker HunkId) (p : Hunk HunkId PathBuf → Bool) :
    Batch s (s.filesWith w p) where
  nodup := by
    have hkeys : (w.order s.fileStates.keys).Nodup :=
      (w.order_perm _).nodup_iff.mpr s.fileStates.keys_nodup
    refine List.Nodup.sublist (List.filter_sublist.map _) ?_
    rw [List.map_map]
    show ((w.order s.fileStates.keys).map id).Nodup
    rwa [List.map_id]
  ne_nil := by
    intro f hf
    simpa using (List.mem_filter.mp hf).2
  sub := by
    intro f hf
    obtain ⟨path, -, rfl⟩ := List.mem_map.mp (List.mem_filter.mp hf).1
    exact List.filter_sublist.subset

theorem mem_of_findHunk {hunkId : HunkId} {hunk : Hunk HunkId PathBuf}
    (hf : s.findHunk w hunkId = some (path, hunk)) : hunk ∈ s.hunksAt path := by
  obtain ⟨p, -, hp⟩ := List.exists_of_findSome?_eq_some hf
  obtain ⟨h, hh, heq⟩ := Option.map_eq_some_iff.mp hp
  rw [Prod.mk.injEq] at heq
  rw [← heq.1, ← heq.2]
  exact List.mem_of_find?_eq_some hh

end Actions

end Tracker

/-! ## Runs -/

section Runs

variable {HunkId : Type*} [DecidableEq HunkId]

/-- The hunks a command acts on, by file. -/
def Tracker.actedOn (s : Tracker HunkId) (c : Command HunkId × World) :
    List (PathBuf × List (Hunk HunkId PathBuf)) :=
  match c.1 with
  | .hunkAction hunkId _ =>
    match s.findHunk c.2 hunkId with
    | none => []
    | some (path, hunk) => [(path, [hunk])]
  | .fileAction path _ => [(path, s.hunksAt path)]
  | .allAction _ => s.filesWith c.2 fun _ => true
  | .turnAction promptIndex _ => s.filesWith c.2 fun h => h.promptIndex == some promptIndex
  | _ => []

def Command.action : Command HunkId → Option HunkAction
  | .hunkAction _ action | .fileAction _ action | .allAction action | .turnAction _ action =>
    some action
  | _ => none

/-- A command that is not a rejection, or one whose first failing file, if any, has no agent
edits to reject. -/
def Tracker.SafeStep (s : Tracker HunkId) (c : Command HunkId × World) : Prop :=
  c.1.action = some .reject → Tracker.RejectSafe c.2 (s.actedOn c)

variable (diffLines : Str → Str → Option (List Change)) {newId : ℕ → HunkId}

theorem Tracker.Indexed.step (hinj : Function.Injective newId) (s : Tracker HunkId)
    (c : Command HunkId × World) (h : Indexed newId s) (hsafe : s.SafeStep c) :
    Indexed newId (s.step diffLines newId c) := by
  obtain ⟨c, w⟩ := c
  cases c with
  | recordAgentWrite path content promptIndex previousContent =>
    exact h.recordAgentWrite diffLines hinj w path content promptIndex previousContent
  | handleFileChange path => exact h.processFileChange diffLines hinj w path none
  | handleFileChangesBatch paths => exact h.processBatch diffLines hinj w _ paths
  | handleFileDeleted path => exact h.handleFileDeleted diffLines hinj w path
  | refreshGitDirtyCache => exact h.refreshGitDirtyCache diffLines hinj w
  | resetBaseline path => exact h.resetBaseline path
  | refreshAllBaselinesExcept skip => exact h.refreshAllBaselinesExcept diffLines hinj w skip
  | setMode mode => exact h.setMode diffLines hinj w mode
  | hunkAction hunkId action =>
    show Indexed newId (s.applyHunkAction diffLines newId w hunkId action).1
    cases hf : s.findHunk w hunkId with
    | none =>
      rw [applyHunkAction, hf]
      exact h
    | some f =>
      obtain ⟨path, hunk⟩ := f
      rw [applyHunkAction_eq_batch diffLines newId w hf]
      have hb : Batch s [(path, [hunk])] :=
        { nodup := by simp
          ne_nil := by simp
          sub := by simpa using mem_of_findHunk w hf }
      refine h.applyActionBatch diffLines w hinj action hb fun ha => ?_
      have := hsafe (by rw [← ha]; rfl)
      simpa only [actedOn, hf] using this
  | fileAction path action =>
    show Indexed newId (s.applyFileAction diffLines newId w path action).1
    unfold applyFileAction
    split
    · exact h
    · have hb : Batch s [(path, s.hunksAt path)] :=
        { nodup := by simp
          ne_nil := by simpa
          sub := by simp }
      exact h.applyActionBatch diffLines w hinj action hb fun ha => hsafe (by rw [← ha]; rfl)
  | allAction action =>
    exact h.applyActionBatch diffLines w hinj action (batch_filesWith w s _)
      fun ha => hsafe (by rw [← ha]; rfl)
  | turnAction promptIndex action =>
    exact h.applyActionBatch diffLines w hinj action (batch_filesWith w s _)
      fun ha => hsafe (by rw [← ha]; rfl)
  | resetStats => exact ⟨h.consistent, h.live_drawn, h.index_drawn, h.patchable⟩

omit [DecidableEq HunkId] in
theorem promptIndex_eq_some_iff {h : Hunk HunkId PathBuf} {p : ℕ} :
    h.promptIndex = some p ↔ h.source = .agentEdit p := by
  unfold Hunk.promptIndex
  cases h.source <;> simp [HunkSource.promptIndex]

/-- In every state of a run whose rejections do not fail on agent edits, a turn's hunks are
the live agent edits of that turn. -/
theorem getHunksForTurn_perm (hinj : Function.Injective newId) (workingDir : PathBuf)
    (mode : TrackingMode) (commands : List (Command HunkId × World))
    (hsafe : Meets (Tracker.step diffLines newId) Tracker.SafeStep (Tracker.new workingDir mode)
      commands) (p : ℕ) :
    let s := run (Tracker.step diffLines newId) (Tracker.new workingDir mode) commands
    (s.getHunksForTurn p).Perm
      (s.liveHunks.filter fun h => decide (h.source = .agentEdit p)) := by
  intro s
  have hs : Tracker.Indexed newId s :=
    invariant_of_meets (fun s c h hc => h.step diffLines hinj s c hc)
      (Tracker.indexed_new workingDir mode) hsafe
  have h := hs.consistent.lookup_perm s.fileStates.keys_nodup p
  have hfilter : (s.liveHunks.filter fun h => h.promptIndex == some p) =
      s.liveHunks.filter fun h => decide (h.source = .agentEdit p) := by
    congr 1
    funext h
    rw [Bool.eq_iff_iff, beq_iff_eq, decide_eq_true_iff]
    exact promptIndex_eq_some_iff
  rw [← hfilter]
  exact h

end Runs

/-- A world in which every file has the same answers and git says nothing. -/
def plainWorld (answers : FileAnswers) : World where
  files _ := answers
  batchHead _ := none
  contents _ := .missing
  status := none
  syncState := none
  order l := l
  order_perm _ := List.Perm.refl _

def notePath : PathBuf := ⟨true, ["w".toList, "note".toList]⟩

def workDir : PathBuf := ⟨true, ["w".toList]⟩

/-- The agent creates a file in its first turn. -/
def createNote : Command ℕ × World :=
  (.recordAgentWrite notePath "new\n".toList 0 none, plainWorld {})

/-- The file is created and then rejected, which goes through, and the agent writes it again
in its next turn. -/
theorem rejected_note_in_turn :
    let commands : List (Command ℕ × World) :=
      [createNote, (.hunkAction 0 .reject, plainWorld {}),
        (.recordAgentWrite notePath "other\n".toList 1 none, plainWorld {})]
    let s := run (Tracker.step (fun _ _ => none) id) (Tracker.new workDir .agentOnly) commands
    (s.getHunksForTurn 1).map Hunk.id = [1] ∧
    (s.getHunksForTurn 1).Perm
      (s.liveHunks.filter fun h => decide (h.source = .agentEdit 1)) := by
  intro commands s
  refine ⟨by decide, getHunksForTurn_perm (fun _ _ => none) Function.injective_id workDir
    .agentOnly commands ⟨?_, ?_, ?_, trivial⟩ 1⟩
  · exact fun h => absurd h (by decide)
  · intro _ f hf
    have := List.find?_some hf
    simp [plainWorld] at this
  · exact fun h => absurd h (by decide)

/-- The rejection of a created file fails to delete it: its hunk stays, and its turn has lost
it. -/
theorem failed_reject_leaves_turn :
    let s := run (Tracker.step (fun _ _ => none) id) (Tracker.new workDir .agentOnly)
      [createNote, (.hunkAction 0 .reject, plainWorld { writable := false })]
    s.getHunksForTurn 0 = [] ∧ s.liveHunks.map Hunk.source = [.agentEdit 0] ∧
    ¬(s.getHunksForTurn 0).Perm
      (s.liveHunks.filter fun h => decide (h.source = .agentEdit 0)) := by
  intro s
  have hturn : s.getHunksForTurn 0 = [] := by decide
  have hlive : s.liveHunks.map Hunk.source = [.agentEdit 0] := by decide
  refine ⟨hturn, hlive, fun hperm => ?_⟩
  have hlen := hperm.length_eq
  rw [hturn] at hlen
  revert hlen
  decide

end GrokBuild.HunkTracker
