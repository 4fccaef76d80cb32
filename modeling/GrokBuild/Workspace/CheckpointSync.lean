import GrokBuild.Workspace.CheckpointFaults

/-!
# Cache and disk of the checkpoint store stay in step

A run keeps a log of the removes and reads that failed. As long as a remount that goes
through neither skips the blob of a cached checkpoint nor finds a blob in the destination
that the source lacks, the cache is backed by the current directory, and a blob that is not
cached is one of the log.
-/

namespace GrokBuild.Workspace.CheckpointStore

open GrokBuild.FiniteMap GrokBuild.StepRun

variable {α : Type*}

/-- A failed `remove_file`, a failed read of a file, and a directory entry that could not be
read, by itself or because its directory did not open. -/
inductive Failure where
  | remove (idx : ℕ)
  | read (idx : ℕ)
  | entry (idx : ℕ)
deriving DecidableEq

instance (s : CheckpointStore α) (checkpoint : RewindCheckpoint α) (io : PersistIo) :
    Decidable (s.Writes checkpoint io) :=
  inferInstanceAs (Decidable (_ ∧ _ ∧ _ ∧ _))

def failedRemoves (removeOk : FileName → Bool) (removed : List ℕ) : List Failure :=
  (removed.filter fun idx => !removeOk (.checkpoint idx)).map .remove

def failedEntries (io : ReadDir) (folder : Folder α) : List Failure :=
  ((io.unread folder).filterMap parseCheckpointIndex).map .entry

def failures (s : CheckpointStore α) : Op α → List Failure
  | .persist checkpoint io =>
    if s.Writes checkpoint io then failedRemoves io.removeOk (s.evictedBy checkpoint) else []
  | .truncateFrom target io removeOk =>
    failedEntries io s.folder ++
      if io.opens then
        failedRemoves removeOk
          (((io.scan s.folder).filter (isTruncated target)).filterMap parseCheckpointIndex)
      else []
  | .remount _ => []
  | .restart io =>
    failedEntries io.readDir s.folder ++
      if io.readDir.opens then
        (((io.readDir.scan s.folder).filter fun name => !io.readOk name).filterMap
            parseCheckpointIndex).map .read ++
          failedRemoves io.removeOk (s.rehydrateEvicts io)
      else []

theorem mem_failedRemoves {removeOk : FileName → Bool} {removed : List ℕ} {idx : ℕ}
    (h : idx ∈ removed) (hok : removeOk (.checkpoint idx) = false) :
    Failure.remove idx ∈ failedRemoves removeOk removed := by
  simp [failedRemoves, h, hok]

theorem mem_filterMap_parse {names : List FileName} {idx : ℕ} (h : .checkpoint idx ∈ names) :
    idx ∈ names.filterMap parseCheckpointIndex :=
  List.mem_filterMap.mpr ⟨_, h, rfl⟩

theorem mem_failedEntries {io : ReadDir} {s : CheckpointStore α} {idx : ℕ}
    (hblob : s.blob idx ≠ none) (h : io.opens = false ∨ io.entryOk (.checkpoint idx) = false) :
    Failure.entry idx ∈ failedEntries io s.folder := by
  have hmem : FileName.checkpoint idx ∈ s.folder :=
    AList.lookup_isSome.mp (Option.isSome_iff_ne_none.mpr hblob)
  exact List.mem_map_of_mem (mem_filterMap_parse (ReadDir.mem_unread.mpr ⟨hmem, h⟩))

/-- The `remove_file` of the blob, or a read of it or of its directory entry, has failed. -/
def Excused (log : List Failure) (idx : ℕ) : Prop :=
  .remove idx ∈ log ∨ .read idx ∈ log ∨ .entry idx ∈ log

theorem Excused.append {log : List Failure} {idx : ℕ} (h : Excused log idx)
    (more : List Failure) : Excused (log ++ more) idx := by
  unfold Excused at *
  simp only [List.mem_append]
  tauto

theorem Excused.of_append {more : List Failure} {idx : ℕ} (h : Excused more idx)
    (log : List Failure) : Excused (log ++ more) idx := by
  unfold Excused at *
  simp only [List.mem_append]
  tauto

/-- Cache and disk are in step. -/
structure InStep (cap : ℕ) (s : CheckpointStore α) (log : List Failure) : Prop where
  cap_eq : s.cap = cap
  card_le : s.cache.keys.card ≤ cap
  backed : ∀ idx checkpoint, s.cache.lookup idx = some checkpoint →
    s.blob idx = some (.whole checkpoint)
  excused : ∀ idx, s.blob idx ≠ none → s.cache.lookup idx = none → Excused log idx

/-- A remount that goes through reads the entries of all cached checkpoints and finds in the
destination no blob that the source lacks. -/
def CleanRemount (s : CheckpointStore α) : Op α → Prop
  | .remount io =>
    s.remountedDir = none → s.storeDir ≠ .destination →
      (∀ src, s.disk s.storeDir = some src → GoesThrough io src) →
      (∀ idx ∈ s.cache, io.readDir.entryOk (.checkpoint idx) = true) ∧
        ∀ idx, s.destBlob idx ≠ none → s.blob idx ≠ none
  | _ => True

namespace InStep

variable {s : CheckpointStore α} {log : List Failure} {cap : ℕ}

theorem of_unchanged {s' : CheckpointStore α} (h : InStep cap s log) (hu : Unchanged s s')
    (more : List Failure) : InStep cap s' (log ++ more) := by
  refine ⟨hu.cap.trans h.cap_eq, hu.cache ▸ h.card_le, ?_, ?_⟩
  · intro idx checkpoint hc
    rw [hu.blob]
    exact h.backed idx checkpoint (hu.cache ▸ hc)
  · intro idx hblob hc
    rw [hu.blob] at hblob
    exact (h.excused idx hblob (hu.cache ▸ hc)).append more

theorem persist (h : InStep cap s log) (checkpoint : RewindCheckpoint α) (io : PersistIo) :
    InStep cap (s.persist checkpoint io) (log ++ s.failures (.persist checkpoint io)) := by
  by_cases hw : s.Writes checkpoint io
  · obtain ⟨hcap, hcache, hblob⟩ := persist_of_writes hw
    have hlookup (idx : ℕ) : (s.persist checkpoint io).cache.lookup idx =
        if idx ∈ s.evictedBy checkpoint then none
        else if idx = checkpoint.promptIndex then some checkpoint else s.cache.lookup idx := by
      rw [hcache, trimTo, lookup_evictBeyond, lookup_insert_eq]
      rfl
    refine ⟨hcap.trans h.cap_eq, ?_, ?_, ?_⟩
    · rw [hcache, trimTo, ← h.cap_eq]
      exact card_evictBeyond le_rfl
    · intro idx c hc
      rw [hlookup] at hc
      rw [hblob]
      split at hc
      · cases hc
      · rename_i hev
        rw [if_neg (fun hand => hev hand.1)]
        split at hc
        · rename_i hidx
          rw [if_pos hidx, Option.some.inj hc]
        · rename_i hidx
          rw [if_neg hidx]
          exact h.backed idx c hc
    · intro idx hb hc
      rw [hblob] at hb
      rw [hlookup] at hc
      by_cases hev : idx ∈ s.evictedBy checkpoint
      · -- evicted and still on disk: its removal failed
        have hok : io.removeOk (.checkpoint idx) = false := by
          by_contra hok
          exact hb (if_pos ⟨hev, by simpa using hok⟩)
        apply Excused.of_append
        left
        rw [failures, if_pos hw]
        exact mem_failedRemoves hev hok
      · rw [if_neg hev] at hc
        rw [if_neg (fun hand => hev hand.1)] at hb
        by_cases hidx : idx = checkpoint.promptIndex
        · rw [if_pos hidx] at hc
          cases hc
        · rw [if_neg hidx] at hb hc
          exact (h.excused idx hb hc).append _
  · exact h.of_unchanged (persist_of_not_writes hw) _

theorem truncateFrom (h : InStep cap s log) (target : ℕ) (io : ReadDir)
    (removeOk : FileName → Bool) :
    InStep cap (s.truncateFrom target io removeOk)
      (log ++ s.failures (.truncateFrom target io removeOk)) := by
  rcases truncateFrom_cases s target io removeOk with ⟨-, -, hsame⟩ | ⟨hcap, hcache, hblob⟩
  · rw [hsame]
    exact h.of_unchanged ⟨rfl, rfl, fun _ => rfl⟩ _
  · refine ⟨hcap.trans h.cap_eq, ?_, ?_, ?_⟩
    · rw [hcache, keys_retain]
      exact (Finset.card_filter_le _ _).trans h.card_le
    · intro idx c hc
      rw [hcache, lookup_retain] at hc
      split at hc
      · rename_i hlt
        have hlt : idx < target := by simpa using hlt
        rw [hblob, if_neg (by omega)]
        exact h.backed idx c hc
      · cases hc
    · intro idx hb hc
      rw [hblob] at hb
      rw [hcache, lookup_retain] at hc
      by_cases hlt : idx < target
      · rw [if_pos (by simpa using hlt)] at hc
        rw [if_neg (by omega)] at hb
        exact (h.excused idx hb hc).append _
      · -- a blob from the target on survived: it was not read, or not removed
        have hb' : s.blob idx ≠ none := by
          intro hnone
          rw [hnone, ite_self] at hb
          exact hb rfl
        apply Excused.of_append
        rw [failures]
        by_cases hread : io.opens = false ∨ io.entryOk (.checkpoint idx) = false
        · right; right
          exact List.mem_append_left _ (mem_failedEntries hb' hread)
        · left
          simp only [not_or, Bool.not_eq_false] at hread
          have hok : removeOk (.checkpoint idx) = false := by
            by_contra hok
            exact hb (if_pos ⟨by omega, hread.2, by simpa using hok⟩)
          have hscan : FileName.checkpoint idx ∈ (io.scan s.folder).filter (isTruncated target) := by
            rw [List.mem_filter, ReadDir.mem_scan]
            refine ⟨⟨?_, hread.2⟩, by simpa [isTruncated, parseCheckpointIndex] using hlt⟩
            exact AList.lookup_isSome.mp (Option.isSome_iff_ne_none.mpr hb')
          rw [if_pos hread.1]
          exact List.mem_append_right _ (mem_failedRemoves (mem_filterMap_parse hscan) hok)

theorem remount (h : InStep cap s log) (io : RemountIo) (hclean : s.CleanRemount (.remount io)) :
    InStep cap (s.remount io).1 (log ++ s.failures (.remount io)) := by
  rcases remount_cases s io with hu | ⟨hre, hdir, hthrough, hcap, hcache, hblob⟩
  · exact h.of_unchanged hu _
  · obtain ⟨hentries, hdest⟩ := hclean hre hdir hthrough
    refine ⟨hcap.trans h.cap_eq, hcache ▸ h.card_le, ?_, ?_⟩
    · intro idx c hc
      rw [hcache] at hc
      have hb := h.backed idx c hc
      have hentry := hentries idx (Finmap.mem_of_lookup_eq_some hc)
      rw [hblob, hb, if_pos ⟨rfl, hentry⟩]
    · intro idx hb hc
      rw [hcache] at hc
      rw [hblob] at hb
      -- the destination's blob is the source's, or stands for one that the source has
      have hsrc : s.blob idx ≠ none := by
        split at hb
        · exact hb
        · exact hdest idx hb
      exact (h.excused idx hsrc hc).append _

/-- A blob that a rehydrate does not load was not read, or was torn and so not cached
before. -/
theorem excused_of_readWhole (h : InStep cap s log) {io : RehydrateIo}
    (hopen : io.readDir.opens = true) {idx : ℕ} (hb : s.blob idx ≠ none)
    (hnone : readWhole io s.folder idx = none) :
    Excused (log ++ s.failures (.restart io)) idx := by
  have hmem : FileName.checkpoint idx ∈ s.folder :=
    AList.lookup_isSome.mp (Option.isSome_iff_ne_none.mpr hb)
  by_cases hentry : io.readDir.entryOk (.checkpoint idx) = true
  · by_cases hread : io.readOk (.checkpoint idx) = true
    · have huncached : s.cache.lookup idx = none := by
        by_contra hc
        obtain ⟨c, hc⟩ := Option.ne_none_iff_exists'.mp hc
        have hwhole := h.backed idx c hc
        rw [blob] at hwhole
        simp [readWhole, hentry, hread, hwhole] at hnone
      exact (h.excused idx hb huncached).append _
    · apply Excused.of_append
      right; left
      rw [failures, if_pos hopen]
      apply List.mem_append_right
      apply List.mem_append_left
      apply List.mem_map_of_mem
      apply mem_filterMap_parse
      rw [List.mem_filter, ReadDir.mem_scan]
      exact ⟨⟨hmem, hentry⟩, by simpa using hread⟩
  · apply Excused.of_append
    right; right
    exact List.mem_append_left _ (mem_failedEntries hb (.inr (by simpa using hentry)))

theorem restart (h : InStep cap s log) (hpos : 1 ≤ cap) (io : RehydrateIo) :
    InStep cap (s.restart io) (log ++ s.failures (.restart io)) := by
  obtain ⟨hcap, hrest⟩ := restart_cases s io
  have hcap : (s.restart io).cap = cap := by rw [hcap, h.cap_eq, max_eq_left hpos]
  rcases hrest with ⟨hcache, hblob, hwhy⟩ | ⟨hopen, hcache, hblob⟩
  · refine ⟨hcap, ?_, ?_, ?_⟩
    · rw [hcache]
      simp
    · intro idx c hc
      rw [hcache] at hc
      simp at hc
    · intro idx hb _
      rw [hblob] at hb
      rcases hwhy with hclosed | hnone
      · apply Excused.of_append
        right; right
        exact List.mem_append_left _ (mem_failedEntries hb (.inl hclosed))
      · exact absurd (hnone idx) hb
  · have hlookup (idx : ℕ) : (s.restart io).cache.lookup idx =
        if idx ∈ s.rehydrateEvicts io then none else readWhole io s.folder idx := by
      rw [hcache, trimTo, lookup_evictBeyond, (lookup_rehydrateEntries io s.folder idx).2]
      rfl
    refine ⟨hcap, ?_, ?_, ?_⟩
    · rw [hcache, trimTo, ← h.cap_eq]
      exact card_evictBeyond le_rfl
    · intro idx c hc
      rw [hlookup] at hc
      split at hc
      · cases hc
      · rename_i hev
        rw [hblob, if_neg (fun hand => hev hand.1)]
        exact blob_of_readWhole hc
    · intro idx hb hc
      rw [hblob] at hb
      rw [hlookup] at hc
      have hb' : s.blob idx ≠ none := by
        intro hnone
        rw [hnone, ite_self] at hb
        exact hb rfl
      by_cases hev : idx ∈ s.rehydrateEvicts io
      · have hok : io.removeOk (.checkpoint idx) = false := by
          by_contra hok
          exact hb (if_pos ⟨hev, by simpa using hok⟩)
        apply Excused.of_append
        left
        rw [failures, if_pos hopen]
        exact List.mem_append_right _ (List.mem_append_right _ (mem_failedRemoves hev hok))
      · rw [if_neg hev] at hc
        exact excused_of_readWhole h hopen hb' hc

/-- What one operation does to the store keeps cache and disk in step. -/
theorem step (h : InStep cap s log) (hpos : 1 ≤ cap) (op : Op α) (hclean : s.CleanRemount op) :
    InStep cap (s.step op) (log ++ s.failures op) := by
  cases op with
  | persist checkpoint io => exact h.persist checkpoint io
  | truncateFrom target io removeOk => exact h.truncateFrom target io removeOk
  | remount io => exact h.remount io hclean
  | restart io => exact h.restart hpos io

end InStep

/-! ## Persisting within the window -/

/-- The checkpoint that was written survives the eviction: were it the one evicted, every
other cached checkpoint would be newer and it would have been below the window. -/
theorem promptIndex_not_evicted {s : CheckpointStore α} {checkpoint : RewindCheckpoint α}
    {io : PersistIo} (hw : s.Writes checkpoint io) (hcard : s.cache.keys.card ≤ s.cap)
    (hpos : 1 ≤ s.cap) : checkpoint.promptIndex ∉ s.evictedBy checkpoint := by
  intro hev
  set inserted := s.cache.insert checkpoint.promptIndex checkpoint with hins
  have hkeys : inserted.keys = insert checkpoint.promptIndex s.cache.keys := keys_insert _ _ _
  have hlen : (s.evictedBy checkpoint).length = inserted.keys.card - s.cap :=
    length_evicted le_rfl
  have hpos' : 0 < (s.evictedBy checkpoint).length := List.length_pos_of_mem hev
  have hnew : checkpoint.promptIndex ∉ s.cache.keys := by
    intro hmem
    rw [hkeys, Finset.insert_eq_of_mem hmem] at hlen
    omega
  have hcard' : inserted.keys.card = s.cache.keys.card + 1 := by
    rw [hkeys, Finset.card_insert_of_notMem hnew]
  have hone : s.evictedBy checkpoint = [checkpoint.promptIndex] := by
    obtain ⟨idx, hidx⟩ := List.length_eq_one_iff.mp (show (s.evictedBy checkpoint).length = 1 by omega)
    rw [hidx, List.mem_singleton] at hev
    rw [hidx, hev]
  have hne : s.cache.keys.Nonempty := Finset.card_pos.mp (by omega)
  have hbelow : checkpoint.promptIndex < s.cache.keys.min' hne := by
    have hmin := Finset.min'_mem _ hne
    apply evicted_lt hev
    rw [Finmap.mem_keys, ← Finmap.lookup_isSome, lookup_evictBeyond]
    change Option.isSome (if s.cache.keys.min' hne ∈ s.evictedBy checkpoint then none else _) = true
    have hkept : s.cache.keys.min' hne ∉ s.evictedBy checkpoint := by
      rw [hone, List.mem_singleton]
      exact fun he => hnew (he ▸ hmin)
    rw [if_neg hkept, Finmap.lookup_isSome, ← Finmap.mem_keys, hkeys]
    exact Finset.mem_insert_of_mem hmin
  have hwindow := hw.1
  rw [belowWindow, dif_pos hne] at hwindow
  rw [Finmap.mem_keys] at hnew
  simp only [hnew, hbelow, not_false_eq_true, decide_true, Bool.and_true, decide_eq_false_iff_not,
    not_le] at hwindow
  omega

theorem persist_writes_spec {s : CheckpointStore α} {checkpoint : RewindCheckpoint α}
    {io : PersistIo} (hw : s.Writes checkpoint io) (hcard : s.cache.keys.card ≤ s.cap)
    (hpos : 1 ≤ s.cap) :
    (s.persist checkpoint io).cache.lookup checkpoint.promptIndex = some checkpoint ∧
      ∀ idx ∈ s.cache, idx ∉ (s.persist checkpoint io).cache → idx < checkpoint.promptIndex := by
  have hkept := promptIndex_not_evicted hw hcard hpos
  have hcache := (persist_of_writes hw).2.1
  have hlookup : (s.persist checkpoint io).cache.lookup checkpoint.promptIndex = some checkpoint := by
    rw [hcache, trimTo, lookup_evictBeyond]
    change (if checkpoint.promptIndex ∈ s.evictedBy checkpoint then none else _) = _
    rw [if_neg hkept, Finmap.lookup_insert]
  refine ⟨hlookup, fun idx hidx hgone => ?_⟩
  have hev : idx ∈ s.evictedBy checkpoint := by
    by_contra hev
    apply hgone
    rw [← Finmap.lookup_isSome, hcache, trimTo, lookup_evictBeyond]
    change Option.isSome (if idx ∈ s.evictedBy checkpoint then none else _) = true
    rw [if_neg hev, Finmap.lookup_isSome, Finmap.mem_insert]
    exact .inr hidx
  apply evicted_lt hev
  change checkpoint.promptIndex ∈ (trimTo _ _).2.keys
  rw [← hcache, Finmap.mem_keys]
  exact Finmap.mem_of_lookup_eq_some hlookup

/-! ## Truncated checkpoints stay away -/

/-- Without a persist of its index, a blob that is gone stays gone. -/
theorem blob_step_eq_none {s : CheckpointStore α} {op : Op α} {idx : ℕ} (hnone : s.blob idx = none)
    (hclean : s.CleanRemount op)
    (hop : ∀ checkpoint io, op = .persist checkpoint io → checkpoint.promptIndex ≠ idx) :
    (s.step op).blob idx = none := by
  cases op with
  | persist checkpoint io =>
    by_cases hw : s.Writes checkpoint io
    · have hne : idx ≠ checkpoint.promptIndex := fun he => hop checkpoint io rfl he.symm
      rw [CheckpointStore.step, (persist_of_writes hw).2.2, if_neg hne, hnone, ite_self]
    · exact ((persist_of_not_writes hw).blob idx).trans hnone
  | truncateFrom target io removeOk =>
    rcases truncateFrom_cases s target io removeOk with ⟨-, -, hsame⟩ | ⟨-, -, hblob⟩
    · rw [CheckpointStore.step, hsame, hnone]
    · rw [CheckpointStore.step, hblob, hnone, ite_self]
  | remount io =>
    rcases remount_cases s io with hu | ⟨hre, hdir, hthrough, -, -, hblob⟩
    · exact (hu.blob idx).trans hnone
    · have hdest := (hclean hre hdir hthrough).2 idx
      rw [CheckpointStore.step, hblob, hnone]
      simp only [Option.isSome_none, Bool.false_eq_true, false_and, if_false]
      by_contra hne
      exact hdest hne hnone
  | restart io =>
    rcases (restart_cases s io).2 with ⟨-, hblob, -⟩ | ⟨-, -, hblob⟩
    · rw [CheckpointStore.step, hblob, hnone]
    · rw [CheckpointStore.step, hblob, hnone, ite_self]

/-- A truncation that opens the directory, reads the entry and removes the file. -/
theorem blob_truncateFrom_eq_none {s : CheckpointStore α} {target idx : ℕ} {io : ReadDir}
    {removeOk : FileName → Bool} (hidx : target ≤ idx) (hopen : io.opens = true)
    (hentry : io.entryOk (.checkpoint idx) = true) (hremove : removeOk (.checkpoint idx) = true) :
    (s.truncateFrom target io removeOk).blob idx = none := by
  rcases truncateFrom_cases s target io removeOk with ⟨-, hclosed, -⟩ | ⟨-, -, hblob⟩
  · rw [hopen] at hclosed
    cases hclosed
  · rw [hblob, if_pos ⟨hidx, hentry, hremove⟩]

/-! ## Runs -/

/-- A store and the failures of the run that led to it. -/
structure Logged (α : Type*) where
  store : CheckpointStore α
  log : List Failure

namespace Logged

def init (cap : ℕ) (present : Dir → Bool) : Logged α := ⟨.withCap cap present, []⟩

def step (l : Logged α) (op : Op α) : Logged α :=
  ⟨l.store.step op, l.log ++ l.store.failures op⟩

def Clean (l : Logged α) (op : Op α) : Prop := l.store.CleanRemount op

theorem inStep_init (cap : ℕ) (present : Dir → Bool) :
    InStep (max cap 1) (init (α := α) cap present).store (init (α := α) cap present).log := by
  have hblob (idx : ℕ) : (withCap (α := α) cap present).blob idx = none := by
    rw [blob, folder, withCap]
    cases h : present (storeDir (withCap (α := α) cap present)) <;> simp_all [withCap]
  exact ⟨rfl, by simp [init, withCap], by simp [init, withCap],
    fun idx hb _ => absurd (hblob idx) hb⟩

theorem inStep_run {l : Logged α} {cap : ℕ} {ops : List (Op α)} (h : InStep cap l.store l.log)
    (hpos : 1 ≤ cap) (hclean : Meets step Clean l ops) :
    InStep cap (run step l ops).store (run step l ops).log :=
  invariant_of_meets (P := fun l : Logged α => InStep cap l.store l.log)
    (fun _ op hl hop => hl.step hpos op hop) h hclean

theorem blob_run_eq_none {l : Logged α} {ops : List (Op α)} {idx : ℕ}
    (hnone : l.store.blob idx = none) (hclean : Meets step Clean l ops)
    (hops : ∀ checkpoint io, .persist checkpoint io ∈ ops → checkpoint.promptIndex ≠ idx) :
    (run step l ops).store.blob idx = none := by
  induction ops generalizing l with
  | nil => exact hnone
  | cons op ops ih =>
    apply ih _ hclean.2
    · exact fun checkpoint io hm => hops checkpoint io (List.mem_cons_of_mem _ hm)
    · exact blob_step_eq_none hnone hclean.1
        fun checkpoint io he => hops checkpoint io (he ▸ List.mem_cons_self)

/-- In every run whose remounts are clean: the cache stays within the cap and is backed by
the blobs of the current directory; a blob that is not cached failed to be removed or read;
a persist that writes caches its checkpoint and drops only older ones; and a restart brings
back a truncated checkpoint only if it was persisted again, its `remove_file` failed, or the
directory or its entry could not be read. -/
theorem run_inStep (cap : ℕ) (present : Dir → Bool) (ops : List (Op α))
    (hclean : Meets step Clean (init cap present) ops) :
    (run step (init cap present) ops).store.cache.keys.card ≤ max cap 1 ∧
    (∀ idx checkpoint,
      (run step (init cap present) ops).store.cache.lookup idx = some checkpoint →
        (run step (init cap present) ops).store.blob idx = some (.whole checkpoint)) ∧
    (∀ idx, (run step (init cap present) ops).store.blob idx ≠ none →
      (run step (init cap present) ops).store.cache.lookup idx = none →
        Excused (run step (init cap present) ops).log idx) ∧
    (∀ checkpoint io, (run step (init cap present) ops).store.Writes checkpoint io →
      let after := (run step (init cap present) ops).store.persist checkpoint io
      after.cache.lookup checkpoint.promptIndex = some checkpoint ∧
        ∀ idx ∈ (run step (init cap present) ops).store.cache, idx ∉ after.cache →
          idx < checkpoint.promptIndex) ∧
    ∀ before target io removeOk between rehydrate idx,
      ops = before ++ .truncateFrom target io removeOk :: (between ++ [.restart rehydrate]) →
      target ≤ idx → idx ∈ (run step (init cap present) ops).store.cache →
        (∃ checkpoint persistIo, .persist checkpoint persistIo ∈ between ∧
          checkpoint.promptIndex = idx) ∨
        removeOk (.checkpoint idx) = false ∨ io.opens = false ∨
        io.entryOk (.checkpoint idx) = false := by
  have hpos : 1 ≤ max cap 1 := le_max_right cap 1
  have hrun := inStep_run (inStep_init (α := α) cap present) hpos hclean
  refine ⟨hrun.card_le, hrun.backed, hrun.excused, ?_, ?_⟩
  · intro checkpoint io hw
    apply persist_writes_spec hw
    · rw [hrun.cap_eq]
      exact hrun.card_le
    · rw [hrun.cap_eq]
      exact hpos
  · intro before target io removeOk between rehydrate idx hops hidx hcached
    by_contra hnot
    simp only [not_or, not_exists, not_and, Bool.not_eq_false] at hnot
    obtain ⟨hagain, hremove, hopen, hentry⟩ := hnot
    -- the blob is gone after the truncation and nothing brings it back before the restart ends
    have hgone : (run step (init cap present) ops).store.blob idx = none := by
      rw [hops] at hclean ⊢
      rw [run_append, run_cons]
      have hafter := (meets_append.mp hclean).2.2
      apply blob_run_eq_none _ hafter
      · intro checkpoint persistIo hm
        rcases List.mem_append.mp hm with hm | hm
        · exact hagain checkpoint persistIo hm
        · simp at hm
      · exact blob_truncateFrom_eq_none hidx hopen hentry hremove
    obtain ⟨checkpoint, hc⟩ := Finmap.mem_iff.mp hcached
    rw [hrun.backed idx checkpoint hc] at hgone
    cases hgone

/-! ## Runs with a remount -/

def readAll : ReadDir := ⟨true, id, fun _ => List.Perm.refl _, fun _ => true⟩

def persistAll : PersistIo := ⟨true, true, 1, 0, .written, fun _ => true⟩

def copyAll : RemountIo := ⟨true, readAll, fun _ => true, fun _ => .copied⟩

def rehydrateAll : RehydrateIo := ⟨readAll, fun _ => true, fun _ => true⟩

def remountedRun : List (Op Unit) :=
  [.persist ⟨0, ()⟩ persistAll, .persist ⟨1, ()⟩ persistAll, .remount copyAll,
    .truncateFrom 1 readAll (fun _ => true), .restart rehydrateAll]

theorem run_inStep_remounted :
    Meets step Clean (init 64 fun _ => false) remountedRun ∧
      (run step (init 64 fun _ => false) remountedRun).store.blob 0 = some (.whole ⟨0, ()⟩) := by
  have hclean : Meets step Clean (init 64 fun _ => false) remountedRun := by
    refine ⟨trivial, trivial, ?_, trivial, trivial, trivial⟩
    intro _ _ _
    -- the destination does not exist yet
    exact ⟨fun _ _ => rfl, fun idx hdest => absurd rfl hdest⟩
  exact ⟨hclean, (run_inStep 64 _ remountedRun hclean).2.1 0 ⟨0, ()⟩ (by decide)⟩

/-- A remount copies checkpoint 1 and fails at checkpoint 0; checkpoint 1 is truncated and the
remount tried again. -/
def retriedRemount : List (Op Unit) :=
  [.persist ⟨0, ()⟩ persistAll, .persist ⟨1, ()⟩ persistAll,
    .remount { copyAll with
      copy := fun name => if name = .checkpoint 0 then .failed false else .copied },
    .truncateFrom 1 readAll (fun _ => true), .remount copyAll]

/-- A remount cannot read the entry of checkpoint 0. -/
def skippingRemount : List (Op Unit) :=
  [.persist ⟨0, ()⟩ persistAll,
    .remount { copyAll with readDir := { readAll with entryOk := fun _ => false } }]

/-- The blob of the first attempt is still there after the second and comes back at a
restart, though nothing failed to be removed or read; a skipped blob is cached and not in
the directory. -/
theorem stale_blob_comes_back :
    (run step (init 64 fun _ => false) retriedRemount).log = [] ∧
    (run step (init 64 fun _ => false) retriedRemount).store.blob 1 ≠ none ∧
    (run step (init 64 fun _ => false) retriedRemount).store.cache.lookup 1 = none ∧
    (run step (init 64 fun _ => false)
      (retriedRemount ++ [.restart rehydrateAll])).store.cache.lookup 1 = some ⟨1, ()⟩ ∧
    (run step (init 64 fun _ => false) skippingRemount).store.cache.lookup 0 = some ⟨0, ()⟩ ∧
    (run step (init 64 fun _ => false) skippingRemount).store.blob 0 = none := by
  decide

end Logged

end GrokBuild.Workspace.CheckpointStore
