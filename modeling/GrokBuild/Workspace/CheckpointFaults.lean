import GrokBuild.Workspace.CheckpointStore

/-!
# What one operation of the checkpoint store does

For each operation, whatever file-system calls fail: the cap, the cache and the blobs of
the current directory after it.
-/

namespace GrokBuild.Workspace.CheckpointStore

open GrokBuild.FiniteMap

variable {α : Type*}

/-- Cap, cache and the blobs of the current directory are as before. -/
structure Unchanged (s s' : CheckpointStore α) : Prop where
  cap : s'.cap = s.cap
  cache : s'.cache = s.cache
  blob : ∀ idx, s'.blob idx = s.blob idx

@[simp] theorem setFolder_folder (s : CheckpointStore α) (folder : Folder α) :
    (s.setFolder folder).folder = folder := by
  simp [setFolder, CheckpointStore.folder, storeDir]

theorem blob_setFolder (s : CheckpointStore α) (folder : Folder α) (idx : ℕ) :
    (s.setFolder folder).blob idx = folder.lookup (.checkpoint idx) := by
  rw [blob, setFolder_folder]

@[simp] theorem blob_setCache (s : CheckpointStore α) (cache : Cache α) (idx : ℕ) :
    (s.setCache cache).blob idx = s.blob idx := rfl

theorem unchanged_setFolder {s : CheckpointStore α} {folder : Folder α}
    (h : ∀ idx, folder.lookup (.checkpoint idx) = s.blob idx) : Unchanged s (s.setFolder folder) :=
  ⟨rfl, rfl, fun idx => by rw [blob_setFolder, h]⟩

theorem lookup_eraseAll_checkpoint (removeOk : FileName → Bool) (evicted : List ℕ)
    (folder : Folder α) (idx : ℕ) :
    (eraseAll removeOk (evicted.map .checkpoint) folder).lookup (.checkpoint idx) =
      if idx ∈ evicted ∧ removeOk (.checkpoint idx) then none
      else folder.lookup (.checkpoint idx) := by
  rw [lookup_eraseAll]
  simp

/-- A persist goes past the retention window and all the calls before the rename succeed. -/
def Writes (s : CheckpointStore α) (checkpoint : RewindCheckpoint α) (io : PersistIo) : Prop :=
  s.belowWindow checkpoint.promptIndex = false ∧ io.createDir = true ∧ io.gitignore = true ∧
    io.write = .written

/-- The indexes a persist evicts once it has written. -/
def evictedBy (s : CheckpointStore α) (checkpoint : RewindCheckpoint α) : List ℕ :=
  (trimTo s.cap (s.cache.insert checkpoint.promptIndex checkpoint)).1

theorem writeCheckpointFile_written {folder : Folder α} {checkpoint : RewindCheckpoint α}
    {io : PersistIo} (h : io.write = .written) :
    (writeCheckpointFile folder checkpoint io).2 = true ∧
      ∀ idx, (writeCheckpointFile folder checkpoint io).1.lookup (.checkpoint idx) =
        if idx = checkpoint.promptIndex then some (.whole checkpoint)
        else folder.lookup (.checkpoint idx) := by
  simp only [writeCheckpointFile, h, true_and]
  intro idx
  rw [alist_lookup_insert_eq, alist_lookup_erase_eq]
  simp

theorem writeCheckpointFile_failed {folder : Folder α} {checkpoint : RewindCheckpoint α}
    {io : PersistIo} (h : io.write ≠ .written) :
    (writeCheckpointFile folder checkpoint io).2 = false ∧
      ∀ idx, (writeCheckpointFile folder checkpoint io).1.lookup (.checkpoint idx) =
        folder.lookup (.checkpoint idx) := by
  unfold writeCheckpointFile
  -- the temp file is the only one a failed write touches
  cases hw : io.write with
  | written => exact absurd hw h
  | createFailed => simp
  | writeFailed => simp
  | renameFailed => simp

theorem persist_of_not_writes {s : CheckpointStore α} {checkpoint : RewindCheckpoint α}
    {io : PersistIo} (h : ¬s.Writes checkpoint io) : Unchanged s (s.persist checkpoint io) := by
  have hsame : Unchanged s s := ⟨rfl, rfl, fun _ => rfl⟩
  unfold persist
  split
  · exact hsame
  · rename_i hwindow
    split
    · exact hsame
    · rename_i hcreate
      split
      · exact unchanged_setFolder fun _ => rfl
      · rename_i hgit
        have hw : io.write ≠ .written := fun hw =>
          h ⟨by simpa using hwindow, by simpa using hcreate, by simpa using hgit, hw⟩
        have hfailed : (writeCheckpointFile s.folder checkpoint io).2 = false ∧ _ :=
          writeCheckpointFile_failed hw
        obtain ⟨hfalse, hlookup⟩ := hfailed
        split
        · rename_i folder hfolder
          rw [hfolder] at hlookup
          exact unchanged_setFolder hlookup
        · rename_i folder hfolder
          rw [hfolder] at hfalse
          cases hfalse

theorem persist_of_writes {s : CheckpointStore α} {checkpoint : RewindCheckpoint α}
    {io : PersistIo} (h : s.Writes checkpoint io) :
    (s.persist checkpoint io).cap = s.cap ∧
      (s.persist checkpoint io).cache =
        (trimTo s.cap (s.cache.insert checkpoint.promptIndex checkpoint)).2 ∧
      ∀ idx, (s.persist checkpoint io).blob idx =
        if idx ∈ s.evictedBy checkpoint ∧ io.removeOk (.checkpoint idx) then none
        else if idx = checkpoint.promptIndex then some (.whole checkpoint) else s.blob idx := by
  obtain ⟨hwindow, hcreate, hgit, hw⟩ := h
  have hwritten : (writeCheckpointFile s.folder checkpoint io).2 = true ∧ _ :=
    writeCheckpointFile_written hw
  obtain ⟨htrue, hlookup⟩ := hwritten
  unfold persist
  rw [hwindow, hcreate, hgit]
  simp only [Bool.false_eq_true, Bool.not_true, if_false]
  split
  · rename_i folder hfolder
    rw [hfolder] at htrue
    cases htrue
  · rename_i folder hfolder
    rw [hfolder] at hlookup
    refine ⟨rfl, rfl, fun idx => ?_⟩
    rw [blob_setCache, blob_setFolder, lookup_eraseAll_checkpoint, hlookup]
    rfl

/-- A truncation that cannot open the directory changes nothing; any other one prunes the
cache and removes the blobs from `target` on that it can read and remove. -/
theorem truncateFrom_cases (s : CheckpointStore α) (target : ℕ) (io : ReadDir)
    (removeOk : FileName → Bool) :
    ((s.disk s.storeDir).isSome ∧ io.opens = false ∧ s.truncateFrom target io removeOk = s) ∨
      ((s.truncateFrom target io removeOk).cap = s.cap ∧
        (s.truncateFrom target io removeOk).cache = retain (· < target) s.cache ∧
        ∀ idx, (s.truncateFrom target io removeOk).blob idx =
          if target ≤ idx ∧ io.entryOk (.checkpoint idx) ∧ removeOk (.checkpoint idx) then none
          else s.blob idx) := by
  unfold truncateFrom
  split
  · rename_i hnone
    right
    have hblob (idx : ℕ) : s.blob idx = none := by
      rw [blob, folder, hnone]
      rfl
    refine ⟨rfl, rfl, fun idx => ?_⟩
    rw [blob_setCache, hblob, ite_self]
  · rename_i folder hsome
    split
    · rename_i hopen
      left
      rw [hsome]
      exact ⟨rfl, by simpa using hopen, rfl⟩
    · right
      refine ⟨rfl, rfl, fun idx => ?_⟩
      have hblob : s.blob idx = folder.lookup (.checkpoint idx) := by
        rw [blob, CheckpointStore.folder, hsome]
        rfl
      rw [blob_setCache, blob_setFolder, lookup_eraseAll, hblob]
      by_cases hmem : FileName.checkpoint idx ∈ folder
      · simp [List.mem_filter, ReadDir.mem_scan, hmem, isTruncated, parseCheckpointIndex, and_comm,
          and_left_comm]
      · rw [AList.lookup_eq_none.mpr hmem, ite_self, ite_self]

/-- An attempt that copies: every call succeeds, on the entries it reads. -/
def GoesThrough (io : RemountIo) (src : Folder α) : Prop :=
  io.createDir = true ∧ io.readDir.opens = true ∧
    ∀ name ∈ io.readDir.scan src, io.metadataOk name = true ∧ io.copy name = .copied

/-- The file of checkpoint `idx` in the directory that a remount goes to. -/
def destBlob (s : CheckpointStore α) (idx : ℕ) : Option (Contents α) :=
  ((s.disk .destination).getD ∅).lookup (.checkpoint idx)

theorem copyEntries_true {io : RemountIo} {src dest : Folder α} {names : List FileName}
    (h : (copyEntries io src names dest).2 = true) :
    (∀ name ∈ names, io.metadataOk name = true ∧ io.copy name = .copied) ∧
      ∀ name, (copyEntries io src names dest).1.lookup name =
        if name ∈ names then src.lookup name else dest.lookup name := by
  induction names generalizing dest with
  | nil => exact ⟨by simp, fun name => by simp [copyEntries]⟩
  | cons first names ih =>
    rw [copyEntries] at h
    split at h
    · cases h
    · rename_i hmeta
      have hmeta : io.metadataOk first = true := by simpa using hmeta
      split at h
      · rename_i contents hcopy hsrc
        obtain ⟨hnames, hlookup⟩ := ih h
        refine ⟨?_, fun name => ?_⟩
        · intro name hm
          rcases List.mem_cons.mp hm with rfl | hm
          · exact ⟨hmeta, hcopy⟩
          · exact hnames name hm
        · rw [copyEntries]
          simp only [hmeta, hcopy, hsrc, Bool.not_true, Bool.false_eq_true, if_false]
          rw [hlookup, alist_lookup_insert_eq]
          by_cases hname : name = first
          · subst hname
            simp [hsrc]
          · simp [hname]
      · cases h
      · cases h

/-- A remount either leaves the current directory's blobs as they are, or points to the
destination after an attempt that went through; there a blob whose entry was read is the
source's, and any other one is what the destination had. -/
theorem remount_cases (s : CheckpointStore α) (io : RemountIo) :
    Unchanged s (s.remount io).1 ∨
      (s.remountedDir = none ∧ s.storeDir ≠ .destination ∧
        (∀ src, s.disk s.storeDir = some src → GoesThrough io src) ∧
        (s.remount io).1.cap = s.cap ∧ (s.remount io).1.cache = s.cache ∧
        ∀ idx, (s.remount io).1.blob idx =
          if (s.blob idx).isSome ∧ io.readDir.entryOk (.checkpoint idx) then s.blob idx
          else s.destBlob idx) := by
  unfold remount
  cases hre : s.remountedDir with
  | some existing => exact .inl ⟨rfl, rfl, fun _ => rfl⟩
  | none =>
    have hdir : s.storeDir = s.dir := by simp [storeDir, hre]
    by_cases hdest : s.storeDir = .destination
    · -- already there: no copy
      left
      have hblob (idx : ℕ) :
          ({ s with remountedDir := some .destination } : CheckpointStore α).blob idx =
            s.blob idx := by
        rw [blob, blob, folder, folder, hdest]
        rfl
      cases hdisk : s.disk s.storeDir with
      | none => exact ⟨rfl, rfl, hblob⟩
      | some src =>
        simp only [hdest, if_true]
        exact ⟨rfl, rfl, hblob⟩
    · cases hdisk : s.disk s.storeDir with
      | none =>
        right
        refine ⟨rfl, hdest, by simp, rfl, rfl, fun idx => ?_⟩
        have hblob : s.blob idx = none := by
          rw [blob, folder, hdisk]
          rfl
        simp only [hblob, Option.isSome_none, Bool.false_eq_true, false_and, if_false]
        rfl
      | some src =>
        simp only [hdest, if_false]
        cases hcopy : (copyCheckpointBlobs src (s.disk .destination) io).2 with
        | false =>
          left
          simp only [Bool.false_eq_true, if_false]
          refine ⟨rfl, rfl, fun idx => ?_⟩
          rw [blob, blob, folder, folder]
          change ((Function.update s.disk .destination _ s.dir).getD ∅).lookup _ = _
          rw [← hdir, Function.update_of_ne hdest]
        | true =>
          right
          simp only [if_true]
          unfold copyCheckpointBlobs at hcopy
          split at hcopy
          · cases hcopy
          · rename_i hcreate
            split at hcopy
            · cases hcopy
            · rename_i hopen
              obtain ⟨hnames, hlookup⟩ := copyEntries_true hcopy
              have hblob (idx : ℕ) : s.blob idx = src.lookup (.checkpoint idx) := by
                rw [blob, folder, hdisk]
                rfl
              refine ⟨trivial, hdest, ?_, trivial, trivial, fun idx => ?_⟩
              · rintro src' hsrc'
                obtain rfl := Option.some.inj hsrc'
                exact ⟨by simpa using hcreate, by simpa using hopen, hnames⟩
              · rw [blob, folder]
                change ((Function.update s.disk .destination _ .destination).getD ∅).lookup _ = _
                rw [Function.update_self, copyCheckpointBlobs, if_neg hcreate, if_neg hopen]
                change (copyEntries io src _ _).1.lookup _ = _
                simp only [hlookup, hblob, AList.lookup_isSome, ReadDir.mem_scan]
                rfl

/-- The checkpoint that a rehydrate reads from a file. -/
def readWhole (io : RehydrateIo) (folder : Folder α) (idx : ℕ) : Option (RewindCheckpoint α) :=
  if io.readDir.entryOk (.checkpoint idx) && io.readOk (.checkpoint idx) then
    match folder.lookup (.checkpoint idx) with
    | some (.whole checkpoint) => some checkpoint
    | _ => none
  else none

theorem blob_of_readWhole {s : CheckpointStore α} {io : RehydrateIo} {idx : ℕ}
    {checkpoint : RewindCheckpoint α} (h : readWhole io s.folder idx = some checkpoint) :
    s.blob idx = some (.whole checkpoint) := by
  unfold readWhole at h
  split at h
  · split at h
    · rename_i hfile
      rw [blob, hfile, Option.some.inj h]
    · cases h
  · cases h

/-- Sweeping temp files and loading blobs do not touch each other: over a list of names the
blobs stay, and a blob is loaded exactly when it is listed, readable and whole. -/
theorem foldl_rehydrateEntry (io : RehydrateIo) (names : List FileName) (folder : Folder α)
    (cache : Cache α) (idx : ℕ) :
    (names.foldl (rehydrateEntry io) (folder, cache)).1.lookup (.checkpoint idx) =
        folder.lookup (.checkpoint idx) ∧
      (names.foldl (rehydrateEntry io) (folder, cache)).2.lookup idx =
        if .checkpoint idx ∈ names ∧ io.readOk (.checkpoint idx) = true then
          match folder.lookup (.checkpoint idx) with
          | some (.whole checkpoint) => some checkpoint
          | _ => cache.lookup idx
        else cache.lookup idx := by
  induction names generalizing folder cache with
  | nil => simp
  | cons name names ih =>
    rw [List.foldl_cons]
    cases name with
    | tmp promptIndex pid unique =>
      have hstep : ∃ folder' : Folder α,
          rehydrateEntry io (folder, cache) (.tmp promptIndex pid unique) = (folder', cache) ∧
            folder'.lookup (.checkpoint idx) = folder.lookup (.checkpoint idx) := by
        simp only [rehydrateEntry, parseCheckpointIndex]
        split
        · exact ⟨_, rfl, by rw [alist_lookup_erase_eq, if_neg (by simp)]⟩
        · exact ⟨_, rfl, rfl⟩
      obtain ⟨folder', hfold, hlookup⟩ := hstep
      rw [hfold, (ih folder' cache).1, (ih folder' cache).2, hlookup]
      simp
    | checkpoint promptIndex =>
      have hstep : ∃ cache' : Cache α,
          rehydrateEntry io (folder, cache) (.checkpoint promptIndex) = (folder, cache') ∧
            cache'.lookup idx =
              if idx = promptIndex ∧ io.readOk (.checkpoint idx) = true then
                match folder.lookup (.checkpoint idx) with
                | some (.whole checkpoint) => some checkpoint
                | _ => cache.lookup idx
              else cache.lookup idx := by
        simp only [rehydrateEntry, parseCheckpointIndex]
        by_cases hread : io.readOk (.checkpoint promptIndex) = true
        · rw [if_pos hread]
          cases hfile : folder.lookup (.checkpoint promptIndex) with
          | none =>
            refine ⟨cache, rfl, ?_⟩
            split
            · rename_i h
              rw [h.1, hfile]
            · rfl
          | some contents =>
            cases contents with
            | torn =>
              refine ⟨cache, rfl, ?_⟩
              split
              · rename_i h
                rw [h.1, hfile]
              · rfl
            | whole checkpoint =>
              refine ⟨_, rfl, ?_⟩
              rw [lookup_insert_eq]
              by_cases hidx : idx = promptIndex
              · subst hidx
                simp [hread, hfile]
              · simp [hidx]
        · rw [if_neg hread]
          refine ⟨cache, rfl, ?_⟩
          rw [if_neg]
          rintro ⟨rfl, h⟩
          exact hread h
      obtain ⟨cache', hfold, hlookup⟩ := hstep
      rw [hfold]
      refine ⟨(ih folder cache').1, ?_⟩
      rw [(ih folder cache').2, hlookup]
      by_cases hidx : idx = promptIndex
      · subst hidx
        by_cases hread : io.readOk (.checkpoint idx) = true
        · simp only [hread, and_true, if_true, List.mem_cons, true_or, and_self]
          split
          · split <;> simp_all
          · rfl
        · simp [hread]
      · simp [hidx]

theorem lookup_rehydrateEntries (io : RehydrateIo) (folder : Folder α) (idx : ℕ) :
    (rehydrateEntries folder io).1.lookup (.checkpoint idx) = folder.lookup (.checkpoint idx) ∧
      (rehydrateEntries folder io).2.lookup idx = readWhole io folder idx := by
  obtain ⟨hfolder, hcache⟩ := foldl_rehydrateEntry io (io.readDir.scan folder) folder ∅ idx
  refine ⟨hfolder, ?_⟩
  rw [rehydrateEntries, hcache, readWhole]
  by_cases hmem : FileName.checkpoint idx ∈ folder
  · simp only [ReadDir.mem_scan, hmem, true_and, Bool.and_eq_true, Finmap.lookup_empty]
  · have hnone : folder.lookup (.checkpoint idx) = none := AList.lookup_eq_none.mpr hmem
    simp [ReadDir.mem_scan, hmem, hnone]

/-- The indexes a rehydrate evicts beyond the cap. -/
def rehydrateEvicts (s : CheckpointStore α) (io : RehydrateIo) : List ℕ :=
  (trimTo s.cap (rehydrateEntries s.folder io).2).1

/-- A restart whose directory does not open caches nothing; any other one caches the newest
blobs it can read and removes the other ones of these. -/
theorem restart_cases (s : CheckpointStore α) (io : RehydrateIo) :
    (s.restart io).cap = max s.cap 1 ∧
      (((s.restart io).cache = ∅ ∧ (∀ idx, (s.restart io).blob idx = s.blob idx) ∧
          (io.readDir.opens = false ∨ ∀ idx, s.blob idx = none)) ∨
        (io.readDir.opens = true ∧
          (s.restart io).cache = (trimTo s.cap (rehydrateEntries s.folder io).2).2 ∧
          ∀ idx, (s.restart io).blob idx =
            if idx ∈ s.rehydrateEvicts io ∧ io.removeOk (.checkpoint idx) then none
            else s.blob idx)) := by
  refine ⟨rfl, ?_⟩
  have hblob (idx : ℕ) : (s.restart io).blob idx =
      ((loadCappedFromDisk (s.disk s.storeDir) s.cap io).1.getD ∅).lookup (.checkpoint idx) := by
    rw [blob, folder]
    change ((Function.update s.disk s.storeDir _ s.storeDir).getD ∅).lookup _ = _
    rw [Function.update_self]
  have hcache : (s.restart io).cache = (loadCappedFromDisk (s.disk s.storeDir) s.cap io).2 := rfl
  rw [hcache]
  simp only [hblob]
  cases hdisk : s.disk s.storeDir with
  | none =>
    have hnone (idx : ℕ) : s.blob idx = none := by
      rw [blob, folder, hdisk]
      rfl
    exact .inl ⟨rfl, fun idx => (hnone idx).symm, .inr hnone⟩
  | some folder =>
    have hfolder : s.folder = folder := by
      rw [CheckpointStore.folder, hdisk]
      rfl
    unfold loadCappedFromDisk
    by_cases hopen : io.readDir.opens = true
    · right
      simp only [hopen, Bool.not_true, Bool.false_eq_true, if_false]
      refine ⟨trivial, by rw [hfolder], fun idx => ?_⟩
      change (eraseAll _ _ _).lookup _ = _
      rw [lookup_eraseAll_checkpoint, (lookup_rehydrateEntries io folder idx).1, rehydrateEvicts,
        blob, hfolder]
    · left
      simp only [hopen, Bool.not_false, if_true]
      refine ⟨trivial, fun idx => ?_, .inl trivial⟩
      rw [blob, hfolder]
      rfl

end GrokBuild.Workspace.CheckpointStore
