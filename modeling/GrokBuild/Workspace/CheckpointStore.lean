import GrokBuild.Lib.FiniteMap
import GrokBuild.Lib.StepRun

/-!
# The checkpoint store

`checkpoint_store.rs`: checkpoints written through to a directory and fronted by a cache,
with the durable flag on. Each operation takes the outcomes of its file-system calls, so
any of them can fail.
-/

namespace GrokBuild.Workspace

open GrokBuild.FiniteMap

/-- The prompt index and the other fields of a checkpoint. -/
structure RewindCheckpoint (α : Type*) where
  promptIndex : ℕ
  rest : α
deriving DecidableEq

/-- `checkpoint-<n>.json` and `checkpoint-<n>.json.tmp.<pid>.<unique>`. -/
inductive FileName where
  | checkpoint (promptIndex : ℕ)
  | tmp (promptIndex pid unique : ℕ)
deriving DecidableEq

/-- A serialized checkpoint, or what a failed write or copy leaves. -/
inductive Contents (α : Type*) where
  | whole (checkpoint : RewindCheckpoint α)
  | torn
deriving DecidableEq

abbrev Folder (α : Type*) := AList fun _ : FileName => Contents α

abbrev Cache (α : Type*) := Finmap fun _ : ℕ => RewindCheckpoint α

/-- The session directory under the first `cwd` and the one a remount goes to. -/
inductive Dir where
  | source
  | destination
deriving DecidableEq

def parseCheckpointIndex : FileName → Option ℕ
  | .checkpoint promptIndex => some promptIndex
  | .tmp .. => none

def isOrphanCheckpointTmp : FileName → Bool
  | .checkpoint _ => false
  | .tmp .. => true

/-- How one `read_dir` goes: whether the directory opens, the order of its entries, and
which of them can be read. -/
structure ReadDir where
  opens : Bool
  order : List FileName → List FileName
  order_perm : ∀ names, (order names).Perm names
  entryOk : FileName → Bool

variable {α : Type*}

namespace ReadDir

/-- The entries that are read. -/
def scan (io : ReadDir) (folder : Folder α) : List FileName :=
  (io.order folder.keys).filter io.entryOk

/-- The entries that are not, because of themselves or of the directory. -/
def unread (io : ReadDir) (folder : Folder α) : List FileName :=
  if io.opens then (io.order folder.keys).filter fun name => !io.entryOk name
  else io.order folder.keys

theorem mem_scan {io : ReadDir} {folder : Folder α} {name : FileName} :
    name ∈ io.scan folder ↔ name ∈ folder ∧ io.entryOk name = true := by
  rw [scan, List.mem_filter, (io.order_perm _).mem_iff, AList.mem_keys]

theorem mem_unread {io : ReadDir} {folder : Folder α} {name : FileName} :
    name ∈ io.unread folder ↔ name ∈ folder ∧ (io.opens = false ∨ io.entryOk name = false) := by
  unfold unread
  split
  · rename_i h
    simp [List.mem_filter, (io.order_perm _).mem_iff, AList.mem_keys, h]
  · rename_i h
    simp [(io.order_perm _).mem_iff, AList.mem_keys, h]

end ReadDir

structure CheckpointStore (α : Type*) where
  dir : Dir
  remountedDir : Option Dir
  cap : ℕ
  cache : Cache α
  /-- The two directories; `none` is one that does not exist. -/
  disk : Dir → Option (Folder α)

/-! ## The operations -/

/-- How `write_checkpoint_file` ends, with what it leaves in the temp file. -/
inductive WriteOutcome where
  | createFailed
  | writeFailed
  | renameFailed
  | written
deriving DecidableEq

structure PersistIo where
  createDir : Bool
  /-- The `.gitignore` is there or could be written. -/
  gitignore : Bool
  pid : ℕ
  unique : ℕ
  write : WriteOutcome
  removeOk : FileName → Bool

inductive CopyOutcome where
  | copied
  | failed (torn : Bool)
deriving DecidableEq

structure RemountIo where
  createDir : Bool
  readDir : ReadDir
  metadataOk : FileName → Bool
  copy : FileName → CopyOutcome

structure RehydrateIo where
  readDir : ReadDir
  readOk : FileName → Bool
  removeOk : FileName → Bool

def writeCheckpointFile (folder : Folder α) (checkpoint : RewindCheckpoint α) (io : PersistIo) :
    Folder α × Bool :=
  let tmp := FileName.tmp checkpoint.promptIndex io.pid io.unique
  match io.write with
  | .createFailed => (folder, false)
  | .writeFailed => (folder.insert tmp .torn, false)
  | .renameFailed => (folder.insert tmp (.whole checkpoint), false)
  | .written =>
    ((folder.erase tmp).insert (.checkpoint checkpoint.promptIndex) (.whole checkpoint), true)

/-- The oldest entries beyond the cap, and the cache without them. -/
def trimTo (cap : ℕ) (cache : Cache α) : List ℕ × Cache α := evictBeyond cap cache.keys.card cache

/-- The entries of `copy_checkpoint_blobs`, up to the first that fails. -/
def copyEntries (io : RemountIo) (src : Folder α) : List FileName → Folder α → Folder α × Bool
  | [], dest => (dest, true)
  | name :: names, dest =>
    if !io.metadataOk name then (dest, false)
    else
      match io.copy name, src.lookup name with
      | .copied, some contents => copyEntries io src names (dest.insert name contents)
      | .failed true, _ => (dest.insert name .torn, false)
      | _, _ => (dest, false)

/-- An entry that cannot be read is flattened away. -/
def copyCheckpointBlobs (src : Folder α) (dest : Option (Folder α)) (io : RemountIo) :
    Option (Folder α) × Bool :=
  if !io.createDir then (dest, false)
  else if !io.readDir.opens then (some (dest.getD ∅), false)
  else
    let copied := copyEntries io src (io.readDir.scan src) (dest.getD ∅)
    (some copied.1, copied.2)

/-- One entry of the rehydrate scan. -/
def rehydrateEntry (io : RehydrateIo) (loaded : Folder α × Cache α) (name : FileName) :
    Folder α × Cache α :=
  match parseCheckpointIndex name with
  | none =>
    if isOrphanCheckpointTmp name && io.removeOk name then (loaded.1.erase name, loaded.2)
    else loaded
  | some idx =>
    if io.readOk name then
      match loaded.1.lookup name with
      | some (.whole checkpoint) => (loaded.1, loaded.2.insert idx checkpoint)
      | _ => loaded
    else loaded

def rehydrateEntries (folder : Folder α) (io : RehydrateIo) : Folder α × Cache α :=
  (io.readDir.scan folder).foldl (rehydrateEntry io) (folder, ∅)

def loadCappedFromDisk (folder : Option (Folder α)) (cap : ℕ) (io : RehydrateIo) :
    Option (Folder α) × Cache α :=
  match folder with
  | none => (none, ∅)
  | some folder =>
    if !io.readDir.opens then (some folder, ∅)
    else
      let loaded := rehydrateEntries folder io
      let kept := trimTo cap loaded.2
      (some (eraseAll io.removeOk (kept.1.map .checkpoint) loaded.1), kept.2)

namespace CheckpointStore

/-- A store over two directories that are empty or do not exist, with the cap clamped to at
least 1. -/
def withCap (cap : ℕ) (present : Dir → Bool) : CheckpointStore α where
  dir := .source
  remountedDir := none
  cap := max cap 1
  cache := ∅
  disk dir := if present dir then some ∅ else none

def storeDir (s : CheckpointStore α) : Dir := s.remountedDir.getD s.dir

def folder (s : CheckpointStore α) : Folder α := (s.disk s.storeDir).getD ∅

/-- The file of checkpoint `idx` in the current directory. -/
def blob (s : CheckpointStore α) (idx : ℕ) : Option (Contents α) :=
  s.folder.lookup (.checkpoint idx)

def setFolder (s : CheckpointStore α) (folder : Folder α) : CheckpointStore α :=
  { s with disk := Function.update s.disk s.storeDir (some folder) }

def setCache (s : CheckpointStore α) (cache : Cache α) : CheckpointStore α :=
  { s with cache := cache }

/-- The checkpoint would be evicted the instant it is inserted. -/
def belowWindow (s : CheckpointStore α) (promptIndex : ℕ) : Bool :=
  decide (s.cap ≤ s.cache.keys.card) && decide (promptIndex ∉ s.cache) &&
    (if h : s.cache.keys.Nonempty then decide (promptIndex < s.cache.keys.min' h) else false)

def persist (s : CheckpointStore α) (checkpoint : RewindCheckpoint α) (io : PersistIo) :
    CheckpointStore α :=
  if s.belowWindow checkpoint.promptIndex then s
  else if !io.createDir then s
  else if !io.gitignore then s.setFolder s.folder
  else
    match writeCheckpointFile s.folder checkpoint io with
    | (folder, false) => s.setFolder folder
    | (folder, true) =>
      let kept := trimTo s.cap (s.cache.insert checkpoint.promptIndex checkpoint)
      (s.setFolder (eraseAll io.removeOk (kept.1.map .checkpoint) folder)).setCache kept.2

def isTruncated (target : ℕ) (name : FileName) : Bool :=
  (parseCheckpointIndex name).any (target ≤ ·)

def truncateFrom (s : CheckpointStore α) (target : ℕ) (io : ReadDir) (removeOk : FileName → Bool) :
    CheckpointStore α :=
  match s.disk s.storeDir with
  | none => s.setCache (retain (· < target) s.cache)
  | some folder =>
    if !io.opens then s
    else
      let removed := (io.scan folder).filter (isTruncated target)
      (s.setFolder (eraseAll removeOk removed folder)).setCache (retain (· < target) s.cache)

/-- The store after a remount to `.destination`, and whether it points there. -/
def remount (s : CheckpointStore α) (io : RemountIo) : CheckpointStore α × Bool :=
  match s.remountedDir with
  | some existing => (s, existing == .destination)
  | none =>
    let remounted := { s with remountedDir := some .destination }
    match s.disk s.storeDir with
    | none => (remounted, true)
    | some src =>
      if s.storeDir = .destination then (remounted, true)
      else
        match copyCheckpointBlobs src (s.disk .destination) io with
        | (dest, copyOk) =>
          let disk := Function.update s.disk .destination dest
          if copyOk then ({ remounted with disk := disk }, true) else ({ s with disk := disk }, false)

/-- A new process over the current directory. -/
def restart (s : CheckpointStore α) (io : RehydrateIo) : CheckpointStore α :=
  let loaded := loadCappedFromDisk (s.disk s.storeDir) s.cap io
  { dir := s.storeDir
    remountedDir := none
    cap := max s.cap 1
    cache := loaded.2
    disk := Function.update s.disk s.storeDir loaded.1 }

inductive Op (α : Type*) where
  | persist (checkpoint : RewindCheckpoint α) (io : PersistIo)
  | truncateFrom (target : ℕ) (io : ReadDir) (removeOk : FileName → Bool)
  | remount (io : RemountIo)
  | restart (io : RehydrateIo)

def step (s : CheckpointStore α) : Op α → CheckpointStore α
  | .persist checkpoint io => s.persist checkpoint io
  | .truncateFrom target io removeOk => s.truncateFrom target io removeOk
  | .remount io => (s.remount io).1
  | .restart io => s.restart io

end CheckpointStore

end GrokBuild.Workspace
