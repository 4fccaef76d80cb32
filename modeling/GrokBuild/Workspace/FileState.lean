import GrokBuild.Lib.FiniteMap

/-!
# Rewind points

`file_state.rs`: one rewind point per prompt with the images of the files that the prompt
touched, the operations of the tracker on them, and `rewind_files`. A path is one relative to
the session's directory, a content is the text of the file or nothing when there is none.
-/

namespace GrokBuild.Workspace

open GrokBuild.FiniteMap

variable {P C : Type*} [DecidableEq P] [DecidableEq C]

/-- The file contents by path. -/
abbrev Files (P C : Type*) := P → Option C

/-- The snapshots of a point by path. -/
abbrev Snapshots (P C : Type*) := AList fun _ : P => Option C

structure RewindPoint (P C : Type*) where
  promptIndex : ℕ
  fileSnapshots : Snapshots P C
  afterSnapshots : Snapshots P C

namespace RewindPoint

def new (promptIndex : ℕ) : RewindPoint P C := ⟨promptIndex, ∅, ∅⟩

/-- Only the first snapshot of a file is kept. -/
def addSnapshot (point : RewindPoint P C) (path : P) (content : Option C) : RewindPoint P C :=
  if path ∈ point.fileSnapshots then point
  else { point with fileSnapshots := point.fileSnapshots.insert path content }

def setAfterSnapshot (point : RewindPoint P C) (path : P) (content : Option C) :
    RewindPoint P C :=
  { point with afterSnapshots := point.afterSnapshots.insert path content }

/-- The earliest before-snapshot and the latest after-snapshot win. -/
def fold (previous merged : RewindPoint P C) : RewindPoint P C :=
  { previous with
    fileSnapshots := previous.fileSnapshots ∪ merged.fileSnapshots
    afterSnapshots := merged.afterSnapshots ∪ previous.afterSnapshots }

end RewindPoint

def sortPoints (points : List (RewindPoint P C)) : List (RewindPoint P C) :=
  points.mergeSort fun a b => decide (a.promptIndex ≤ b.promptIndex)

/-- `dedup_by_key`: the first of neighbours with one index stays. -/
def dedupPoints : List (RewindPoint P C) → List (RewindPoint P C)
  | [] => []
  | point :: points =>
    match dedupPoints points with
    | [] => [point]
    | next :: rest => if next.promptIndex = point.promptIndex then point :: rest
      else point :: next :: rest

def modifyFirst (p : RewindPoint P C → Bool) (f : RewindPoint P C → RewindPoint P C) :
    List (RewindPoint P C) → List (RewindPoint P C)
  | [] => []
  | point :: points => if p point then f point :: points else point :: modifyFirst p f points

/-- Fold the points from `target` on into the one before it. -/
def mergeRewindPointsFrom (points : List (RewindPoint P C)) (target : ℕ) :
    List (RewindPoint P C) :=
  if target = 0 then []
  else
    let sorted := dedupPoints (sortPoints points)
    let kept := sorted.takeWhile fun point => decide (point.promptIndex < target)
    let toMerge := sorted.dropWhile fun point => decide (point.promptIndex < target)
    modifyFirst (fun point => decide (point.promptIndex = target - 1))
      (fun previous => toMerge.foldl .fold previous) kept

structure FileStateTracker (P C : Type*) where
  rewindPoints : AList fun _ : ℕ => RewindPoint P C
  currentPromptIndex : Option ℕ
  /-- The points of the file that a resumed session has not read yet. -/
  lazySource : Option (List (RewindPoint P C))

inductive ConflictType where
  | deletedExternally
  | createdExternally
  | modifiedExternally
deriving DecidableEq

structure FileRewindResponse (P : Type*) where
  success : Bool
  targetPromptIndex : ℕ
  revertedFiles : List P
  cleanFiles : List P
  conflicts : List (P × ConflictType)
  error : Option String

/-- Which file-system calls of a rewind succeed. -/
structure RewindIo (P : Type*) where
  readOk : P → Bool
  writeOk : P → Bool
  existsOk : P → Bool
  deleteOk : P → Bool

def RewindIo.all : RewindIo P := ⟨fun _ => true, fun _ => true, fun _ => true, fun _ => true⟩

namespace FileStateTracker

def new : FileStateTracker P C := ⟨∅, none, none⟩

/-- The points in memory win over the ones read. -/
def ensureHistoricalLoaded (t : FileStateTracker P C) : FileStateTracker P C :=
  match t.lazySource with
  | none => t
  | some loaded =>
    { t with
      rewindPoints := loaded.foldl (fun points point =>
        if point.promptIndex ∈ points then points else points.insert point.promptIndex point)
        t.rewindPoints
      lazySource := none }

def beginPrompt (t : FileStateTracker P C) (promptIndex : ℕ) : FileStateTracker P C :=
  { t with
    currentPromptIndex := some promptIndex
    rewindPoints := if promptIndex ∈ t.rewindPoints then t.rewindPoints
      else t.rewindPoints.insert promptIndex (.new promptIndex) }

def modifyPoint (t : FileStateTracker P C) (promptIndex : ℕ)
    (f : RewindPoint P C → RewindPoint P C) : FileStateTracker P C :=
  match t.rewindPoints.lookup promptIndex with
  | none => t
  | some point => { t with rewindPoints := t.rewindPoints.insert promptIndex (f point) }

/-- The current content of each path of the point becomes its after-snapshot. -/
def endPrompt (t : FileStateTracker P C) (files : Files P C) (promptIndex : ℕ) :
    FileStateTracker P C :=
  let paths := ((t.rewindPoints.lookup promptIndex).map fun point => point.fileSnapshots.keys).getD []
  paths.foldl (fun t path => t.modifyPoint promptIndex fun point =>
    point.setAfterSnapshot path (files path)) { t with currentPromptIndex := none }

/-- Called before a file under the session's directory is read or written. -/
def captureFileState (t : FileStateTracker P C) (files : Files P C) (path : P) :
    FileStateTracker P C :=
  match t.currentPromptIndex with
  | none => t
  | some promptIndex => t.modifyPoint promptIndex fun point => point.addSnapshot path (files path)

def values (t : FileStateTracker P C) : List (RewindPoint P C) :=
  t.rewindPoints.entries.map fun entry => entry.2

def getRewindPoints (t : FileStateTracker P C) : List (RewindPoint P C) :=
  sortPoints t.ensureHistoricalLoaded.values

def truncateFrom (t : FileStateTracker P C) (promptIndex : ℕ) : FileStateTracker P C :=
  let t := t.ensureHistoricalLoaded
  { t with rewindPoints := retainKeys (· < promptIndex) t.rewindPoints }

def mergeAndRemoveFrom (t : FileStateTracker P C) (target : ℕ) : FileStateTracker P C :=
  let t := t.ensureHistoricalLoaded
  { t with
    rewindPoints := (mergeRewindPointsFrom t.values target).foldl
      (fun points point => points.insert point.promptIndex point) ∅ }

/-- The earliest before-snapshot of each file from the target on. -/
def filesToRevert (points : List (RewindPoint P C)) (target : ℕ) : Snapshots P C :=
  (points.filter fun point => decide (target ≤ point.promptIndex)).foldl
    (fun reverts point => reverts ∪ point.fileSnapshots) ∅

/-- The latest after-snapshot of the file over all points. -/
def afterContent (points : List (RewindPoint P C)) (path : P) : Option C :=
  (points.reverse.findSome? fun point => point.afterSnapshots.lookup path).join

def conflictType (current after : Option C) : ConflictType :=
  if current.isNone && after.isSome then .deletedExternally
  else if current.isSome && after.isNone then .createdExternally
  else .modifiedExternally

/-- The loop variables of `rewind_files`. -/
structure Reverting (P C : Type*) where
  files : Files P C
  revertedFiles : List P := []
  cleanFiles : List P := []
  conflicts : List (P × ConflictType) := []
  hadErrors : Bool := false

/-- One file of the conflict detection and revert. -/
def revertFile (points : List (RewindPoint P C)) (io : RewindIo P) (r : Reverting P C)
    (entry : Sigma fun _ : P => Option C) : Reverting P C :=
  let path := entry.1
  let current := if io.readOk path then r.files path else none
  let after := afterContent points path
  let r := if current = after then { r with cleanFiles := r.cleanFiles ++ [path] }
    else { r with conflicts := r.conflicts ++ [(path, conflictType current after)] }
  match entry.2 with
  | some data =>
    if io.writeOk path then
      { r with files := Function.update r.files path (some data)
               revertedFiles := r.revertedFiles ++ [path] }
    else { r with hadErrors := true }
  | none =>
    if io.existsOk path && (r.files path).isSome then
      if io.deleteOk path then
        { r with files := Function.update r.files path none
                 revertedFiles := r.revertedFiles ++ [path] }
      else { r with hadErrors := true }
    else { r with revertedFiles := r.revertedFiles ++ [path] }

/-- Files back to the state before `target`; the points are dropped unless a file failed. -/
def rewindFiles (t : FileStateTracker P C) (files : Files P C) (io : RewindIo P) (target : ℕ) :
    FileStateTracker P C × Files P C × FileRewindResponse P :=
  let points := t.getRewindPoints
  let r := (filesToRevert points target).entries.foldl (revertFile points io) { files := files }
  (if r.hadErrors then t.ensureHistoricalLoaded else t.truncateFrom target, r.files,
    { success := !r.hadErrors
      targetPromptIndex := target
      revertedFiles := r.revertedFiles
      cleanFiles := r.cleanFiles
      conflicts := r.conflicts
      error := if r.hadErrors then some "Some files could not be reverted" else none })

end FileStateTracker

end GrokBuild.Workspace
