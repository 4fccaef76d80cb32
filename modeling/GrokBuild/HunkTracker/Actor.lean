import GrokBuild.HunkTracker.Recompute
import GrokBuild.Text.PathBuf
import GrokBuild.Lib.SecondaryIndex
import Mathlib.Data.List.AList

/-!
# The tracker's state and its file events

`HunkTrackerActor` handles one command after another. The file system and git answer its
questions while it does; their answers during one command are a `World`, which also fixes
the order in which the hash maps of that command are iterated.
-/

namespace GrokBuild.HunkTracker

open Text SecondaryIndex

inductive TrackingMode
  | agentOnly
  | allDirty
deriving DecidableEq, Repr

structure RepoSyncState where
  headOid : Option Str := none
  indexMtime : Option ℕ := none
deriving DecidableEq, Repr

structure SessionStats where
  acceptedHunks : ℕ := 0
  rejectedHunks : ℕ := 0
  acceptedLinesAdded : ℕ := 0
  acceptedLinesRemoved : ℕ := 0
  rejectedLinesAdded : ℕ := 0
  rejectedLinesRemoved : ℕ := 0
deriving DecidableEq, Repr

structure FileHunkState (HunkId : Type*) where
  baseline : FileContentState
  currentContent : FileContentState
  hunks : List (Hunk HunkId PathBuf)
  isAgentFile : Bool
  baselineAccepted : Bool
deriving DecidableEq

/-- The state of the actor, with the events it has sent and the number of ids it has drawn. -/
structure Tracker (HunkId : Type*) where
  workingDir : PathBuf
  fileStates : AList fun _ : PathBuf => FileHunkState HunkId := ∅
  turnIndex : ℕ → List HunkId := fun _ => []
  gitDirtyCache : List PathBuf := []
  gitStagedCache : List PathBuf := []
  repoSyncState : RepoSyncState := {}
  mode : TrackingMode
  sessionStats : SessionStats := {}
  events : List (HunkEvent HunkId PathBuf) := []
  nextId : ℕ := 0

/-- What the outside says about one file. -/
structure FileAnswers where
  /-- `read_file_bounded` -/
  content : FileContentState := .missing
  /-- `read_baseline` -/
  head : FileContentState := .missing
  pathExists : Bool := false
  isDir : Bool := false
  /-- A write to the file, or its removal, succeeds. -/
  writable : Bool := true

/-- What the outside says during one command. -/
structure World where
  files : PathBuf → FileAnswers
  /-- `read_baselines_batch` -/
  batchHead : PathBuf → Option FileContentState
  /-- The parallel reads of `refresh_all_baselines`. -/
  contents : PathBuf → FileContentState
  /-- The dirty and the staged files of `git status`, relative to the working directory. -/
  status : Option (List PathBuf × List PathBuf)
  /-- `read_repo_sync_state` -/
  syncState : Option RepoSyncState
  order : List PathBuf → List PathBuf
  order_perm : ∀ l, (order l).Perm l

/-! ## Contents -/

def lfsPointerPrefix : Str := "version https://git-lfs.github.com/spec/v1\n".toList

def isLfsPointer (s : Str) : Bool :=
  decide (byteLen s < 1024) && lfsPointerPrefix.isPrefixOf s

/-- A zero byte among the first 8000. -/
def isBinary (s : Str) : Bool :=
  ((s.flatMap String.utf8EncodeChar).take 8000).contains 0

def maxTrackedTextBytes : ℕ := 1024 * 1024

def classifyString (s : Str) : FileContentState :=
  if byteLen s > maxTrackedTextBytes then .tooLarge (byteLen s)
  else if isLfsPointer s then .lfsPointer (byteLen s)
  else if isBinary s then .binary (some (byteLen s))
  else .full s

def stripSingleTrailingNewline (content : Str) : Str :=
  if ['\r', '\n'].isSuffixOf content then content.dropLast.dropLast
  else if ['\n'].isSuffixOf content then content.dropLast
  else content

/-- The content read after a change is that of git HEAD. -/
def contentMatchesHead (dirty : Bool) : FileContentState → FileContentState → Bool
  | .full current, .full head =>
    stripSingleTrailingNewline current == stripSingleTrailingNewline head
  | .missing, .missing => true
  | .binary _, .binary _ => true
  | .tooLarge _, .tooLarge _ => true
  | .lfsPointer _, .lfsPointer _ => true
  | .symlink, .symlink => true
  | .symlink, .full _ => !dirty
  | .full _, .symlink => !dirty
  | _, _ => false

/-- A refreshed file has no changes, as far as the contents and `git status` can tell. -/
def isClean (dirty pathExists : Bool) : FileContentState → FileContentState → Bool
  | .full b, .full c => stripSingleTrailingNewline b == stripSingleTrailingNewline c
  | .binary _, .binary _ => !dirty
  | .tooLarge _, .tooLarge _ => !dirty
  | .symlink, .symlink => !dirty
  | .lfsPointer _, _ => !dirty
  | _, .lfsPointer _ => !dirty
  | .symlink, .full _ => !dirty
  | .full _, .symlink => !dirty
  | .missing, .missing => !pathExists
  | .missing, _ => !dirty
  | _, _ => false

def Hunk.promptIndex {HunkId Path : Type*} (h : Hunk HunkId Path) : Option ℕ :=
  h.source.promptIndex

namespace Tracker

variable {HunkId : Type*} [DecidableEq HunkId]

/-! ## Queries -/

/-- The hunks of a file, none when it is not tracked. -/
def hunksAt (s : Tracker HunkId) (path : PathBuf) : List (Hunk HunkId PathBuf) :=
  match s.fileStates.lookup path with
  | none => []
  | some st => st.hunks

/-- The hunks over all tracked files. -/
def liveHunks (s : Tracker HunkId) : List (Hunk HunkId PathBuf) :=
  s.fileStates.keys.flatMap s.hunksAt

def getHunk (s : Tracker HunkId) (hunkId : HunkId) : Option (Hunk HunkId PathBuf) :=
  s.liveHunks.find? fun h => h.id == hunkId

def getHunksForTurn (s : Tracker HunkId) (promptIndex : ℕ) : List (Hunk HunkId PathBuf) :=
  (s.turnIndex promptIndex).filterMap s.getHunk

/-! ## State changes -/

def sendEvents (s : Tracker HunkId) (events : List (HunkEvent HunkId PathBuf)) :
    Tracker HunkId :=
  { s with events := s.events ++ events }

def setFile (s : Tracker HunkId) (path : PathBuf) (st : FileHunkState HunkId) :
    Tracker HunkId :=
  { s with fileStates := s.fileStates.insert path st }

/-- Start to track a file, with no hunks yet. -/
def track (s : Tracker HunkId) (path : PathBuf) (baseline current : FileContentState)
    (isAgentFile : Bool) : Tracker HunkId :=
  (s.setFile path
    { baseline, currentContent := current, hunks := [], isAgentFile, baselineAccepted := false
      }).sendEvents [.fileAdded path isAgentFile]

def removeFromTurnIndex (s : Tracker HunkId) (hunks : List (Hunk HunkId PathBuf)) :
    Tracker HunkId :=
  { s with turnIndex := unlist Hunk.id Hunk.promptIndex hunks s.turnIndex }

/-- The removal events of hunks that go together. -/
def removedEvents (path : PathBuf) (hunks : List (Hunk HunkId PathBuf))
    (reason : HunkRemovalReason) : List (HunkEvent HunkId PathBuf) :=
  hunks.map fun h => .hunkRemoved path h.id reason

section Mutations

variable (diffLines : Str → Str → Option (List Change)) (newId : ℕ → HunkId)

def recomputeHunks (s : Tracker HunkId) (path : PathBuf) (newCurrent : Option FileContentState)
    (source : HunkSource) : Tracker HunkId :=
  match s.fileStates.lookup path with
  | none => s
  | some st =>
    let current := newCurrent.getD .missing
    let r := HunkTracker.recomputeHunks diffLines (fun k => newId (s.nextId + k)) path
      st.baseline current source st.hunks
    { s with
      fileStates := s.fileStates.insert path { st with currentContent := current, hunks := r.1 }
      turnIndex := enlist Hunk.id Hunk.promptIndex r.1
        (unlist Hunk.id Hunk.promptIndex st.hunks s.turnIndex)
      events := s.events ++ r.2
      nextId := s.nextId + r.1.length }

variable (w : World)

def isDirty (s : Tracker HunkId) (path : PathBuf) : Bool :=
  s.gitDirtyCache.contains ((path.stripPrefix s.workingDir).getD path)

def recordAgentWrite (s : Tracker HunkId) (path : PathBuf) (content : Str) (promptIndex : ℕ)
    (previousContent : Option Str) : Tracker HunkId :=
  let current := classifyString content
  if !current.isDiffable then
    match s.fileStates.lookup path with
    | none =>
      let baseline := match previousContent with
        | some prev => classifyString prev
        | none => (w.files path).head
      s.track path baseline current true
    -- the hunks go, and their ids stay in the turn index
    | some st =>
      s.setFile path { st with isAgentFile := true, currentContent := current, hunks := [] }
  else
    let s := match s.fileStates.lookup path with
      | none =>
        let baseline := match (w.files path).head with
          | .missing => (previousContent.map classifyString).getD .missing
          | other => other
        s.track path baseline current true
      | some st => s.setFile path { st with isAgentFile := true }
    s.recomputeHunks diffLines newId path (some current) (.agentEdit promptIndex)

def externalSource (isAgentFile : Bool) : HunkSource :=
  if isAgentFile then .externalEditOnAgentFile else .external

def processFileChange (s : Tracker HunkId) (path : PathBuf)
    (preloadedBaseline : Option FileContentState) : Tracker HunkId :=
  let current := (w.files path).content
  let baseline := preloadedBaseline.getD (w.files path).head
  match s.fileStates.lookup path with
  | none =>
    if s.mode = .agentOnly then s
    -- not in HEAD and not dirty: ignored by git
    else if baseline = .missing ∧ ¬(w.files path).isDir ∧ ¬s.isDirty path then s
    else if !current.isDiffable then
      let s := s.track path baseline current false
      if baseline.isDiffable then s.recomputeHunks diffLines newId path none .external else s
    else
      (s.track path baseline .missing false).recomputeHunks diffLines newId path
        (some current) .external
  | some st =>
    if st.baselineAccepted ∧ contentMatchesHead (s.isDirty path) current baseline then
      s.setFile path
        { st with baseline, currentContent := baseline, baselineAccepted := false, hunks := [] }
    else
      s.recomputeHunks diffLines newId path (some current) (externalSource st.isAgentFile)

def handleFileChange (s : Tracker HunkId) (path : PathBuf) : Tracker HunkId :=
  s.processFileChange diffLines newId w path none

/-- The loop of `handle_file_changes_batch`; a baseline read in advance is used once. -/
def processBatch (s : Tracker HunkId) (baselines : PathBuf → Option FileContentState) :
    List PathBuf → Tracker HunkId
  | [] => s
  | path :: paths =>
    (s.processFileChange diffLines newId w path (baselines path)).processBatch
      (Function.update baselines path none) paths

def handleFileChangesBatch (s : Tracker HunkId) (paths : List PathBuf) : Tracker HunkId :=
  let wanted := paths.filter fun p =>
    match s.fileStates.lookup p with
    | none => s.mode != .agentOnly
    | some st => st.baselineAccepted
  s.processBatch diffLines newId w (fun p => if p ∈ wanted then w.batchHead p else none) paths

def handleFileDeleted (s : Tracker HunkId) (path : PathBuf) : Tracker HunkId :=
  match s.fileStates.lookup path with
  | none =>
    if s.mode = .agentOnly then s
    else if (w.files path).pathExists then s
    else if (w.files path).head = .missing then s
    else
      (s.track path (w.files path).head .missing false).recomputeHunks diffLines newId path none
        .external
  | some st =>
    if (w.files path).pathExists then s.handleFileChange diffLines newId w path
    else s.recomputeHunks diffLines newId path none (externalSource st.isAgentFile)

def resetBaseline (s : Tracker HunkId) (path : PathBuf) : Tracker HunkId :=
  match s.fileStates.lookup path with
  | none => s
  | some st =>
    ((s.setFile path
      { st with baseline := st.currentContent, baselineAccepted := false, hunks := []
        }).removeFromTurnIndex st.hunks).sendEvents
      (removedEvents path st.hunks .superseded ++ [.baselineUpdated path])

def refreshGitDirtyCache (s : Tracker HunkId) : Tracker HunkId :=
  match w.status with
  | none => s
  | some (dirty, staged) =>
    let pathsToTrack := (w.order dirty).filter fun p =>
      (s.fileStates.lookup (s.workingDir.join p)).isNone
    let s := { s with gitDirtyCache := dirty, gitStagedCache := staged }
    if s.mode = .allDirty then
      pathsToTrack.foldl
        (fun s p => s.handleFileChange diffLines newId w (s.workingDir.join p)) s
    else s

/-- A file that is no longer tracked. -/
def dropFile (s : Tracker HunkId) (path : PathBuf) (st : FileHunkState HunkId) :
    Tracker HunkId :=
  let s := { s with fileStates := s.fileStates.erase path }
  (s.removeFromTurnIndex st.hunks).sendEvents
    (removedEvents path st.hunks .superseded ++ [.fileRemoved path])

/-- One file of `refresh_all_baselines`. -/
def refreshFile (s : Tracker HunkId) (path : PathBuf) : Tracker HunkId :=
  match s.fileStates.lookup path with
  | none => s
  | some st =>
    let baseline := (w.batchHead path).getD .missing
    let current := w.contents path
    let st := { st with baseline, currentContent := current, baselineAccepted := false }
    if isClean (s.isDirty path) (w.files path).pathExists baseline current then
      if st.isAgentFile then
        ((s.setFile path { st with hunks := [] }).removeFromTurnIndex st.hunks).sendEvents
          (removedEvents path st.hunks .superseded ++ [.baselineUpdated path])
      else s.dropFile path st
    else
      ((s.setFile path st).recomputeHunks diffLines newId path (some current)
        (externalSource st.isAgentFile)).sendEvents [.baselineUpdated path]

def refreshAllBaselinesExcept (s : Tracker HunkId) (skip : List PathBuf) : Tracker HunkId :=
  if s.mode = .agentOnly ∧ s.fileStates.keys = [] then s
  else if w.syncState = some s.repoSyncState then s
  else
    let s := { s with repoSyncState := w.syncState.getD s.repoSyncState }
    let s :=
      if s.mode = .agentOnly ∧
          (s.fileStates.keys.filterMap fun p => p.stripPrefix s.workingDir) = [] then
        { s with gitDirtyCache := [], gitStagedCache := [] }
      else s.refreshGitDirtyCache diffLines newId w
    ((w.order s.fileStates.keys).filter fun p => p ∉ skip).foldl
      (fun s p => s.refreshFile diffLines newId w p) s

def setMode (s : Tracker HunkId) (mode : TrackingMode) : Tracker HunkId :=
  let oldMode := s.mode
  let s := { s with mode }
  if oldMode = .agentOnly ∧ mode = .allDirty then s.refreshGitDirtyCache diffLines newId w
  else if oldMode = .allDirty ∧ mode = .agentOnly then
    let nonAgentPaths := (w.order s.fileStates.keys).filter fun p =>
      match s.fileStates.lookup p with
      | none => false
      | some st => !st.isAgentFile
    nonAgentPaths.foldl (fun s p =>
      match s.fileStates.lookup p with
      | none => s
      | some st => s.dropFile p st) s
  else s

end Mutations

end Tracker

end GrokBuild.HunkTracker
