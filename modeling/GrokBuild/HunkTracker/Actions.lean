import Mathlib
import GrokBuild.HunkTracker.Actor
import GrokBuild.Lib.StepRun

/-!
# Accepting and rejecting hunks

Accepting patches the baseline, rejecting patches the file. Both first count the hunks in
the session statistics and take them out of the turn index. The commands of the actor,
these included, make up its step.
-/

namespace GrokBuild.HunkTracker

open Text SecondaryIndex

inductive HunkAction
  | accept
  | reject
deriving DecidableEq, Repr

inductive HunkActionError (HunkId : Type*)
  | hunkNotFound (hunkId : HunkId)
  | writeError (path : PathBuf)
  | deleteError (path : PathBuf)
deriving DecidableEq

/-- `usize::saturating_add`. -/
def saturatingAdd (a b : ℕ) : ℕ := min (a + b) (2 ^ 64 - 1)

def SessionStats.update (stats : SessionStats) (lineInfo : HunkLineInfo) (action : HunkAction) :
    SessionStats :=
  match action with
  | .accept =>
    { stats with
      acceptedHunks := saturatingAdd stats.acceptedHunks 1
      acceptedLinesAdded := saturatingAdd stats.acceptedLinesAdded lineInfo.newCount
      acceptedLinesRemoved := saturatingAdd stats.acceptedLinesRemoved lineInfo.oldCount }
  | .reject =>
    { stats with
      rejectedHunks := saturatingAdd stats.rejectedHunks 1
      rejectedLinesAdded := saturatingAdd stats.rejectedLinesAdded lineInfo.newCount
      rejectedLinesRemoved := saturatingAdd stats.rejectedLinesRemoved lineInfo.oldCount }

namespace Tracker

variable {HunkId : Type*} [DecidableEq HunkId]

section Actions

variable (diffLines : Str → Str → Option (List Change)) (newId : ℕ → HunkId) (w : World)

def updateSessionStats (s : Tracker HunkId) (lineInfo : HunkLineInfo) (action : HunkAction) :
    Tracker HunkId :=
  { s with sessionStats := s.sessionStats.update lineInfo action }

/-- The hunks of a file that stay when some are accepted or rejected. -/
def retained (hunks out : List (Hunk HunkId PathBuf)) : List (Hunk HunkId PathBuf) :=
  hunks.filter fun h => !(out.map Hunk.id).contains h.id

/-- The source that the remaining hunks of a file are recomputed with. -/
def remainingSource (s : Tracker HunkId) (path : PathBuf) : HunkSource :=
  ((s.hunksAt path).head?.map Hunk.source).getD .external

def acceptHunksBatch (s : Tracker HunkId) (path : PathBuf) (hunks : List (Hunk HunkId PathBuf)) :
    Tracker HunkId :=
  if hunks = [] then s
  else
    match s.fileStates.lookup path with
    | none => s
    | some st =>
      let events := removedEvents path hunks .accepted ++ [.baselineUpdated path]
      match st.baseline with
      | .missing =>
        (s.setFile path
          { st with
            baseline := st.currentContent, baselineAccepted := true
            hunks := retained st.hunks hunks }).sendEvents events
      | baseline =>
        let patched := match baseline with
          | .full b => .full (acceptPatches b hunks)
          | other => other
        let s := (s.setFile path
          { st with
            baseline := patched, baselineAccepted := true
            hunks := retained st.hunks hunks }).sendEvents events
        s.recomputeHunks diffLines newId path (some st.currentContent) (s.remainingSource path)

/-- The state after the file operation of a rejection went through. -/
def rejected (s : Tracker HunkId) (path : PathBuf) (st : FileHunkState HunkId)
    (current : FileContentState) (hunks : List (Hunk HunkId PathBuf)) : Tracker HunkId :=
  (s.setFile path
    { st with currentContent := current, hunks := retained st.hunks hunks }).sendEvents
    (removedEvents path hunks .rejected)

def rejectHunksBatch (s : Tracker HunkId) (path : PathBuf) (hunks : List (Hunk HunkId PathBuf)) :
    Tracker HunkId × Except (HunkActionError HunkId) Unit :=
  if hunks = [] then (s, .ok ())
  else
    match s.fileStates.lookup path with
    | none => (s, .ok ())
    | some st =>
      match st.currentContent, st.baseline with
      -- the file was deleted: restore it
      | .missing, .full baseline =>
        if (w.files path).writable then (s.rejected path st (.full baseline) hunks, .ok ())
        else (s, .error (.writeError path))
      -- the file was created: delete it
      | .full _, .missing =>
        if (w.files path).writable then (s.rejected path st .missing hunks, .ok ())
        else (s, .error (.deleteError path))
      | .full current, _ =>
        if (w.files path).writable then
          let patched := .full (rejectPatches current hunks)
          let s := s.rejected path st patched hunks
          (s.recomputeHunks diffLines newId path (some patched) (s.remainingSource path), .ok ())
        else (s, .error (.writeError path))
      | _, _ => (s, .ok ())

def acceptHunk (s : Tracker HunkId) (path : PathBuf) (hunk : Hunk HunkId PathBuf) :
    Tracker HunkId :=
  match s.fileStates.lookup path with
  | none => s
  | some st =>
    let events := [.hunkRemoved path hunk.id .accepted, .baselineUpdated path]
    let hunks := st.hunks.filter fun h => h.id != hunk.id
    match st.baseline with
    | .missing =>
      (s.setFile path
        { st with baseline := st.currentContent, baselineAccepted := true, hunks }).sendEvents
        events
    | baseline =>
      let patched := match baseline with
        | .full b =>
          .full (patchLines b hunk.lineInfo.oldStart hunk.lineInfo.oldCount hunk.newText)
        | other => other
      let s := (s.setFile path
        { st with baseline := patched, baselineAccepted := true, hunks }).sendEvents events
      s.recomputeHunks diffLines newId path (some st.currentContent) (s.remainingSource path)

/-- What `reject_hunk` decides to do. -/
inductive RejectAction
  | restoreDeleted (baseline : Str)
  | deleteCreated
  | revertChange (patched : Str)
  | noOp

def rejectAction (st : FileHunkState HunkId) (hunk : Hunk HunkId PathBuf) : RejectAction :=
  match st.currentContent, st.baseline with
  | .missing, .full baseline => .restoreDeleted baseline
  | .full _, .missing => .deleteCreated
  | .full current, _ =>
    .revertChange (patchLines current hunk.lineInfo.newStart hunk.lineInfo.newCount
      (hunk.oldText.getD []))
  | _, _ => .noOp

def rejectHunk (s : Tracker HunkId) (path : PathBuf) (hunk : Hunk HunkId PathBuf) :
    Tracker HunkId × Except (HunkActionError HunkId) Unit :=
  match s.fileStates.lookup path with
  | none => (s, .ok ())
  | some st =>
    let after := fun current =>
      (s.setFile path
        { st with
          currentContent := current
          hunks := st.hunks.filter fun h => h.id != hunk.id }).sendEvents
        [.hunkRemoved path hunk.id .rejected]
    match rejectAction st hunk with
    | .restoreDeleted baseline =>
      if (w.files path).writable then (after (.full baseline), .ok ())
      else (s, .error (.writeError path))
    | .deleteCreated =>
      if (w.files path).writable then (after .missing, .ok ())
      else (s, .error (.deleteError path))
    | .revertChange patched =>
      if (w.files path).writable then
        let s := after (.full patched)
        (s.recomputeHunks diffLines newId path (some (.full patched)) (s.remainingSource path),
          .ok ())
      else (s, .error (.writeError path))
    | .noOp => (s, .ok ())

/-- The file and the hunk with an id. -/
def findHunk (s : Tracker HunkId) (hunkId : HunkId) : Option (PathBuf × Hunk HunkId PathBuf) :=
  (w.order s.fileStates.keys).findSome? fun path =>
    ((s.hunksAt path).find? fun h => h.id == hunkId).map fun h => (path, h)

def applyHunkAction (s : Tracker HunkId) (hunkId : HunkId) (action : HunkAction) :
    Tracker HunkId × Except (HunkActionError HunkId) Unit :=
  match s.findHunk w hunkId with
  | none => (s, .error (.hunkNotFound hunkId))
  | some (path, hunk) =>
    let s := (s.updateSessionStats hunk.lineInfo action).removeFromTurnIndex [hunk]
    match action with
    | .accept => (s.acceptHunk diffLines newId path hunk, .ok ())
    | .reject => s.rejectHunk diffLines newId w path hunk

/-- The hunks of a file are counted and leave the turn index, before anything is patched. -/
def countOut (s : Tracker HunkId) (hunks : List (Hunk HunkId PathBuf)) (action : HunkAction) :
    Tracker HunkId :=
  hunks.foldl (fun s h => (s.updateSessionStats h.lineInfo action).removeFromTurnIndex [h]) s

/-- One file of a batch. -/
def applyToFile (s : Tracker HunkId) (path : PathBuf) (hunks : List (Hunk HunkId PathBuf))
    (action : HunkAction) : Tracker HunkId × Except (HunkActionError HunkId) Unit :=
  let s := s.countOut hunks action
  match action with
  | .accept => (s.acceptHunksBatch diffLines newId path hunks, .ok ())
  | .reject => s.rejectHunksBatch diffLines newId w path hunks

def applyActionBatch (s : Tracker HunkId) (action : HunkAction) :
    List (PathBuf × List (Hunk HunkId PathBuf)) →
      Tracker HunkId × Except (HunkActionError HunkId) (List HunkId)
  | [] => (s, .ok [])
  | (path, hunks) :: files =>
    match s.applyToFile diffLines newId w path hunks action with
    | (s, .error e) => (s, .error e)
    | (s, .ok _) =>
      match s.applyActionBatch action files with
      | (s, .error e) => (s, .error e)
      | (s, .ok ids) => (s, .ok (hunks.map Hunk.id ++ ids))

/-- The files with hunks that pass a test, in the order of this command. -/
def filesWith (s : Tracker HunkId) (p : Hunk HunkId PathBuf → Bool) :
    List (PathBuf × List (Hunk HunkId PathBuf)) :=
  ((w.order s.fileStates.keys).map fun path => (path, (s.hunksAt path).filter p)).filter
    fun f => !f.2.isEmpty

def applyFileAction (s : Tracker HunkId) (path : PathBuf) (action : HunkAction) :
    Tracker HunkId × Except (HunkActionError HunkId) (List HunkId) :=
  if s.hunksAt path = [] then (s, .ok [])
  else s.applyActionBatch diffLines newId w action [(path, s.hunksAt path)]

def applyAllAction (s : Tracker HunkId) (action : HunkAction) :
    Tracker HunkId × Except (HunkActionError HunkId) (List HunkId) :=
  s.applyActionBatch diffLines newId w action (s.filesWith w fun _ => true)

def applyTurnAction (s : Tracker HunkId) (promptIndex : ℕ) (action : HunkAction) :
    Tracker HunkId × Except (HunkActionError HunkId) (List HunkId) :=
  s.applyActionBatch diffLines newId w action
    (s.filesWith w fun h => h.promptIndex == some promptIndex)

end Actions

end Tracker

/-! ## The commands -/

inductive Command (HunkId : Type*)
  | recordAgentWrite (path : PathBuf) (content : Str) (promptIndex : ℕ)
      (previousContent : Option Str)
  | handleFileChange (path : PathBuf)
  | handleFileChangesBatch (paths : List PathBuf)
  | handleFileDeleted (path : PathBuf)
  | refreshGitDirtyCache
  | resetBaseline (path : PathBuf)
  | refreshAllBaselinesExcept (skip : List PathBuf)
  | setMode (mode : TrackingMode)
  | hunkAction (hunkId : HunkId) (action : HunkAction)
  | fileAction (path : PathBuf) (action : HunkAction)
  | allAction (action : HunkAction)
  | turnAction (promptIndex : ℕ) (action : HunkAction)
  | resetStats

section Commands

variable {HunkId : Type*} [DecidableEq HunkId]

/-- The state after a command, with the outside as it is during the command. -/
def Tracker.step (diffLines : Str → Str → Option (List Change)) (newId : ℕ → HunkId)
    (s : Tracker HunkId) (c : Command HunkId × World) : Tracker HunkId :=
  match c.1 with
  | .recordAgentWrite path content promptIndex previousContent =>
    s.recordAgentWrite diffLines newId c.2 path content promptIndex previousContent
  | .handleFileChange path => s.handleFileChange diffLines newId c.2 path
  | .handleFileChangesBatch paths => s.handleFileChangesBatch diffLines newId c.2 paths
  | .handleFileDeleted path => s.handleFileDeleted diffLines newId c.2 path
  | .refreshGitDirtyCache => s.refreshGitDirtyCache diffLines newId c.2
  | .resetBaseline path => s.resetBaseline path
  | .refreshAllBaselinesExcept skip => s.refreshAllBaselinesExcept diffLines newId c.2 skip
  | .setMode mode => s.setMode diffLines newId c.2 mode
  | .hunkAction hunkId action => (s.applyHunkAction diffLines newId c.2 hunkId action).1
  | .fileAction path action => (s.applyFileAction diffLines newId c.2 path action).1
  | .allAction action => (s.applyAllAction diffLines newId c.2 action).1
  | .turnAction promptIndex action =>
    (s.applyTurnAction diffLines newId c.2 promptIndex action).1
  | .resetStats => { s with sessionStats := {} }

/-- The actor before its first command. -/
def Tracker.new (workingDir : PathBuf) (mode : TrackingMode) : Tracker HunkId :=
  { workingDir, mode }

end Commands

end GrokBuild.HunkTracker
