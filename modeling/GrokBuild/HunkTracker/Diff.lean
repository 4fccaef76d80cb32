import Mathlib
import GrokBuild.Text.Lines

/-!
# Hunks

The records of the hunk tracker that its algorithms read: line positions, the source of an
edit and the old and new text. The ids and the paths stay type parameters.
-/

namespace GrokBuild.HunkTracker

open Text

structure HunkLineInfo where
  oldStart : ℕ
  oldCount : ℕ
  newStart : ℕ
  newCount : ℕ
deriving DecidableEq, Repr

inductive HunkSource
  | agentEdit (promptIndex : ℕ)
  | externalEditOnAgentFile
  | external
deriving DecidableEq, Repr

namespace HunkSource

def isAgentEdit : HunkSource → Bool
  | agentEdit _ => true
  | _ => false

def isExternal : HunkSource → Bool
  | external | externalEditOnAgentFile => true
  | agentEdit _ => false

def promptIndex : HunkSource → Option ℕ
  | agentEdit p => some p
  | _ => none

end HunkSource

structure Hunk (HunkId Path : Type*) where
  id : HunkId
  path : Path
  lineInfo : HunkLineInfo
  source : HunkSource
  oldText : Option Str
  newText : Str
deriving DecidableEq, Repr

namespace Hunk

variable {HunkId Path : Type*}

/-- A hunk for a whole file that has no baseline. -/
def fileCreated (id : HunkId) (path : Path) (content : Str) (source : HunkSource) :
    Hunk HunkId Path where
  id
  path
  lineInfo := { oldStart := 0, oldCount := 0, newStart := 1,
                newCount := max (lines content).length 1 }
  source
  oldText := none
  newText := content

/-- A hunk for a whole file that is gone. -/
def fileDeleted (id : HunkId) (path : Path) (content : Str) (source : HunkSource) :
    Hunk HunkId Path where
  id
  path
  lineInfo := { oldStart := 1, oldCount := max (lines content).length 1,
                newStart := 0, newCount := 0 }
  source
  oldText := some content
  newText := []

end Hunk

/-!
## Computing and applying hunks

`compute_hunks` folds a line diff into hunks and `patch_lines` applies one of them. The
line diff itself comes from a library and is a parameter: `none` stands for a run that hit
the timeout.
-/

inductive ChangeTag
  | equal
  | delete
  | insert
deriving DecidableEq, Repr

structure Change where
  tag : ChangeTag
  value : Str
deriving DecidableEq, Repr

/-- How the diff library cuts a text into lines: after `\n`, `\r\n` or a lone `\r`. -/
def tokenizeLines : Str → List Str
  | [] => []
  | c :: s =>
    if c = '\n' ∨ (c = '\r' ∧ s.head? ≠ some '\n') then [c] :: tokenizeLines s
    else
      match tokenizeLines s with
      | [] => [[c]]
      | piece :: pieces => (c :: piece) :: pieces

def byteLen (s : Str) : ℕ := (s.map Char.utf8Size).sum

def maxDiffFileSize : ℕ := 1024 * 1024

structure HunkBuilder where
  oldStart : ℕ
  newStart : ℕ
  oldLines : List Str := []
  newLines : List Str := []

section Compute

variable {HunkId Path : Type*}

def HunkBuilder.build (self : HunkBuilder) (id : HunkId) (path : Path) (source : HunkSource) :
    Hunk HunkId Path where
  id
  path
  lineInfo := { oldStart := self.oldStart, oldCount := self.oldLines.length,
                newStart := self.newStart, newCount := self.newLines.length }
  source
  oldText := if self.oldLines.isEmpty then none else some self.oldLines.flatten
  newText := self.newLines.flatten

/-- The variables of the loop over the changes. -/
structure DiffLoop (HunkId Path : Type*) where
  hunks : List (Hunk HunkId Path) := []
  oldLine : ℕ := 1
  newLine : ℕ := 1
  currentHunk : Option HunkBuilder := none

namespace DiffLoop

variable (newId : ℕ → HunkId) (path : Path) (source : HunkSource)

/-- Finalize the hunk in progress, if any. The `k`-th hunk built gets the `k`-th fresh id. -/
def finalize (l : DiffLoop HunkId Path) : DiffLoop HunkId Path :=
  match l.currentHunk with
  | none => l
  | some builder =>
    { l with
      hunks := l.hunks ++ [builder.build (newId l.hunks.length) path source]
      currentHunk := none }

def step (l : DiffLoop HunkId Path) (change : Change) : DiffLoop HunkId Path :=
  match change.tag with
  | .equal =>
    let l := l.finalize newId path source
    { l with oldLine := l.oldLine + 1, newLine := l.newLine + 1 }
  | .delete =>
    let hunk := l.currentHunk.getD { oldStart := l.oldLine, newStart := l.newLine }
    { l with
      currentHunk := some { hunk with oldLines := hunk.oldLines ++ [change.value] }
      oldLine := l.oldLine + 1 }
  | .insert =>
    let hunk := l.currentHunk.getD { oldStart := l.oldLine, newStart := l.newLine }
    { l with
      currentHunk := some { hunk with newLines := hunk.newLines ++ [change.value] }
      newLine := l.newLine + 1 }

end DiffLoop

def hunksOfChanges (newId : ℕ → HunkId) (path : Path) (source : HunkSource)
    (changes : List Change) : List (Hunk HunkId Path) :=
  ((changes.foldl (DiffLoop.step newId path source) {}).finalize newId path source).hunks

def computeHunks (diffLines : Str → Str → Option (List Change)) (newId : ℕ → HunkId)
    (path : Path) (baseline current : Str) (source : HunkSource) : List (Hunk HunkId Path) :=
  if baseline = current then []
  else if byteLen baseline > maxDiffFileSize ∨ byteLen current > maxDiffFileSize then []
  else
    match diffLines baseline current with
    | none => []
    | some changes => hunksOfChanges newId path source changes

end Compute

/-- Replace lines in `content` from `startLine` (1-indexed): `removeCount` lines go and the
lines of `insertText` come in. -/
def patchLines (content : Str) (startLine removeCount : ℕ) (insertText : Str) : Str :=
  let ls := lines content
  let startIdx := startLine - 1
  let before := ls.take (min startIdx ls.length)
  let inserted := if insertText.isEmpty then [] else lines insertText
  let endIdx := min (startIdx + removeCount) ls.length
  rebuild (before ++ inserted ++ ls.drop endIdx) (endsNl content)

section Batch

variable {HunkId Path : Type*}

/-- The patch loop of `reject_hunks_batch`, from the end of the file to its beginning. -/
def rejectPatches (current : Str) (hunks : List (Hunk HunkId Path)) : Str :=
  let sorted := hunks.mergeSort fun a b => decide (b.lineInfo.newStart ≤ a.lineInfo.newStart)
  sorted.foldl (fun current hunk =>
    patchLines current hunk.lineInfo.newStart hunk.lineInfo.newCount (hunk.oldText.getD []))
    current

/-- The patch loop of `accept_hunks_batch`. -/
def acceptPatches (baseline : Str) (hunks : List (Hunk HunkId Path)) : Str :=
  let sorted := hunks.mergeSort fun a b => decide (b.lineInfo.oldStart ≤ a.lineInfo.oldStart)
  sorted.foldl (fun baseline hunk =>
    patchLines baseline hunk.lineInfo.oldStart hunk.lineInfo.oldCount hunk.newText)
    baseline

end Batch

end GrokBuild.HunkTracker
