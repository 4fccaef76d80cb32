import GrokBuild.ApplyPatch.Apply
import Mathlib.Logic.Function.Basic

/-!
# The tool

The tool computes the changes of all hunks from the files as they are, and then writes them
one after another. Writes succeed here; the removal of a file succeeds when it is there.
-/

namespace GrokBuild.ApplyPatch

open Text

inductive Hunk
  | addFile (path : PathBuf) (contents : Str)
  | deleteFile (path : PathBuf)
  | updateFile (path : PathBuf) (movePath : Option PathBuf) (chunks : List UpdateFileChunk)
deriving DecidableEq

inductive FileChange
  | add (path : PathBuf) (content : Str)
  | delete (path : PathBuf) (originalContent : Str)
  | update (path : PathBuf) (originalContent newContent : Str)
  | move (sourcePath destPath : PathBuf) (originalContent newContent : Str)
deriving DecidableEq

/-- The bytes of the files, by where they are. -/
abbrev FileSystem (Loc : Type*) := Loc → Option (List UInt8)

/-- The side of the operating system: where a path leads, how bytes are read as text
(`from_utf8_lossy`) and what an error says. -/
structure Platform (Loc : Type*) where
  locate : PathBuf → Loc
  lossy : List UInt8 → Str
  notFound : PathBuf → Str

/-- `str::as_bytes`. -/
def asBytes (s : Str) : List UInt8 := s.flatMap String.utf8EncodeChar

structure FileWritten where
  absolutePath : PathBuf
  content : Str
  previousContent : Option Str
  isNewFile : Bool
deriving DecidableEq

inductive FileAction
  | added
  | deleted
  | modified
  | moved
deriving DecidableEq

structure ApplyPatchFileResult where
  path : PathBuf
  action : FileAction
  oldText : Option Str
  newText : Str
  moveTo : Option PathBuf
deriving DecidableEq

inductive ApplyPatchOutput
  | emptyPatch (message : Str)
  | applicationError (message : Str)
  | success (files : List ApplyPatchFileResult) (toolOutputForPrompt : Str)
deriving DecidableEq

section Tool

variable {Loc : Type*} (os : Platform Loc) (cwd : PathBuf)

def readFileAsString (fs : FileSystem Loc) (path : PathBuf) : Except Str Str :=
  match fs (os.locate path) with
  | none => .error (os.notFound path)
  | some bytes => .ok (os.lossy bytes)

/-! ## Computing the changes -/

def readError (what : Str) (path : PathBuf) (e : Str) : Str :=
  what ++ path.display ++ ", ".toList ++ e

/-- The change of one hunk, from the files in `fs`. -/
def computeChange (fs : FileSystem Loc) : Hunk → Except Str FileChange
  | .addFile path contents => .ok (.add (cwd.join path) contents)
  | .deleteFile path => do
    let resolved := cwd.join path
    let original ← (readFileAsString os fs resolved).mapError
      (readError "Failed to read file: ".toList resolved)
    .ok (.delete resolved original)
  | .updateFile path movePath chunks => do
    let resolved := cwd.join path
    let original ← (readFileAsString os fs resolved).mapError
      (readError "Failed to read file to update: ".toList resolved)
    let new ← deriveNewContents original resolved chunks
    match movePath with
    | some dest => .ok (.move resolved (cwd.join dest) original new)
    | none => .ok (.update resolved original new)

def computeAllChanges (fs : FileSystem Loc) (hunks : List Hunk) :
    Except Str (List FileChange) :=
  hunks.mapM (computeChange os cwd fs)

/-! ## Writing them -/

variable [DecidableEq Loc]

def writeFile (fs : FileSystem Loc) (path : PathBuf) (content : Str) : FileSystem Loc :=
  Function.update fs (os.locate path) (some (asBytes content))

def deleteFile (fs : FileSystem Loc) (path : PathBuf) : FileSystem Loc × Except Str Unit :=
  match fs (os.locate path) with
  | none => (fs, .error (os.notFound path))
  | some _ => (Function.update fs (os.locate path) none, .ok ())

def writeChange (fs : FileSystem Loc) : FileChange → FileSystem Loc × Except Str Unit
  | .add path content => (writeFile os fs path content, .ok ())
  | .delete path _ => deleteFile os fs path
  | .update path _ new => (writeFile os fs path new, .ok ())
  | .move source dest _ new => deleteFile os (writeFile os fs dest new) source

def FileChange.notifications : FileChange → List FileWritten
  | .add path content => [⟨path, content, none, true⟩]
  | .delete path original => [⟨path, [], some original, false⟩]
  | .update path original new => [⟨path, new, some original, false⟩]
  | .move source dest original new =>
    [⟨dest, new, none, true⟩, ⟨source, [], some original, false⟩]

def FileChange.result : FileChange → ApplyPatchFileResult
  | .add path content => ⟨path, .added, none, content, none⟩
  | .delete path original => ⟨path, .deleted, some original, [], none⟩
  | .update path original new => ⟨path, .modified, some original, new, none⟩
  | .move source dest original new => ⟨source, .moved, some original, new, some dest⟩

def FileAction.letter : FileAction → Char
  | .added => 'A'
  | .deleted => 'D'
  | .modified => 'M'
  | .moved => 'M'

def buildSummary (results : List ApplyPatchFileResult) : Str :=
  "Success. Updated the following files:\n".toList ++
    results.flatMap fun r => r.action.letter :: ' ' :: r.path.display ++ ['\n']

/-- The files after a run, what it told about them and its output. -/
structure PatchRun (Loc Out : Type*) where
  fs : FileSystem Loc
  notifications : List FileWritten
  output : Except Str Out

/-- The third phase. It stops at the first file that cannot be removed. -/
def writeChanges : FileSystem Loc → List FileChange → PatchRun Loc Unit
  | fs, [] => ⟨fs, [], .ok ()⟩
  | fs, change :: changes =>
    match writeChange os fs change with
    | (fs, .error e) => ⟨fs, [], .error e⟩
    | (fs, .ok _) =>
      let rest := writeChanges fs changes
      { rest with notifications := change.notifications ++ rest.notifications }

def run (fs : FileSystem Loc) (hunks : List Hunk) : PatchRun Loc ApplyPatchOutput :=
  if hunks.isEmpty then ⟨fs, [], .ok (.emptyPatch "No files were modified.".toList)⟩
  else
    match computeAllChanges os cwd fs hunks with
    | .error message => ⟨fs, [], .ok (.applicationError message)⟩
    | .ok changes =>
      let written := writeChanges os fs changes
      let results := changes.map FileChange.result
      { fs := written.fs
        notifications := written.notifications
        output := written.output.map fun _ => .success results (buildSummary results) }

end Tool

end GrokBuild.ApplyPatch
