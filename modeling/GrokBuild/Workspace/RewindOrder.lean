import GrokBuild.Lib.LastWrite
import GrokBuild.Text.PathBuf
import GrokBuild.Workspace.RewindSession

/-!
# Rewinding over two spellings of a path

An older session stores absolute paths, a newer one paths relative to its directory, and one hash
map can hold both for one file. `rewind_files` and `normalize_to_relative` then go through the
entries in the order of the map.
-/

namespace GrokBuild.Workspace

open FileStateTracker GrokBuild.FiniteMap GrokBuild.LastWrite Text

structure RelPathBuf where
  components : List Str
deriving DecidableEq

inductive FlexiblePath where
  | relative (path : RelPathBuf)
  | absolute (path : PathBuf)
deriving DecidableEq

namespace FlexiblePath

end FlexiblePath

variable {C : Type*}

/-- A snapshot, with its own path left to the key. -/
structure FileSnapshot (C : Type*) where
  content : Option C
  capturedAt : ℕ
deriving DecidableEq

/-- A rewind point as the hash maps hold it. -/
structure StoredPoint (C : Type*) where
  promptIndex : ℕ
  fileSnapshots : AList fun _ : FlexiblePath => FileSnapshot C
  afterSnapshots : AList fun _ : FlexiblePath => FileSnapshot C

/-- The contents of a map of snapshots. -/
def contentsOf (snapshots : AList fun _ : FlexiblePath => FileSnapshot C) :
    Snapshots FlexiblePath C where
  entries := snapshots.entries.map fun entry => ⟨entry.1, entry.2.content⟩
  nodupKeys := by
    rw [List.NodupKeys, List.keys, List.map_map]
    exact snapshots.nodupKeys

def StoredPoint.contents (point : StoredPoint C) : RewindPoint FlexiblePath C where
  promptIndex := point.promptIndex
  fileSnapshots := contentsOf point.fileSnapshots
  afterSnapshots := contentsOf point.afterSnapshots

/-! ## The two loops -/

variable {root : PathBuf} {points : List (StoredPoint C)} {target : ℕ}

/-! ## Loops as writes -/

/-- The directory of the session. -/
def workDir : PathBuf := ⟨true, ["w".toList]⟩

def pointOf (promptIndex : ℕ) (key : FlexiblePath) (content : String) : StoredPoint String where
  promptIndex
  fileSnapshots := AList.singleton key { content := some content, capturedAt := promptIndex }
  afterSnapshots := ∅

end GrokBuild.Workspace
