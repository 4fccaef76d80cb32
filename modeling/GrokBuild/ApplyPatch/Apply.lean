import GrokBuild.Text.Lines
import GrokBuild.Text.PathBuf
import Mathlib.Data.List.Sort

/-!
# Applying chunks to a text

The pure part of the patch engine: the chunks of an `Update File` section are searched in
the lines of the file, with decreasing strictness, and replaced from the last to the first.
-/

namespace GrokBuild.ApplyPatch

open Text

structure UpdateFileChunk where
  changeContext : Option Str := none
  oldLines : List Str
  newLines : List Str
  isEndOfFile : Bool := false
deriving DecidableEq, Repr

/-! ## Searching -/

def trimEnd (s : Str) : Str := trimEndMatches isWhitespace s

/-- Typographic punctuation and spaces become their ASCII counterparts. -/
def normaliseChar (c : Char) : Char :=
  if c ∈ ['\u2010', '\u2011', '\u2012', '\u2013', '\u2014', '\u2015', '\u2212'] then '-'
  else if c ∈ ['\u2018', '\u2019', '\u201A', '\u201B'] then Char.ofNat 0x27
  else if c ∈ ['\u201C', '\u201D', '\u201E', '\u201F'] then Char.ofNat 0x22
  else if c ∈ ['\u00A0', '\u2002', '\u2003', '\u2004', '\u2005', '\u2006', '\u2007', '\u2008',
      '\u2009', '\u200A', '\u202F', '\u205F', '\u3000'] then ' '
  else c

def normalise (s : Str) : Str := (trim s).map normaliseChar

/-- One pass: the first place from `start` on where the pattern is, up to `norm`. -/
def seekPass (norm : Str → Str) (lines pattern : List Str) (start : ℕ) : Option ℕ :=
  (List.range' start (lines.length - pattern.length + 1 - start)).find? fun i =>
    ((lines.drop i).take pattern.length).map norm == pattern.map norm

def seekSequence (lines pattern : List Str) (start : ℕ) (eof : Bool) : Option ℕ :=
  if pattern.isEmpty then some start
  else if pattern.length > lines.length then none
  else
    let searchStart := if eof then lines.length - pattern.length else start
    (seekPass id lines pattern searchStart).or <|
      (seekPass trimEnd lines pattern searchStart).or <|
        (seekPass trim lines pattern searchStart).or <|
          seekPass normalise lines pattern searchStart

/-! ## Replacing -/

structure Replacement where
  start : ℕ
  oldLen : ℕ
  newLines : List Str
deriving DecidableEq, Repr

def lastIsEmpty (ls : List Str) : Bool := ls.getLast? == some []

/-- Where the old lines of a chunk are. When they end with an empty line that is not there,
the search is repeated without it. -/
def findChunk (lines : List Str) (chunk : UpdateFileChunk) (lineIndex : ℕ) :
    Option Replacement :=
  match seekSequence lines chunk.oldLines lineIndex chunk.isEndOfFile with
  | some start => some ⟨start, chunk.oldLines.length, chunk.newLines⟩
  | none =>
    if lastIsEmpty chunk.oldLines then
      let pattern := chunk.oldLines.dropLast
      let newLines := if lastIsEmpty chunk.newLines then chunk.newLines.dropLast
        else chunk.newLines
      (seekSequence lines pattern lineIndex chunk.isEndOfFile).map fun start =>
        ⟨start, pattern.length, newLines⟩
    else none

def contextNotFound (ctx : Str) (path : PathBuf) : Str :=
  "Failed to find context '".toList ++ ctx ++ "' in ".toList ++ path.display

def linesNotFound (oldLines : List Str) (path : PathBuf) : Str :=
  "Failed to find expected lines in ".toList ++ path.display ++ ":\n".toList ++
    joinLines oldLines

/-- The loop of `compute_replacements`, from a line of the file on. -/
def computeFrom (lines : List Str) (path : PathBuf) :
    ℕ → List UpdateFileChunk → Except Str (List Replacement)
  | _, [] => .ok []
  | lineIndex, chunk :: chunks => do
    let lineIndex ← match chunk.changeContext with
      | none => .ok lineIndex
      | some ctx =>
        match seekSequence lines [ctx] lineIndex false with
        | some idx => .ok (idx + 1)
        | none => .error (contextNotFound ctx path)
    if chunk.oldLines.isEmpty then
      -- a pure addition goes to the end, before a final empty line
      let insertionIdx := if lastIsEmpty lines then lines.length - 1 else lines.length
      let rest ← computeFrom lines path lineIndex chunks
      .ok (⟨insertionIdx, 0, chunk.newLines⟩ :: rest)
    else
      match findChunk lines chunk lineIndex with
      | none => .error (linesNotFound chunk.oldLines path)
      | some r =>
        let rest ← computeFrom lines path (r.start + r.oldLen) chunks
        .ok (r :: rest)

def computeReplacements (originalLines : List Str) (path : PathBuf)
    (chunks : List UpdateFileChunk) : Except Str (List Replacement) := do
  let replacements ← computeFrom originalLines path 0 chunks
  .ok (replacements.insertionSort fun a b => a.start ≤ b.start)

def removeLines (start : ℕ) : ℕ → List Str → List Str
  | 0, ls => ls
  | n + 1, ls => removeLines start n (if start < ls.length then ls.eraseIdx start else ls)

def insertLines (start : ℕ) : List Str → List Str → List Str
  | [], ls => ls
  | line :: segment, ls => insertLines (start + 1) segment (ls.insertIdx start line)

def applyReplacements (ls : List Str) (replacements : List Replacement) : List Str :=
  replacements.reverse.foldl
    (fun ls r => insertLines r.start r.newLines (removeLines r.start r.oldLen ls)) ls

def deriveNewContents (originalContent : Str) (path : PathBuf)
    (chunks : List UpdateFileChunk) : Except Str Str := do
  let split := splitOnChar '\n' originalContent
  let originalLines := if lastIsEmpty split then split.dropLast else split
  let replacements ← computeReplacements originalLines path chunks
  let newLines := applyReplacements originalLines replacements
  .ok (joinLines (if lastIsEmpty newLines then newLines else newLines ++ [[]]))

end GrokBuild.ApplyPatch
