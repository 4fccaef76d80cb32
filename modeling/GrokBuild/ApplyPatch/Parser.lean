import Mathlib
import GrokBuild.ApplyPatch.Apply

/-!
# Parsing a patch

A patch is parsed line by line. Every loop says how many lines it has consumed, and the loop around
it continues behind them. Lenient mode, the only one in use, takes off a heredoc first.
-/

namespace GrokBuild.ApplyPatch

open Text

def beginPatchMarker : Str := "*** Begin Patch".toList
def endPatchMarker : Str := "*** End Patch".toList
def addFileMarker : Str := "*** Add File: ".toList
def deleteFileMarker : Str := "*** Delete File: ".toList
def updateFileMarker : Str := "*** Update File: ".toList
def moveToMarker : Str := "*** Move to: ".toList
def eofMarker : Str := "*** End of File".toList
def changeContextMarker : Str := "@@ ".toList
def emptyChangeContextMarker : Str := "@@".toList

inductive ParseError
  | invalidPatchError (message : Str)
  | invalidHunkError (message : Str) (lineNumber : ℕ)
deriving DecidableEq

/-- A parsed hunk. `PathBuf::from` keeps the text of a path as it is. -/
inductive ParsedHunk
  | addFile (path contents : Str)
  | deleteFile (path : Str)
  | updateFile (path : Str) (movePath : Option Str) (chunks : List UpdateFileChunk)
deriving DecidableEq

structure ParsedPatch where
  hunks : List ParsedHunk
  patch : Str
deriving DecidableEq

/-! ## A chunk -/

def noLines : Str := "Update hunk does not contain any lines".toList

def missingContext (line : Str) : Str :=
  "Expected update hunk to start with a @@ context marker, got: '".toList ++ line ++ "'".toList

def unexpectedLine (line : Str) : Str :=
  "Unexpected line found in update hunk: '".toList ++ line ++
    "'. Every line should start with ' ' (context line), '+' (added line), or '-' (removed line)".toList

def UpdateFileChunk.addOld (chunk : UpdateFileChunk) (line : Str) : UpdateFileChunk :=
  { chunk with oldLines := chunk.oldLines ++ [line] }

def UpdateFileChunk.addNew (chunk : UpdateFileChunk) (line : Str) : UpdateFileChunk :=
  { chunk with newLines := chunk.newLines ++ [line] }

/-- The loop over the lines of a chunk, with the number of lines parsed so far. -/
def parseChunkLines (lineNumber : ℕ) (chunk : UpdateFileChunk) (parsedLines : ℕ) :
    List Str → Except ParseError (UpdateFileChunk × ℕ)
  | [] => .ok (chunk, parsedLines)
  | line :: rest =>
    if line = eofMarker then
      if parsedLines = 0 then .error (.invalidHunkError noLines (lineNumber + 1))
      else .ok ({ chunk with isEndOfFile := true }, parsedLines + 1)
    else
      match line with
      -- an empty line is a context line
      | [] => parseChunkLines lineNumber ((chunk.addOld []).addNew []) (parsedLines + 1) rest
      | ' ' :: s => parseChunkLines lineNumber ((chunk.addOld s).addNew s) (parsedLines + 1) rest
      | '+' :: s => parseChunkLines lineNumber (chunk.addNew s) (parsedLines + 1) rest
      | '-' :: s => parseChunkLines lineNumber (chunk.addOld s) (parsedLines + 1) rest
      -- the start of the next hunk
      | _ =>
        if parsedLines = 0 then .error (.invalidHunkError (unexpectedLine line) (lineNumber + 1))
        else .ok (chunk, parsedLines)

/-- The context of a chunk and the number of lines it takes. -/
def parseChunkContext (line : Str) (lineNumber : ℕ) (allowMissingContext : Bool) :
    Except ParseError (Option Str × ℕ) :=
  if line = emptyChangeContextMarker then .ok (none, 1)
  else
    match stripPrefix line changeContextMarker with
    | some context => .ok (some context, 1)
    | none =>
      if allowMissingContext then .ok (none, 0)
      else .error (.invalidHunkError (missingContext line) lineNumber)

def parseUpdateFileChunk (lines : List Str) (lineNumber : ℕ) (allowMissingContext : Bool) :
    Except ParseError (UpdateFileChunk × ℕ) :=
  match lines with
  | [] => .error (.invalidHunkError noLines lineNumber)
  | line :: _ => do
    let (changeContext, startIndex) ← parseChunkContext line lineNumber allowMissingContext
    if lines.length ≤ startIndex then .error (.invalidHunkError noLines (lineNumber + 1))
    else
      let (chunk, parsedLines) ← parseChunkLines lineNumber
        { changeContext := changeContext, oldLines := [], newLines := [] } 0 (lines.drop startIndex)
      .ok (chunk, parsedLines + startIndex)

/-- A step of the chunk loop that parses a line has parsed one. -/
theorem parseChunkLines_pos {lineNumber parsedLines : ℕ} {chunk : UpdateFileChunk}
    {lines : List Str} {result : UpdateFileChunk × ℕ}
    (h : parseChunkLines lineNumber chunk parsedLines lines = .ok result)
    (hne : parsedLines = 0 → lines ≠ []) : 0 < result.2 := by
  induction lines generalizing chunk parsedLines with
  | nil =>
    cases h
    exact Nat.pos_of_ne_zero fun h0 => hne h0 rfl
  | cons line rest ih =>
    rw [parseChunkLines.eq_def] at h
    dsimp only at h
    split at h
    · split at h
      · cases h
      · cases h
        exact Nat.succ_pos _
    · split at h
      · exact ih h (nofun)
      · exact ih h (nofun)
      · exact ih h (nofun)
      · exact ih h (nofun)
      · split at h
        · cases h
        · rename_i hparsed
          cases h
          exact Nat.pos_of_ne_zero hparsed

/-- A parsed chunk consumes at least one line, so the loop over the chunks ends. -/
theorem parseUpdateFileChunk_pos {lines : List Str} {lineNumber : ℕ} {first : Bool}
    {result : UpdateFileChunk × ℕ}
    (h : parseUpdateFileChunk lines lineNumber first = .ok result) : 0 < result.2 := by
  cases lines with
  | nil => cases h
  | cons line rest =>
    unfold parseUpdateFileChunk at h
    dsimp only at h
    cases hcontext : parseChunkContext line lineNumber first with
    | error e =>
      rw [hcontext] at h
      cases h
    | ok context =>
      rw [hcontext] at h
      simp only [bind, Except.bind] at h
      split at h
      · cases h
      · rename_i hlen
        split at h
        · cases h
        · rename_i hlines
          cases h
          have hne : (line :: rest).drop context.2 ≠ [] := by
            intro hnil
            rw [List.drop_eq_nil_iff] at hnil
            exact hlen hnil
          have := parseChunkLines_pos hlines fun _ => hne
          dsimp only at this ⊢
          omega

/-! ## A hunk -/

/-- The loop over the chunks of an update, with the lines of the hunk parsed so far. -/
def parseChunks (lineNumber : ℕ) (lines : List Str) (parsedLines : ℕ)
    (chunks : List UpdateFileChunk) : Except ParseError (List UpdateFileChunk × ℕ) :=
  match lines with
  | [] => .ok (chunks, parsedLines)
  | line :: rest =>
    if (trim line).isEmpty then parseChunks lineNumber rest (parsedLines + 1) chunks
    else if startsWith line "***".toList then .ok (chunks, parsedLines)
    else
      match h : parseUpdateFileChunk (line :: rest) (lineNumber + parsedLines) chunks.isEmpty with
      | .error e => .error e
      | .ok (chunk, chunkLines) =>
        have : 0 < chunkLines := parseUpdateFileChunk_pos h
        parseChunks lineNumber ((line :: rest).drop chunkLines) (parsedLines + chunkLines)
          (chunks ++ [chunk])
termination_by lines.length

def emptyUpdate (path : Str) : Str :=
  "Update file hunk for path '".toList ++ path ++ "' is empty".toList

def invalidHeader (line : Str) : Str :=
  "'".toList ++ line ++ ("' is not a valid hunk header. Valid hunk headers: '*** Add File: " ++
    "\x7bpath\x7d', '*** Delete File: \x7bpath\x7d', '*** Update File: \x7bpath\x7d'").toList

/-- The added lines of an `Add File` hunk and what is left. -/
def parseAddLines (contents : Str) (parsedLines : ℕ) : List Str → Str × ℕ
  | [] => (contents, parsedLines)
  | line :: rest =>
    match stripPrefix line ['+'] with
    | some added => parseAddLines (contents ++ added ++ ['\n']) (parsedLines + 1) rest
    | none => (contents, parsedLines)

def parseUpdate (path : Str) (lines : List Str) (lineNumber : ℕ) :
    Except ParseError (ParsedHunk × ℕ) := do
  let movePath := lines.head?.bind fun line => stripPrefix line moveToMarker
  let (remaining, parsedLines) := if movePath.isSome then (lines.drop 1, 2) else (lines, 1)
  let (chunks, parsedLines) ← parseChunks lineNumber remaining parsedLines []
  if chunks.isEmpty then .error (.invalidHunkError (emptyUpdate path) lineNumber)
  else .ok (.updateFile path movePath chunks, parsedLines)

/-- `parse_one_hunk` on its first line and the lines after it. -/
def parseOneHunk (line : Str) (rest : List Str) (lineNumber : ℕ) :
    Except ParseError (ParsedHunk × ℕ) :=
  let firstLine := trim line
  match stripPrefix firstLine addFileMarker with
  | some path =>
    let (contents, parsedLines) := parseAddLines [] 1 rest
    .ok (.addFile path contents, parsedLines)
  | none =>
    match stripPrefix firstLine deleteFileMarker with
    | some path => .ok (.deleteFile path, 1)
    | none =>
      match stripPrefix firstLine updateFileMarker with
      | some path => parseUpdate path rest lineNumber
      | none => .error (.invalidHunkError (invalidHeader firstLine) lineNumber)

/-! ## The patch -/

def firstLineMessage : Str := "The first line of the patch must be '*** Begin Patch'".toList

def lastLineMessage : Str := "The last line of the patch must be '*** End Patch'".toList

def checkStartAndEndLinesStrict (firstLine lastLine : Option Str) : Except ParseError Unit :=
  match firstLine.map trim, lastLine.map trim with
  | some first, last =>
    if first = beginPatchMarker ∧ last = some endPatchMarker then .ok ()
    else if first ≠ beginPatchMarker then .error (.invalidPatchError firstLineMessage)
    else .error (.invalidPatchError lastLineMessage)
  | none, _ => .error (.invalidPatchError lastLineMessage)

def checkPatchBoundariesStrict (lines : List Str) : Except ParseError Unit :=
  checkStartAndEndLinesStrict lines.head? lines.getLast?

def heredocOpeners : List Str := ["<<EOF".toList, "<<'EOF'".toList, "<<\"EOF\"".toList]

def checkPatchBoundariesLenient (originalLines : List Str) (originalParseError : ParseError) :
    Except ParseError (List Str) :=
  match originalLines.head?, originalLines.getLast? with
  | some first, some last =>
    if 2 ≤ originalLines.length ∧ first ∈ heredocOpeners ∧ endsWith last "EOF".toList = true ∧
        4 ≤ originalLines.length then
      let innerLines := (originalLines.drop 1).dropLast
      (checkPatchBoundariesStrict innerLines).map fun _ => innerLines
    else .error originalParseError
  | _, _ => .error originalParseError

theorem parseChunks_le {lineNumber : ℕ} {lines : List Str} {parsedLines : ℕ}
    {chunks : List UpdateFileChunk} {result : List UpdateFileChunk × ℕ}
    (h : parseChunks lineNumber lines parsedLines chunks = .ok result) :
    parsedLines ≤ result.2 := by
  induction lines, parsedLines, chunks using parseChunks.induct lineNumber with
  | case1 parsedLines chunks =>
    rw [parseChunks] at h
    cases h
    exact Nat.le_refl _
  | case2 parsedLines chunks line rest hblank ih =>
    rw [parseChunks, if_pos hblank] at h
    have := ih h
    omega
  | case3 parsedLines chunks line rest hblank hheader =>
    rw [parseChunks, if_neg hblank, if_pos hheader] at h
    cases h
    exact Nat.le_refl _
  | case4 parsedLines chunks line rest hblank hheader e hchunk =>
    rw [parseChunks, if_neg hblank, if_neg hheader] at h
    split at h
    · cases h
    · rename_i hok
      rw [hchunk] at hok
      cases hok
  | case5 parsedLines chunks line rest hblank hheader chunk chunkLines hchunk hlt ih =>
    rw [parseChunks, if_neg hblank, if_neg hheader] at h
    split at h
    · cases h
    · rename_i hok
      rw [hchunk] at hok
      cases hok
      have := ih h
      omega

theorem parseAddLines_le (contents : Str) (parsedLines : ℕ) (lines : List Str) :
    parsedLines ≤ (parseAddLines contents parsedLines lines).2 := by
  induction lines generalizing contents parsedLines with
  | nil => exact Nat.le_refl _
  | cons line rest ih =>
    rw [parseAddLines]
    split
    · exact (Nat.le_succ _).trans (ih _ _)
    · exact Nat.le_refl _

/-- A parsed hunk consumes its header, so the loop over the hunks ends. -/
theorem parseOneHunk_pos {line : Str} {rest : List Str} {lineNumber : ℕ} {result : ParsedHunk × ℕ}
    (h : parseOneHunk line rest lineNumber = .ok result) : 0 < result.2 := by
  unfold parseOneHunk at h
  dsimp only at h
  split at h
  · cases h
    exact parseAddLines_le [] 1 rest
  · split at h
    · cases h
      exact Nat.one_pos
    · split at h
      · unfold parseUpdate at h
        simp only [bind, Except.bind] at h
        split at h
        · cases h
        · rename_i hchunks
          have hle := parseChunks_le hchunks
          split at h
          · cases h
          · cases h
            refine lt_of_lt_of_le ?_ hle
            split
            · exact Nat.two_pos
            · exact Nat.one_pos
      · cases h

/-- The loop over the hunks. -/
def parseHunks (lines : List Str) (lineNumber : ℕ) : Except ParseError (List ParsedHunk) :=
  match lines with
  | [] => .ok []
  | line :: rest =>
    match h : parseOneHunk line rest lineNumber with
    | .error e => .error e
    | .ok (hunk, hunkLines) =>
      have : 0 < hunkLines := parseOneHunk_pos h
      (parseHunks ((line :: rest).drop hunkLines) (lineNumber + hunkLines)).map (hunk :: ·)
termination_by lines.length

def parsePatchLines (lines : List Str) : Except ParseError ParsedPatch := do
  let hunks ← parseHunks (lines.drop 1).dropLast 2
  .ok ⟨hunks, joinLines lines⟩

def parsePatch (patch : Str) : Except ParseError ParsedPatch := do
  let lines := Text.lines (trim patch)
  match checkPatchBoundariesStrict lines with
  | .ok () => parsePatchLines lines
  | .error e =>
    let inner ← checkPatchBoundariesLenient lines e
    parsePatchLines inner

end GrokBuild.ApplyPatch
