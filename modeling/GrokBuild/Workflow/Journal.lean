import Mathlib
import GrokBuild.Text.Json

/-!
# The journal of a workflow run

One line of JSON per answered host call, in a file that a restarted run loads again. The
JSON encoder and decoder are parameters; the file is a list of bytes, or absent.
-/

namespace GrokBuild.Workflow

open Text

def hostErrorKey : Str := "__xai_workflow_host_error".toList

def maxJournalBytes : ℕ := 64 * 1024 * 1024

def maxHostCalls : ℕ := 10000

def maxJournalEntries : ℕ := maxHostCalls

structure JournalEntry where
  seq : ℕ
  kind : Str
  reqHash : Str
  result : Value
  atMs : ℕ

inductive JournalError where
  | io
  | parse (line : ℕ)
  | unsafeRestore (limit : ℕ)
  | full (seq limit : ℕ)
  | sequence (index expected actual : ℕ)
  | divergence (seq : ℕ) (kind : Str)
deriving DecidableEq, Repr

/-- A journal backed by a file. -/
structure Journal where
  entries : List JournalEntry
  bytes : ℕ
  lastLineStart : Option ℕ

namespace Journal

def new : Journal := ⟨[], 0, none⟩

def len (j : Journal) : ℕ := j.entries.length

def covers (j : Journal) (seq : ℕ) : Bool := seq < j.entries.length

def replay (j : Journal) (seq : ℕ) (kind reqHash : Str) : Except JournalError (Option Value) :=
  match j.entries[seq]? with
  | none => .ok none
  | some entry =>
    if entry.seq ≠ seq ∨ entry.kind ≠ kind ∨ entry.reqHash ≠ reqHash then
      .error (.divergence seq kind)
    else .ok (some entry.result)

end Journal

/-- `serde_json::to_string` and `from_slice` for entries. -/
structure Codec where
  encode : JournalEntry → List UInt8
  decode : List UInt8 → Option JournalEntry

def newline : UInt8 := 10

def isAsciiWhitespace (b : UInt8) : Bool :=
  b == 32 || b == 9 || b == 10 || b == 12 || b == 13

def validateSequence (entries : List JournalEntry) (entry : JournalEntry) :
    Except JournalError Unit :=
  if entry.seq ≠ entries.length then
    .error (.sequence entries.length entries.length entry.seq)
  else .ok ()

def saturatingAdd (a b : ℕ) : ℕ := min (a + b) (2 ^ 64 - 1)

/-! ## Loading -/

/-- The terminated lines of a file, without their newlines, and the rest after the last. -/
def frames : List UInt8 → List (List UInt8) × List UInt8
  | [] => ([], [])
  | b :: rest =>
    let (ls, tail) := frames rest
    if b = newline then ([] :: ls, tail)
    else
      match ls with
      | [] => ([], b :: tail)
      | l :: ls => ((b :: l) :: ls, tail)

/-- The entries read so far, where the last of them starts and where reading stands. -/
structure Loading where
  entries : List JournalEntry := []
  lastLineStart : Option ℕ := none
  offset : ℕ := 0

def takeEntry (codec : Codec) (s : Loading) (lineNumber : ℕ) (bytes : List UInt8) :
    Except JournalError Loading :=
  match codec.decode bytes with
  | none => .error (.parse lineNumber)
  | some entry =>
    if maxJournalEntries ≤ s.entries.length then .error (.unsafeRestore maxJournalEntries)
    else
      match validateSequence s.entries entry with
      | .error e => .error e
      | .ok () => .ok { s with
          entries := s.entries ++ [entry], lastLineStart := some s.offset }

def loadLines (codec : Codec) : ℕ → Loading → List (List UInt8) → Except JournalError Loading
  | _, s, [] => .ok s
  | lineNumber, s, line :: lines =>
    if line.all isAsciiWhitespace then
      loadLines codec (lineNumber + 1) { s with offset := s.offset + line.length + 1 } lines
    else
      match takeEntry codec s lineNumber line with
      | .error e => .error e
      | .ok s =>
        loadLines codec (lineNumber + 1) { s with offset := s.offset + line.length + 1 } lines

/-- The bytes after the last newline: blank or torn ones are cut off, a whole entry is taken
and gets its newline. The second component is the file afterwards. -/
def loadTail (codec : Codec) (lineNumber : ℕ) (s : Loading) (content tail : List UInt8) :
    Except JournalError (Loading × List UInt8 × ℕ) :=
  if tail = [] then .ok (s, content, content.length)
  else if tail.all isAsciiWhitespace then .ok (s, content.take s.offset, s.offset)
  else
    match codec.decode tail with
    | none => .ok (s, content.take s.offset, s.offset)
    | some _ =>
      match takeEntry codec s lineNumber tail with
      | .error e => .error e
      | .ok s => .ok (s, content ++ [newline], saturatingAdd content.length 1)

/-- `Journal::load`: the journal and the file as loading leaves it. -/
def load (codec : Codec) (file : Option (List UInt8)) :
    Except JournalError (Journal × Option (List UInt8)) :=
  let content := file.getD []
  if maxJournalBytes < content.length then .error (.unsafeRestore maxJournalBytes)
  else
    let (lines, tail) := frames content
    match loadLines codec 1 {} lines with
    | .error e => .error e
    | .ok s =>
      match loadTail codec (lines.length + 1) s content tail with
      | .error e => .error e
      | .ok (s, content, bytes) =>
        .ok (⟨s.entries, bytes, s.lastLineStart⟩, file.map fun _ => content)

/-! ## Recording and pruning -/

/-- What becomes of an append: it succeeds, or it fails with the first bytes of the line on
the disk, and the process goes on. -/
inductive Append where
  | done
  | fails (persisted : ℕ)
deriving DecidableEq, Repr

def line (codec : Codec) (entry : JournalEntry) : List UInt8 := codec.encode entry ++ [newline]

def appendLine (file : Option (List UInt8)) (bytes : List UInt8) :
    Append → Except JournalError Unit × Option (List UInt8)
  | .done => (.ok (), some (file.getD [] ++ bytes))
  | .fails 0 => (.error .io, file)
  | .fails (n + 1) => (.error .io, some (file.getD [] ++ bytes.take (n + 1)))

def record (codec : Codec) (j : Journal) (file : Option (List UInt8)) (entry : JournalEntry)
    (append : Append) : Except JournalError Unit × Journal × Option (List UInt8) :=
  match validateSequence j.entries entry with
  | .error e => (.error e, j, file)
  | .ok () =>
    let bytes := line codec entry
    if maxJournalBytes < saturatingAdd j.bytes bytes.length then
      (.error (.full entry.seq maxJournalBytes), j, file)
    else
      match appendLine file bytes append with
      | (.error e, file) => (.error e, j, file)
      | (.ok (), file) =>
        (.ok (), ⟨j.entries ++ [entry], saturatingAdd j.bytes bytes.length, some j.bytes⟩, file)

def contains (s sub : Str) : Bool := s.tails.any sub.isPrefixOf

/-- The recorded host error that a failure detail reports. -/
def prunable (entry : JournalEntry) (failureDetail : Str) : Bool :=
  match (entry.result.get hostErrorKey).bind Value.asStr with
  | none => false
  | some message => !message.isEmpty && contains failureDetail message

def pruneTrailingHostError (j : Journal) (file : Option (List UInt8)) (failureDetail : Str) :
    Except JournalError Bool × Journal × Option (List UInt8) :=
  match j.entries.getLast? with
  | none => (.ok false, j, file)
  | some last =>
    if prunable last failureDetail then
      match j.lastLineStart with
      | none => (.error .io, j, file)
      | some newLen =>
        match file with
        | none => (.error .io, j, file)
        | some content =>
          -- `set_len` past the end would fill with zeros
          (.ok true, ⟨j.entries.dropLast, newLen, none⟩,
            some (content.take newLen ++ List.replicate (newLen - content.length) 0))
    else (.ok false, j, file)

end GrokBuild.Workflow
