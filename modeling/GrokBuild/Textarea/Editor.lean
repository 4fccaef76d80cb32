import Mathlib
import GrokBuild.Textarea.AtomicRanges

/-!
# The edit buffer

A text with a cursor. A command or a replacement is planned first, with the text it removes, and a
plan is validated before it is applied. A slice that panics makes the plan `none`.
-/

namespace GrokBuild.Textarea
open Text

inductive WordStyle where
  | small
  | whitespaceDelimited
deriving DecidableEq

inductive EditCommand where
  | insert (character : Char)
  | moveGraphemeLeft
  | moveGraphemeRight
  | moveWordLeft (style : WordStyle)
  | moveWordRight (style : WordStyle)
  | moveLogicalLineStart
  | moveLogicalLineEnd
  | deleteGraphemeBackward
  | deleteGraphemeForward
  | deleteWordBackward (style : WordStyle)
  | deleteWordForward (style : WordStyle)
  | deleteToLineStart
  | deleteToLineEnd
deriving DecidableEq

structure EditDelta where
  replacedByteRange : ByteRange
  insertedByteRange : ByteRange
deriving DecidableEq

inductive EditOutcome where
  | unchanged
  | cursorOnly
  | textOnly (delta : EditDelta)
  | textAndCursor (delta : EditDelta)
deriving DecidableEq

def EditOutcome.fromChanges : Option EditDelta → Bool → EditOutcome
  | none, false => .unchanged
  | none, true => .cursorOnly
  | some delta, false => .textOnly delta
  | some delta, true => .textAndCursor delta

inductive PostEditCursorAffinity where
  | exact
  | right
deriving DecidableEq

/-- Compared by pointer in the source: which allocation it is, and how often that buffer has taken
a new one. -/
structure BufferIdentity where
  allocated : ℕ
  renewed : ℕ := 0
deriving DecidableEq

structure EditPlan where
  replacedByteRange : ByteRange
  replacement : Str
  removedText : Str
  cursorByte : ℕ
  cursorAffinity : PostEditCursorAffinity
  sourceIdentity : BufferIdentity
  sourceGeneration : ℕ

inductive ApplyEditPlanError where
  | stalePlan
  | invalidRange
  | removedTextMismatch
  | invalidCursor
deriving DecidableEq

structure EditBuffer where
  text : Str
  cursorByte : ℕ
  identity : BufferIdentity
  generation : ℕ := 0

variable (u : Unicode)

/-! ## Words -/

inductive WordClass where
  | whitespace
  | word
  | punctuation
  | atomic (index : ℕ)
deriving DecidableEq

def wordClass (grapheme : Str) (style : WordStyle) : Option WordClass :=
  grapheme.head?.map fun character =>
    if isWhitespace character then .whitespace
    else if style = .whitespaceDelimited || u.isAlphanumeric character || character == '_' then
      .word
    else .punctuation

def atomicWordClass (text : Str) (start stop : ℕ) (style : WordStyle) (ranges : List ByteRange) :
    Option (Option WordClass) :=
  match ranges.findIdx? fun range => range.start == start && range.stop == stop with
  | some index =>
    some (some (match style with
      | .small => .atomic index
      | .whitespaceDelimited => .word))
  | none => (sliceBytes text start stop).map fun grapheme => wordClass u grapheme style

/-- Steps back over the clusters and ranges whose class passes. -/
def skipBack (text : Str) (style : WordStyle) (ranges : List ByteRange)
    (passes : Option WordClass → Bool) (position : ℕ) : Option ℕ :=
  if h : 0 < position then
    have := previousAtomicBoundary_lt u text ranges h
    match atomicWordClass u text (previousAtomicBoundary u text position ranges) position style
        ranges with
    | none => none
    | some found =>
      if passes found then
        skipBack text style ranges passes (previousAtomicBoundary u text position ranges)
      else some position
  else some position
termination_by position

def skipForward (text : Str) (style : WordStyle) (ranges : List ByteRange)
    (passes : Option WordClass → Bool) (position : ℕ) : Option ℕ :=
  if h : position < utf8Len text then
    have := lt_nextAtomicBoundary u ranges h
    match atomicWordClass u text position (nextAtomicBoundary u text position ranges) style
        ranges with
    | none => none
    | some found =>
      if passes found then
        skipForward text style ranges passes (nextAtomicBoundary u text position ranges)
      else some position
  else some position
termination_by utf8Len text - position

def isWhitespaceClass (found : Option WordClass) : Bool := found == some .whitespace

def previousWordBoundary (text : Str) (style : WordStyle) (cursor : ℕ) (ranges : List ByteRange) :
    Option ℕ :=
  match skipBack u text style ranges isWhitespaceClass cursor with
  | none => none
  | some position =>
    if position = 0 then some 0
    else
      match atomicWordClass u text (previousAtomicBoundary u text position ranges) position style
          ranges with
      | none => none
      | some target => skipBack u text style ranges (· == target) position

def nextWordBoundary (text : Str) (style : WordStyle) (cursor : ℕ) (ranges : List ByteRange) :
    Option ℕ :=
  match skipForward u text style ranges isWhitespaceClass cursor with
  | none => none
  | some position =>
    if position = utf8Len text then some position
    else
      match atomicWordClass u text position (nextAtomicBoundary u text position ranges) style
          ranges with
      | none => none
      | some target => skipForward u text style ranges (· == target) position

/-! ## Lines -/

/-- A line feed that no atomic range covers. -/
def endsLine (text : Str) (ranges : List ByteRange) (position : ℕ) : Bool :=
  byteAt text position == some 0x0a && !byteIsInsideAtomicRange position ranges

def lineStartAt (text : Str) (cursor : ℕ) (ranges : List ByteRange) : ℕ :=
  let cursor := min cursor (utf8Len text)
  match (List.range cursor).reverse.find? (endsLine text ranges) with
  | none => 0
  | some position => position + 1

def lineEndFrom (text : Str) (cursor : ℕ) (ranges : List ByteRange) : ℕ :=
  let cursor := min cursor (utf8Len text)
  match (List.range' cursor (utf8Len text - cursor)).find? (endsLine text ranges) with
  | none => utf8Len text
  | some lineFeed =>
    if 0 < lineFeed && byteAt text (lineFeed - 1) == some 0x0d then lineFeed - 1 else lineFeed

def lineEndingAt (text : Str) (lineEnd : ℕ) : Option ByteRange :=
  match splitAtByte lineEnd text with
  | none => none
  | some (_, remaining) =>
    if startsWith remaining "\r\n".toList then some ⟨lineEnd, lineEnd + 2⟩
    else if startsWith remaining "\n".toList then some ⟨lineEnd, lineEnd + 1⟩
    else none

def logicalLineStartTarget (text : Str) (cursor : ℕ) (ranges : List ByteRange) : ℕ :=
  let lineStart := lineStartAt text cursor ranges
  if cursor = lineStart ∧ 0 < lineStart then
    lineStartAt text (previousAtomicBoundary u text lineStart ranges) ranges
  else lineStart

def logicalLineEndTarget (text : Str) (cursor : ℕ) (ranges : List ByteRange) : ℕ :=
  let lineEnd := lineEndFrom text cursor ranges
  if cursor = lineEnd then
    match lineEndingAt text lineEnd with
    | none => lineEnd
    | some range => lineEndFrom text range.stop ranges
  else lineEnd

/-! ## Plans -/

namespace EditBuffer

variable (b : EditBuffer)

def makePlan (replacedByteRange : ByteRange) (replacement : Str) (cursorByte : ℕ)
    (cursorAffinity : PostEditCursorAffinity) : Option EditPlan :=
  (sliceBytes b.text replacedByteRange.start replacedByteRange.stop).map fun removedText =>
    ⟨replacedByteRange, replacement, removedText, cursorByte, cursorAffinity, b.identity,
      b.generation⟩

def planReplaceByteRange (range : ByteRange) (replacement : Str) (ranges : List ByteRange) :
    Option EditPlan :=
  let ranges := normalizeAtomicRanges u b.text ranges
  let range := normalizeReplacementRange u b.text range ranges
  let cursorByte := normalizeCursorForAtomicRanges b.cursorByte ranges
  let nextCursor :=
    if cursorByte < range.start then cursorByte
    else if cursorByte ≤ range.stop then range.start + utf8Len replacement
    else cursorByte - (range.stop - range.start) + utf8Len replacement
  b.makePlan range replacement nextCursor .right

/-- A movement, which replaces nothing. -/
def planMove (cursor target : ℕ) : Option EditPlan := b.makePlan ⟨cursor, cursor⟩ [] target .exact

/-- A deletion, after which the cursor is at its start. -/
def planDelete (start stop : ℕ) : Option EditPlan := b.makePlan ⟨start, stop⟩ [] start .right

def planCommand (command : EditCommand) (ranges : List ByteRange) : Option EditPlan :=
  let ranges := normalizeAtomicRanges u b.text ranges
  let cursor := normalizeCursorForAtomicRanges b.cursorByte ranges
  match command with
  | .insert character =>
    b.makePlan ⟨cursor, cursor⟩ [character] (cursor + character.utf8Size) .right
  | .moveGraphemeLeft => b.planMove cursor (previousAtomicBoundary u b.text cursor ranges)
  | .moveGraphemeRight => b.planMove cursor (nextAtomicBoundary u b.text cursor ranges)
  | .moveWordLeft style =>
    (previousWordBoundary u b.text style cursor ranges).bind (b.planMove cursor)
  | .moveWordRight style =>
    (nextWordBoundary u b.text style cursor ranges).bind (b.planMove cursor)
  | .moveLogicalLineStart => b.planMove cursor (logicalLineStartTarget u b.text cursor ranges)
  | .moveLogicalLineEnd => b.planMove cursor (logicalLineEndTarget b.text cursor ranges)
  | .deleteGraphemeBackward => b.planDelete (previousAtomicBoundary u b.text cursor ranges) cursor
  | .deleteGraphemeForward => b.planDelete cursor (nextAtomicBoundary u b.text cursor ranges)
  | .deleteWordBackward style =>
    (previousWordBoundary u b.text style cursor ranges).bind fun start => b.planDelete start cursor
  | .deleteWordForward style =>
    (nextWordBoundary u b.text style cursor ranges).bind (b.planDelete cursor)
  | .deleteToLineStart =>
    let lineStart := lineStartAt b.text cursor ranges
    let start :=
      if cursor = lineStart then previousAtomicBoundary u b.text lineStart ranges else lineStart
    b.planDelete start cursor
  | .deleteToLineEnd =>
    let lineEnd := lineEndFrom b.text cursor ranges
    let start := min cursor lineEnd
    let stop :=
      if lineEnd ≤ cursor then
        match lineEndingAt b.text lineEnd with
        | none => lineEnd
        | some range => range.stop
      else lineEnd
    b.planDelete start stop

def validatePlan (plan : EditPlan) : Except ApplyEditPlanError Unit :=
  let range := plan.replacedByteRange
  if plan.sourceIdentity ≠ b.identity ∨ plan.sourceGeneration ≠ b.generation then
    .error .stalePlan
  else if range.stop < range.start ∨ utf8Len b.text < range.stop ∨
      !(splitAtByte range.start b.text).isSome ∨ !(splitAtByte range.stop b.text).isSome ∨
      !isGraphemeBoundary u b.text range.start ∨ !isGraphemeBoundary u b.text range.stop then
    .error .invalidRange
  else if sliceBytes b.text range.start range.stop ≠ some plan.removedText then
    .error .removedTextMismatch
  else if utf8Len b.text - (range.stop - range.start) + utf8Len plan.replacement <
      plan.cursorByte then
    .error .invalidCursor
  else if plan.cursorAffinity = .exact ∧
      (plan.replacement ≠ plan.removedText ∨ !isGraphemeBoundary u b.text plan.cursorByte) then
    .error .invalidCursor
  else .ok ()

/-- The generation is a 64-bit counter; when it is full, the buffer takes a new identity. -/
def advanceGeneration : EditBuffer :=
  if b.generation + 1 < 2 ^ 64 then { b with generation := b.generation + 1 }
  else { b with identity := ⟨b.identity.allocated, b.identity.renewed + 1⟩, generation := 0 }

def applyValidatedPlan (plan : EditPlan) : Option (EditBuffer × EditOutcome) :=
  let textChanged := plan.removedText ≠ plan.replacement
  let range := plan.replacedByteRange
  let replaced :=
    if textChanged then replaceBytes b.text range.start range.stop plan.replacement
    else some b.text
  replaced.map fun text =>
    let cursorByte := match plan.cursorAffinity with
      | .exact => plan.cursorByte
      | .right => ceilGraphemeBoundary u text plan.cursorByte
    let cursorChanged := cursorByte ≠ b.cursorByte
    let edited := { b with text := text, cursorByte := cursorByte }
    let delta :=
      if textChanged then
        some ⟨range, ⟨range.start, range.start + utf8Len plan.replacement⟩⟩
      else none
    (if textChanged ∨ cursorChanged then edited.advanceGeneration else edited,
      .fromChanges delta (decide cursorChanged))

def applyPlan (plan : EditPlan) : Except ApplyEditPlanError (Option (EditBuffer × EditOutcome)) :=
  (b.validatePlan u plan).map fun _ => b.applyValidatedPlan u plan

/-! ## Public operations -/

def fromText (allocated : ℕ) (text : Str) : EditBuffer := ⟨text, utf8Len text, ⟨allocated, 0⟩, 0⟩

def new (allocated : ℕ) : EditBuffer := ⟨[], 0, ⟨allocated, 0⟩, 0⟩

def fromParts (allocated : ℕ) (text : Str) (cursorByte : ℕ) : EditBuffer :=
  ⟨text, normalizeExternalCursor u text cursorByte, ⟨allocated, 0⟩, 0⟩

def clone (allocated : ℕ) : EditBuffer := ⟨b.text, b.cursorByte, ⟨allocated, 0⟩, 0⟩

def setCursorByte (cursorByte : ℕ) : EditBuffer × EditOutcome :=
  let moved := { b with cursorByte := normalizeExternalCursor u b.text cursorByte }
  let cursorChanged := moved.cursorByte ≠ b.cursorByte
  (if cursorChanged then moved.advanceGeneration else moved,
    .fromChanges none (decide cursorChanged))

def replaceByteRange (range : ByteRange) (replacement : Str) : Option (EditBuffer × EditOutcome) :=
  (b.planReplaceByteRange u range replacement []).bind (b.applyValidatedPlan u)

def insertStr (text : Str) : Option (EditBuffer × EditOutcome) :=
  b.replaceByteRange u ⟨b.cursorByte, b.cursorByte⟩ text

def apply (command : EditCommand) : Option (EditBuffer × EditOutcome) :=
  (b.planCommand u command []).bind (b.applyValidatedPlan u)

end EditBuffer

end GrokBuild.Textarea
