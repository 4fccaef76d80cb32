import GrokBuild.Textarea.Editor

/-!
# The text area

An edit buffer with atomic elements, a selection, and undo and redo stacks. The layout is left out:
movements by visual rows and mouse events end in a cursor at some position.
-/

namespace GrokBuild.Textarea
open Text

structure TextElement (Line : Type) where
  id : ℕ
  range : ByteRange
  kind : ℕ
  display : Option Line
deriving DecidableEq

structure Selection where
  anchor : ℕ
  head : ℕ
deriving DecidableEq

structure UndoEntry (Line : Type) where
  text : Str
  cursor : ℕ
  elements : List (TextElement Line)
deriving DecidableEq

inductive MutationKind where
  | insert
  | delete
  | kill
  | element
  | replace
deriving DecidableEq

structure UndoState (Line : Type) where
  stack : List (UndoEntry Line) := []
  redo : List (UndoEntry Line) := []
  maxDepth : ℕ := 100
  lastKind : Option MutationKind := none
  lastCursor : ℕ := 0
  lastInsertWs : Bool := false
  groupDepth : ℕ := 0
  groupCheckpoint : Option (UndoEntry Line) := none

structure TextArea (Line : Type) where
  text : EditBuffer
  elements : List (TextElement Line) := []
  nextElementId : ℕ := 0
  killBuffer : Str := []
  undoState : UndoState Line := {}
  selection : Option Selection := none
  tabWidth : ℕ := 4

inductive EditCommandCategory where
  | insert
  | navigation
  | delete
  | kill
deriving DecidableEq

def EditCommand.category : EditCommand → EditCommandCategory
  | .insert _ => .insert
  | .moveGraphemeLeft | .moveGraphemeRight | .moveWordLeft _ | .moveWordRight _
  | .moveLogicalLineStart | .moveLogicalLineEnd => .navigation
  | .deleteGraphemeBackward | .deleteGraphemeForward => .delete
  | .deleteWordBackward _ | .deleteWordForward _ | .deleteToLineStart | .deleteToLineEnd => .kill

def expandTabsWithWidth (text : Str) (tabWidth : ℕ) : Str :=
  if tabWidth = 0 then text
  else text.flatMap fun character =>
    if character = '\t' then List.replicate tabWidth ' ' else [character]

/-- The last character boundary up to an offset. -/
def floorCharBoundary (text : Str) : ℕ → ℕ
  | 0 => 0
  | byte + 1 =>
    if (splitAtByte (byte + 1) text).isSome then byte + 1 else floorCharBoundary text byte

/-- The first character boundary from an offset on, in as many steps. -/
def ceilCharBoundary (text : Str) : ℕ → ℕ → ℕ
  | 0, byte => byte
  | steps + 1, byte =>
    if (splitAtByte byte text).isSome then byte else ceilCharBoundary text steps (byte + 1)

def isSemanticEdit (plan : EditPlan) : Bool :=
  plan.removedText != plan.replacement ||
    plan.replacedByteRange.start < plan.replacedByteRange.stop

def adjustPositionAfterEdit (position : ℕ) (replaced : ByteRange) (insertedLen : ℕ) : ℕ :=
  if position < replaced.start then position
  else if position ≤ replaced.stop then replaced.start + insertedLen
  else position - (replaced.stop - replaced.start) + insertedLen

/-- The range of an element after an edit that it does not fall into. -/
def shiftRange (start stop removed inserted : ℕ) (range : ByteRange) : ByteRange :=
  if range.stop ≤ start then range
  else if stop ≤ range.start then
    ⟨range.start + inserted - removed, range.stop + inserted - removed⟩
  else ⟨min start range.start, start + max inserted (range.stop - stop)⟩

namespace TextArea

variable {Line : Type} (u : Unicode) (s : TextArea Line)

def new : TextArea Line := { text := EditBuffer.new 0 }

def cursor : ℕ := s.text.cursorByte

def elementRanges : List ByteRange := s.elements.map TextElement.range

/-! ## Undo and redo -/

def snapshot : UndoEntry Line := ⟨s.text.text, s.cursor, s.elements⟩

/-- The buffer is a new one. -/
def restore (entry : UndoEntry Line) : TextArea Line :=
  { s with
    text := EditBuffer.fromParts u (s.text.identity.allocated + 1) entry.text entry.cursor
    elements := entry.elements }

def pushBounded (stack : List (UndoEntry Line)) (entry : UndoEntry Line) (maxDepth : ℕ) :
    List (UndoEntry Line) :=
  if maxDepth < (stack ++ [entry]).length then (stack ++ [entry]).tail else stack ++ [entry]

def preMutate (kind : MutationKind) : TextArea Line :=
  if 0 < s.undoState.groupDepth then s
  else
    let shouldPush : Bool := match s.undoState.lastKind with
      | none => true
      | some prev =>
        prev != kind || s.cursor != s.undoState.lastCursor ||
          kind == .kill || kind == .element || kind == .replace
    { s with
      undoState :=
        { s.undoState with
          stack :=
            if shouldPush then pushBounded s.undoState.stack s.snapshot s.undoState.maxDepth
            else s.undoState.stack
          redo := []
          lastKind := some kind } }

def postMutate : TextArea Line :=
  { s with undoState := { s.undoState with lastCursor := s.cursor } }

/-- The next mutation starts a fresh batch. -/
def resetBatch : TextArea Line :=
  { s with undoState := { s.undoState with lastKind := none, lastCursor := s.cursor } }

def clearHistory : TextArea Line :=
  { s with undoState := { s.undoState with stack := [], redo := [] } }.resetBatch

def undo : TextArea Line × Bool :=
  match s.undoState.stack.getLast? with
  | none => (s, false)
  | some entry =>
    let popped := { s with
      undoState :=
        { s.undoState with
          stack := s.undoState.stack.dropLast
          redo := s.undoState.redo ++ [s.snapshot] } }
    ((popped.restore u entry).resetBatch, true)

def redo : TextArea Line × Bool :=
  match s.undoState.redo.getLast? with
  | none => (s, false)
  | some entry =>
    let popped := { s with
      undoState :=
        { s.undoState with
          redo := s.undoState.redo.dropLast
          stack := s.undoState.stack ++ [s.snapshot] } }
    ((popped.restore u entry).resetBatch, true)

def beginUndoGroup : TextArea Line :=
  { s with
    undoState :=
      { s.undoState with
        groupCheckpoint :=
          if s.undoState.groupDepth = 0 then some s.snapshot else s.undoState.groupCheckpoint
        groupDepth := s.undoState.groupDepth + 1 } }

/-- The elements count only by their number. -/
def changedSince (checkpoint : UndoEntry Line) : Prop :=
  checkpoint.text ≠ s.text.text ∨ checkpoint.cursor ≠ s.cursor ∨
    checkpoint.elements.length ≠ s.elements.length

instance (checkpoint : UndoEntry Line) : Decidable (s.changedSince checkpoint) :=
  inferInstanceAs (Decidable (_ ∨ _ ∨ _))

def endUndoGroup : TextArea Line :=
  match s.undoState.groupDepth with
  | 0 => s
  | 1 =>
    let closed := { s with
      undoState := { s.undoState with groupDepth := 0, groupCheckpoint := none } }
    let pushed := match s.undoState.groupCheckpoint with
      | none => closed
      | some checkpoint =>
        if s.changedSince checkpoint then
          { closed with
            undoState :=
              { closed.undoState with
                stack := pushBounded s.undoState.stack checkpoint s.undoState.maxDepth
                redo := [] } }
        else closed
    pushed.resetBatch
  | depth + 1 => { s with undoState := { s.undoState with groupDepth := depth } }

def cancelUndoGroup : TextArea Line :=
  if s.undoState.groupDepth = 0 then s
  else
    let closed := { s with
      undoState := { s.undoState with groupDepth := 0, groupCheckpoint := none } }
    let restored := match s.undoState.groupCheckpoint with
      | none => closed
      | some checkpoint => closed.restore u checkpoint
    restored.resetBatch

/-! ## Edits -/

/-- Elements that the edit replaces go, those behind it are shifted. -/
def shiftElements (start removed inserted : ℕ) : TextArea Line :=
  let stop := start + removed
  let kept := s.elements.filter fun e => !(start ≤ e.range.start && e.range.stop ≤ stop)
  { s with
    elements := kept.map fun e =>
      { e with range := shiftRange start stop removed inserted e.range } }

def updateElementsAfterReplace (start stop insertedLen : ℕ) : TextArea Line :=
  s.shiftElements start (stop - start) insertedLen

def adjustSelection (replaced : ByteRange) (insertedLen : ℕ) : TextArea Line :=
  let adjusted := s.selection.map fun selection =>
    (⟨adjustPositionAfterEdit selection.anchor replaced insertedLen,
      adjustPositionAfterEdit selection.head replaced insertedLen⟩ : Selection)
  { s with selection := adjusted.filter fun selection => selection.anchor != selection.head }

def applyValidatedEditPlan (plan : EditPlan) (mutationKind : Option MutationKind) :
    Option (TextArea Line × EditOutcome) :=
  (s.text.applyValidatedPlan u plan).map fun (text, outcome) =>
    let applied := { s with text := text }
    let replaced := plan.replacedByteRange
    if isSemanticEdit plan then
      let updated := (applied.updateElementsAfterReplace replaced.start replaced.stop
        (utf8Len plan.replacement)).adjustSelection replaced (utf8Len plan.replacement)
      let killed :=
        if mutationKind = some .kill then { updated with killBuffer := plan.removedText }
        else updated
      (killed, outcome)
    else (applied, outcome)

/-- A plan that does not validate is a panic. -/
def applyEditPlan (plan : EditPlan) (mutationKind : Option MutationKind) :
    Option (TextArea Line × EditOutcome) :=
  match s.text.validatePlan u plan with
  | .error _ => none
  | .ok _ =>
    match mutationKind with
    | some kind =>
      if isSemanticEdit plan then
        ((s.preMutate kind).applyValidatedEditPlan u plan mutationKind).map fun (edited, outcome) =>
          (edited.postMutate, outcome)
      else s.applyValidatedEditPlan u plan mutationKind
    | none => s.applyValidatedEditPlan u plan mutationKind

def applyEditCommand (command : EditCommand) (mutationKind : Option MutationKind) :
    Option (TextArea Line × EditOutcome) :=
  (s.text.planCommand u command s.elementRanges).bind fun plan =>
    s.applyEditPlan u plan mutationKind

def planEditReplacement (range : ByteRange) (replacement : Str) : Option EditPlan :=
  s.text.planReplaceByteRange u range (expandTabsWithWidth replacement s.tabWidth) s.elementRanges

def applyEditReplacement (range : ByteRange) (replacement : Str)
    (mutationKind : Option MutationKind) : Option (TextArea Line) :=
  (s.planEditReplacement u range replacement).bind fun plan =>
    (s.applyEditPlan u plan mutationKind).map Prod.fst

/-! ## The cursor and the selection -/

def setCursorInner (pos : ℕ) : TextArea Line :=
  { s with text := (s.text.setCursorByte u pos).1 }

def clampPosToNearestBoundary (pos : ℕ) : ℕ :=
  normalizeCursorForAtomicRanges (min pos (utf8Len s.text.text)) s.elementRanges

def setCursor (pos : ℕ) : TextArea Line := s.setCursorInner u (s.clampPosToNearestBoundary pos)

def setSelection (anchor head : ℕ) : TextArea Line := { s with selection := some ⟨anchor, head⟩ }

def clearSelection : TextArea Line := { s with selection := none }

def selectionRange : Option ByteRange :=
  s.selection.bind fun selection =>
    if selection.anchor = selection.head then none
    else
      let expanded := absorbLoop s.elementRanges
        ⟨min selection.anchor selection.head, max selection.anchor selection.head⟩
      let len := utf8Len s.text.text
      let clampedStart := floorCharBoundary s.text.text (min expanded.start len)
      let clampedEnd :=
        ceilCharBoundary s.text.text (len - min expanded.stop len) (min expanded.stop len)
      if clampedEnd ≤ clampedStart then none else some ⟨clampedStart, clampedEnd⟩

/-- A slice of the text at the selection panics where it is not at character boundaries. -/
def selectedText : Option (Option Str) :=
  match s.selectionRange with
  | none => some none
  | some range => (sliceBytes s.text.text range.start range.stop).map some

def deleteSelection : Option (TextArea Line × Bool) :=
  match s.selectionRange with
  | none => some (s, false)
  | some range =>
    (s.applyEditReplacement u range [] (some .replace)).map fun edited =>
      let moved := edited.setCursorInner u (min range.start (utf8Len edited.text.text))
      (moved.postMutate.clearSelection, true)

/-! ## Inserting and deleting -/

def setText (text : Str) : Option (TextArea Line) :=
  match s.planEditReplacement u ⟨0, utf8Len s.text.text⟩ text with
  | none => none
  | some plan =>
    match s.text.validatePlan u plan with
    | .error _ => none
    | .ok _ =>
      let mutated := s.preMutate .replace
      (mutated.text.applyValidatedPlan u plan).map fun (applied, _) =>
        let cleared := { mutated with text := applied, elements := [] }
        let moved := cleared.setCursorInner u (min s.cursor (utf8Len applied.text))
        moved.clearSelection.postMutate

/-- A change between whitespace and other characters ends a batch of insertions. -/
def breakInsertBatch (text : Str) : TextArea Line :=
  match text.head? with
  | none => s
  | some first =>
    if s.undoState.lastKind = some .insert ∧ s.undoState.lastInsertWs ≠ isWhitespace first then
      { s with undoState := { s.undoState with lastKind := none } }
    else s

def noteInserted (text : Str) : TextArea Line :=
  match text.getLast? with
  | none => s
  | some last =>
    { s with undoState := { s.undoState with lastInsertWs := isWhitespace last } }

def insertStr (text : Str) : Option (TextArea Line) :=
  if text = [] then some s
  else
    ((s.breakInsertBatch text).applyEditReplacement u ⟨s.cursor, s.cursor⟩ text
      (some .insert)).map fun inserted => inserted.noteInserted text

def insertStrAt (pos : ℕ) (text : Str) : Option (TextArea Line) :=
  if text = [] then some s
  else
    (s.applyEditReplacement u ⟨pos, pos⟩ text (some .insert)).map fun inserted =>
      inserted.noteInserted text

def replaceRange (range : ByteRange) (text : Str) : Option (TextArea Line) :=
  s.applyEditReplacement u range text (some .replace)

def insertStrReplacingSelection (text : Str) : Option (TextArea Line) :=
  match s.selectionRange with
  | none => s.clearSelection.insertStr u text
  | some _ =>
    (s.beginUndoGroup.deleteSelection u).bind fun (deleted, _) =>
      (deleted.insertStr u text).map endUndoGroup

def applyClassifiedCommand (command : EditCommand) : Option (TextArea Line) :=
  match command with
  | .insert character => s.insertStr u [character]
  | command =>
    let mutationKind := match command.category with
      | .insert | .navigation => none
      | .delete => some .delete
      | .kill => some .kill
    (s.applyEditCommand u command mutationKind).map Prod.fst

/-- Repeats a deletion until one changes nothing. -/
def deleteTimes (command : EditCommand) : ℕ → TextArea Line → Option (TextArea Line)
  | 0, s => some s
  | n + 1, s =>
    (s.applyEditCommand u command (some .delete)).bind fun (deleted, outcome) =>
      if outcome = .unchanged then some deleted else deleteTimes command n deleted

def deleteGraphemes (command : EditCommand) (n : ℕ) : Option (TextArea Line) :=
  match n with
  | 0 => some s
  | 1 => (s.applyEditCommand u command (some .delete)).map Prod.fst
  | n => (deleteTimes u command n s.beginUndoGroup).map endUndoGroup

def deleteBackward (n : ℕ) : Option (TextArea Line) :=
  s.deleteGraphemes u .deleteGraphemeBackward n

def deleteForward (n : ℕ) : Option (TextArea Line) :=
  s.deleteGraphemes u .deleteGraphemeForward n

def beginningOfLine (pos : ℕ) : ℕ :=
  match (List.range pos).reverse.find? (endsLine s.text.text s.elementRanges) with
  | none => 0
  | some i => i + 1

def endOfLine (pos : ℕ) : ℕ :=
  match (List.range' pos (utf8Len s.text.text - pos)).find?
      (endsLine s.text.text s.elementRanges) with
  | none => utf8Len s.text.text
  | some i => i

def killCurrentLine : Option (TextArea Line) :=
  let bol := s.beginningOfLine s.cursor
  let eol := s.endOfLine s.cursor
  if bol = eol then
    if 0 < bol then s.applyEditReplacement u ⟨bol - 1, bol⟩ [] (some .kill) else some s
  else s.applyEditReplacement u ⟨bol, eol⟩ [] (some .kill)

/-- Over a selection, the deletion and the insertion are one step of the history. -/
def yank : Option (TextArea Line) :=
  if s.killBuffer = [] then some s
  else
    match s.selectionRange with
    | none =>
      (s.applyEditReplacement u ⟨s.cursor, s.cursor⟩ s.killBuffer (some .insert)).map fun yanked =>
        yanked.noteInserted s.killBuffer
    | some _ =>
      (s.beginUndoGroup.deleteSelection u).bind fun (deleted, _) =>
        (deleted.applyEditReplacement u ⟨deleted.cursor, deleted.cursor⟩ deleted.killBuffer
          (some .insert)).map fun yanked => yanked.endUndoGroup.noteInserted deleted.killBuffer

/-- The selection goes to the kill buffer. -/
def killSelection : Option (TextArea Line) :=
  s.selectedText.bind fun selected =>
    let stashed : TextArea Line := match selected with
      | none => s
      | some text => { s with killBuffer := text }
    (stashed.deleteSelection u).map Prod.fst

/-! ## Elements -/

def addElement (range : ByteRange) (kind : ℕ) (display : Option Line) : TextArea Line :=
  let elem : TextElement Line := ⟨s.nextElementId, range, kind, display⟩
  { s with
    nextElementId := s.nextElementId + 1
    elements := (s.elements ++ [elem]).insertionSort fun e f => e.range.start ≤ f.range.start }

def applyElementTransaction (plan : EditPlan) (kind : ℕ) (display : Option Line) :
    Option (TextArea Line) :=
  match s.text.validatePlan u plan with
  | .error _ => none
  | .ok _ =>
    ((s.preMutate .element).applyValidatedEditPlan u plan (some .element)).map
      fun (applied, _) =>
        let start := plan.replacedByteRange.start
        let stop := start + utf8Len plan.replacement
        ((applied.addElement ⟨start, stop⟩ kind display).setCursor u stop).postMutate

def replaceRangeWithElement (range : ByteRange) (text : Str) (kind : ℕ) (display : Option Line) :
    Option (TextArea Line) :=
  (s.planEditReplacement u range text).bind fun plan =>
    s.applyElementTransaction u plan kind display

def insertElement (text : Str) (kind : ℕ) (display : Option Line) : Option (TextArea Line) :=
  s.replaceRangeWithElement u ⟨s.cursor, s.cursor⟩ text kind display

/-- The first element with the identifier. -/
def setElementDisplay (id : ℕ) (display : Option Line) : TextArea Line :=
  match s.elements.findIdx? fun e => e.id == id with
  | none => s
  | some index =>
    { s with elements := s.elements.modify index fun e => { e with display := display } }

def restoreElements (elems : List (ByteRange × ℕ × Option Line)) : TextArea Line :=
  elems.foldl
    (fun s elem =>
      match sliceBytes s.text.text elem.1.start elem.1.stop with
      | none => s
      | some _ => s.addElement elem.1 elem.2.1 elem.2.2)
    s

def inlineElement (id : ℕ) : TextArea Line × Bool :=
  match s.elements.findIdx? fun e => e.id == id with
  | none => (s, false)
  | some index =>
    let stop := ((s.elements[index]?).map fun e => e.range.stop).getD 0
    let mutated := s.preMutate .element
    let inlined := { mutated with elements := mutated.elements.eraseIdx index }
    let moved := inlined.setCursorInner u stop
    ({ moved with undoState := { moved.undoState with lastKind := none } }, true)

def setTabWidth (tabWidth : ℕ) : TextArea Line := { s with tabWidth := tabWidth }

end TextArea

/-! ## Operations -/

/-- The public operations. A key event is one of them or a few in a row; `moveCursorTo` stands for
the mouse and for movements by visual rows. -/
inductive AreaOp (Line : Type) where
  | setTabWidth (tabWidth : ℕ)
  | setText (text : Str)
  | insertStr (text : Str)
  | insertStrAt (pos : ℕ) (text : Str)
  | replaceRange (range : ByteRange) (text : Str)
  | insertStrReplacingSelection (text : Str)
  | command (c : EditCommand)
  | setCursor (pos : ℕ)
  | moveCursorTo (pos : ℕ)
  | setSelection (anchor head : ℕ)
  | clearSelection
  | deleteSelection
  | killSelection
  | deleteBackward (n : ℕ)
  | deleteForward (n : ℕ)
  | killCurrentLine
  | yank
  | insertElement (text : Str) (kind : ℕ) (display : Option Line)
  | replaceRangeWithElement (range : ByteRange) (text : Str) (kind : ℕ) (display : Option Line)
  | setElementDisplay (id : ℕ) (display : Option Line)
  | restoreElements (elems : List (ByteRange × ℕ × Option Line))
  | inlineElement (id : ℕ)
  | undo
  | redo
  | clearHistory
  | beginUndoGroup
  | endUndoGroup
  | cancelUndoGroup

def AreaOp.step {Line : Type} (u : Unicode) (op : AreaOp Line) (s : TextArea Line) :
    Option (TextArea Line) :=
  match op with
  | .setTabWidth tabWidth => some (s.setTabWidth tabWidth)
  | .setText text => s.setText u text
  | .insertStr text => s.insertStr u text
  | .insertStrAt pos text => s.insertStrAt u pos text
  | .replaceRange range text => s.replaceRange u range text
  | .insertStrReplacingSelection text => s.insertStrReplacingSelection u text
  | .command c => s.applyClassifiedCommand u c
  | .setCursor pos => some (s.setCursor u pos)
  | .moveCursorTo pos => some (s.setCursorInner u pos)
  | .setSelection anchor head => some (s.setSelection anchor head)
  | .clearSelection => some s.clearSelection
  | .deleteSelection => (s.deleteSelection u).map Prod.fst
  | .killSelection => s.killSelection u
  | .deleteBackward n => s.deleteBackward u n
  | .deleteForward n => s.deleteForward u n
  | .killCurrentLine => s.killCurrentLine u
  | .yank => s.yank u
  | .insertElement text kind display => s.insertElement u text kind display
  | .replaceRangeWithElement range text kind display =>
    s.replaceRangeWithElement u range text kind display
  | .setElementDisplay id display => some (s.setElementDisplay id display)
  | .restoreElements elems => some (s.restoreElements elems)
  | .inlineElement id => some (s.inlineElement u id).1
  | .undo => some (s.undo u).1
  | .redo => some (s.redo u).1
  | .clearHistory => some s.clearHistory
  | .beginUndoGroup => some s.beginUndoGroup
  | .endUndoGroup => some s.endUndoGroup
  | .cancelUndoGroup => some (s.cancelUndoGroup u)

/-- A text area that the public operations make of a new one. -/
inductive AreaReachable {Line : Type} (u : Unicode) : TextArea Line → Prop
  | new : AreaReachable u TextArea.new
  | step {s s' : TextArea Line} (op : AreaOp Line) (h : AreaReachable u s)
      (hstep : op.step u s = some s') : AreaReachable u s'

end GrokBuild.Textarea
