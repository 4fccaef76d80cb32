import GrokBuild.Textarea.ElementsIntact

/-!
# Atomic elements over a run

Every operation keeps the elements of the text and of the history intact. The cursor stays outside
them in a run that never leaves a grapheme cluster across the end of an element, deletes selections
that start on a grapheme boundary, and aims no mouse or row movement within an element.
-/

namespace GrokBuild.Textarea
open Text TextArea

variable {Line : Type} {u : Unicode} {created : ℕ → Option Str} {s t r : TextArea Line}

/-! ## The invariant -/

structure EntryIntact (created : ℕ → Option Str) (entry : UndoEntry Line) : Prop where
  elements : ElementsIntact created entry.text entry.elements
  cursor : Outside entry.elements entry.cursor

structure Sound (u : Unicode) (created : ℕ → Option Str) (s : TextArea Line) : Prop where
  stable : Stable u s
  intact : ElementsIntact created s.text.text s.elements
  fresh : ∀ id w, created id = some w → id < s.nextElementId
  stack : ∀ entry ∈ s.undoState.stack, EntryIntact created entry
  redo : ∀ entry ∈ s.undoState.redo, EntryIntact created entry
  checkpoint : ∀ entry, s.undoState.groupCheckpoint = some entry → EntryIntact created entry

/-- Elements intact, and the cursor outside them if their ends are aligned. -/
structure Retains (u : Unicode) (created : ℕ → Option Str) (t : TextArea Line) : Prop where
  sound : Sound u created t
  cursor : Aligned u t.text.text t.elements → Outside t.elements t.cursor

/-- What a change of the batching leaves alone. -/
structure SameArea (s t : TextArea Line) : Prop where
  text : t.text = s.text
  elements : t.elements = s.elements
  next : t.nextElementId = s.nextElementId
  stacks_same : SameStacks s t
  checkpoint : t.undoState.groupCheckpoint = s.undoState.groupCheckpoint

theorem Sound.sameArea (h : Sound u created s) (hstable : Stable u t) (hsame : SameArea s t) :
    Sound u created t := by
  obtain ⟨htext, helements, hnext, ⟨hstack, hredo⟩, hcheckpoint⟩ := hsame
  refine ⟨hstable, ?_, ?_, ?_, ?_, ?_⟩
  · rw [htext, helements]
    exact h.intact
  · rw [hnext]
    exact h.fresh
  · rw [hstack]
    exact h.stack
  · rw [hredo]
    exact h.redo
  · rw [hcheckpoint]
    exact h.checkpoint

theorem Retains.sameArea (h : Retains u created s) (hstable : Stable u t) (hsame : SameArea s t) :
    Retains u created t := by
  refine ⟨h.sound.sameArea hstable hsame, ?_⟩
  rw [TextArea.cursor, hsame.text, hsame.elements]
  exact h.cursor

/-- An edit of everything but the history. -/
theorem Sound.edited (h : Sound u created s) (hstable : Stable u t)
    (hundo : t.undoState = s.undoState) (hnext : t.nextElementId = s.nextElementId)
    (hintact : ElementsIntact created t.text.text t.elements) : Sound u created t := by
  refine ⟨hstable, hintact, ?_, ?_, ?_, ?_⟩
  · rw [hnext]
    exact h.fresh
  · rw [hundo]
    exact h.stack
  · rw [hundo]
    exact h.redo
  · rw [hundo]
    exact h.checkpoint

theorem Sound.retains (h : Sound u created s) (hcursor : Outside s.elements s.cursor) :
    Retains u created s := ⟨h, fun _ => hcursor⟩

theorem Sound.postMutate (h : Sound u created s) : Sound u created s.postMutate :=
  h.sameArea h.stable.keeps_postMutate.stable ⟨rfl, rfl, rfl, ⟨rfl, rfl⟩, rfl⟩

theorem Sound.clearSelection (h : Sound u created s) : Sound u created s.clearSelection :=
  h.sameArea h.stable.keeps_clearSelection.stable ⟨rfl, rfl, rfl, ⟨rfl, rfl⟩, rfl⟩

theorem Retains.postMutate (h : Retains u created s) : Retains u created s.postMutate :=
  h.sameArea h.sound.stable.keeps_postMutate.stable ⟨rfl, rfl, rfl, ⟨rfl, rfl⟩, rfl⟩

theorem Retains.clearSelection (h : Retains u created s) : Retains u created s.clearSelection :=
  h.sameArea h.sound.stable.keeps_clearSelection.stable ⟨rfl, rfl, rfl, ⟨rfl, rfl⟩, rfl⟩

theorem sameArea_noteInserted (s : TextArea Line) (text : Str) :
    SameArea s (s.noteInserted text) := by
  unfold TextArea.noteInserted
  split
  · exact ⟨rfl, rfl, rfl, ⟨rfl, rfl⟩, rfl⟩
  · exact ⟨rfl, rfl, rfl, ⟨rfl, rfl⟩, rfl⟩

theorem sameArea_breakInsertBatch (s : TextArea Line) (text : Str) :
    SameArea s (s.breakInsertBatch text) := by
  unfold TextArea.breakInsertBatch
  split
  · exact ⟨rfl, rfl, rfl, ⟨rfl, rfl⟩, rfl⟩
  · split_ifs
    · exact ⟨rfl, rfl, rfl, ⟨rfl, rfl⟩, rfl⟩
    · exact ⟨rfl, rfl, rfl, ⟨rfl, rfl⟩, rfl⟩

theorem Retains.noteInserted (h : Retains u created s) (text : Str) :
    Retains u created (s.noteInserted text) :=
  h.sameArea (h.sound.stable.keeps_noteInserted text).stable (sameArea_noteInserted s text)

/-- Outside of groups, where a mutation takes a checkpoint, the cursor is outside the elements. -/
def Checked (s : TextArea Line) : Prop :=
  s.undoState.groupDepth = 0 → Outside s.elements s.cursor

theorem Checked.breakInsertBatch (h : Checked s) (hstable : Stable u s) (text : Str) :
    Checked (s.breakInsertBatch text) := by
  have hsame := sameArea_breakInsertBatch s text
  intro hdepth
  rw [TextArea.cursor, hsame.text, hsame.elements]
  exact h ((hstable.keeps_breakInsertBatch text).group.depth ▸ hdepth)

theorem Checked.of_open (h : 0 < s.undoState.groupDepth) : Checked s :=
  fun hclosed => absurd hclosed (Nat.ne_of_gt h)

theorem Sound.preMutate (h : Sound u created s)
    (hcursor : Checked s) (kind : MutationKind) :
    Sound u created (s.preMutate kind) := by
  have hstable := (h.stable.keeps_preMutate kind).stable
  unfold TextArea.preMutate at hstable ⊢
  by_cases hopen : 0 < s.undoState.groupDepth
  · rw [if_pos hopen]
    exact h
  · rw [if_neg hopen] at hstable ⊢
    refine ⟨hstable, h.intact, h.fresh, fun entry hentry => ?_, nofun, h.checkpoint⟩
    dsimp only at hentry
    split_ifs at hentry
    · obtain hold | rfl := mem_pushBounded hentry
      · exact h.stack entry hold
      · exact ⟨h.intact, hcursor (by omega)⟩
    · exact h.stack entry hentry

/-! ## Edits -/

theorem Sound.applyValidatedEditPlan {plan : EditPlan} {kind : Option MutationKind}
    {outcome : EditOutcome} (h : Sound u created s)
    (hmade : Made u s.text s.elementRanges plan)
    (happly : s.applyValidatedEditPlan u plan kind = some (t, outcome)) :
    Retains u created t ∧ Replaced plan t ∧ t.undoState = s.undoState ∧
      t.nextElementId = s.nextElementId := by
  obtain ⟨hedited, hreplaced⟩ := applyValidatedEditPlan_editedWell h.intact hmade happly
  obtain ⟨hundo, hcursor⟩ := applyValidatedEditPlan_spec happly hmade.valid
  have hstable := (h.stable.keeps_of_undoState hundo hcursor).stable
  exact ⟨⟨h.edited hstable hundo hedited.nextElementId hedited.intact, hedited.cursor⟩, hreplaced,
    hundo, hedited.nextElementId⟩

theorem Sound.applyEditPlan {plan : EditPlan} {kind : Option MutationKind}
    {outcome : EditOutcome} (h : Sound u created s) (hcursor : Checked s)
    (hmade : Made u s.text s.elementRanges plan)
    (happly : s.applyEditPlan u plan kind = some (t, outcome)) :
    Retains u created t ∧ Replaced plan t := by
  unfold TextArea.applyEditPlan at happly
  split at happly
  · cases happly
  · split at happly
    · rename_i kind
      split_ifs at happly
      · rw [Option.map_eq_some_iff] at happly
        obtain ⟨⟨edited, outcome'⟩, hedited, heq⟩ := happly
        obtain ⟨rfl, -⟩ := Prod.mk.inj heq
        have hmade' : Made u (s.preMutate kind).text (s.preMutate kind).elementRanges plan := by
          rw [elementRanges, preMutate_text, preMutate_elements]
          exact hmade
        obtain ⟨hretains, hreplaced, -⟩ :=
          (h.preMutate hcursor kind).applyValidatedEditPlan hmade' hedited
        exact ⟨hretains.postMutate, hreplaced.slice, hreplaced.apart⟩
      · obtain ⟨hretains, hreplaced, -⟩ := h.applyValidatedEditPlan hmade happly
        exact ⟨hretains, hreplaced⟩
    · obtain ⟨hretains, hreplaced, -⟩ := h.applyValidatedEditPlan hmade happly
      exact ⟨hretains, hreplaced⟩

theorem Sound.applyEditCommand {command : EditCommand} {kind : Option MutationKind}
    {outcome : EditOutcome} (h : Sound u created s)
    (hcursor : Checked s)
    (happly : s.applyEditCommand u command kind = some (t, outcome)) : Retains u created t := by
  rw [TextArea.applyEditCommand, Option.bind_eq_some_iff] at happly
  obtain ⟨plan, hplan, happly⟩ := happly
  obtain ⟨plan', hplan', hmade⟩ := planCommand_made h.stable.cursor command s.elementRanges
  obtain rfl := Option.some.inj (hplan.symm.trans hplan')
  exact (h.applyEditPlan hcursor hmade happly).1

theorem Sound.made_of_planEditReplacement {range : ByteRange} {replacement : Str} {plan : EditPlan}
    (h : Sound u created s) (hplan : s.planEditReplacement u range replacement = some plan) :
    Made u s.text s.elementRanges plan := by
  obtain ⟨plan', hplan', hmade⟩ := planReplaceByteRange_made h.stable.cursor range
    (expandTabsWithWidth replacement s.tabWidth) s.elementRanges
  obtain rfl := Option.some.inj (hplan.symm.trans hplan')
  exact hmade

theorem Sound.applyEditReplacement {range : ByteRange} {replacement : Str}
    {kind : Option MutationKind} (h : Sound u created s)
    (hcursor : Checked s)
    (happly : s.applyEditReplacement u range replacement kind = some t) : Retains u created t := by
  rw [TextArea.applyEditReplacement, Option.bind_eq_some_iff] at happly
  obtain ⟨plan, hplan, happly⟩ := happly
  rw [Option.map_eq_some_iff] at happly
  obtain ⟨⟨edited, outcome⟩, happly, rfl⟩ := happly
  exact (h.applyEditPlan hcursor (h.made_of_planEditReplacement hplan) happly).1

theorem Sound.insertStr {text : Str} (h : Sound u created s) (hcursor : Checked s)
    (hinsert : s.insertStr u text = some t) (hne : text ≠ []) : Retains u created t := by
  unfold TextArea.insertStr at hinsert
  rw [if_neg hne, Option.map_eq_some_iff] at hinsert
  obtain ⟨inserted, hinserted, rfl⟩ := hinsert
  have hbroken := h.sameArea (h.stable.keeps_breakInsertBatch text).stable
    (sameArea_breakInsertBatch s text)
  have hedited := hbroken.applyEditReplacement (hcursor.breakInsertBatch h.stable text) hinserted
  exact hedited.noteInserted text

theorem Sound.insertStrAt {pos : ℕ} {text : Str} (h : Sound u created s)
    (hcursor : Outside s.elements s.cursor) (hinsert : s.insertStrAt u pos text = some t) :
    Retains u created t := by
  unfold TextArea.insertStrAt at hinsert
  split_ifs at hinsert
  · obtain rfl := Option.some.inj hinsert
    exact h.retains hcursor
  · rw [Option.map_eq_some_iff] at hinsert
    obtain ⟨inserted, hinserted, rfl⟩ := hinsert
    exact (h.applyEditReplacement (fun _ => hcursor) hinserted).noteInserted text

theorem setCursorByte_text (b : EditBuffer) (pos : ℕ) :
    (b.setCursorByte u pos).1.text = b.text := by
  unfold EditBuffer.setCursorByte
  dsimp only
  split_ifs
  · exact advanceGeneration_text _
  · rfl

theorem setCursorByte_cursorByte (b : EditBuffer) (pos : ℕ) :
    (b.setCursorByte u pos).1.cursorByte = normalizeExternalCursor u b.text pos := by
  unfold EditBuffer.setCursorByte
  dsimp only
  split_ifs
  · exact advanceGeneration_cursorByte _
  · rfl

theorem Sound.setCursorInner_sound (h : Sound u created s) (pos : ℕ) :
    Sound u created (s.setCursorInner u pos) := by
  refine h.edited (h.stable.keeps_setCursorInner pos).stable rfl rfl ?_
  unfold TextArea.setCursorInner
  rw [setCursorByte_text]
  exact h.intact

/-- A cursor that is set outside the elements. -/
theorem Sound.setCursorInner {pos : ℕ} (h : Sound u created s)
    (hpos : Outside s.elements (min pos (utf8Len s.text.text))) :
    Retains u created (s.setCursorInner u pos) := by
  refine ⟨h.setCursorInner_sound pos, fun haligned => ?_⟩
  unfold TextArea.setCursorInner at haligned ⊢
  rw [setCursorByte_text] at haligned
  rw [TextArea.cursor, setCursorByte_cursorByte]
  exact haligned.outside_normalize hpos

theorem ElementsIntact.apart {text : Str} {elements : List (TextElement Line)}
    (h : ElementsIntact created text elements) {e f : TextElement Line} (he : e ∈ elements)
    (hf : f ∈ elements) (hne : e ≠ f) :
    e.range.stop ≤ f.range.start ∨ f.range.stop ≤ e.range.start := by
  have : Std.Symm fun e f : TextElement Line =>
      e.range.stop ≤ f.range.start ∨ f.range.stop ≤ e.range.start := ⟨fun _ _ => Or.symm⟩
  exact h.disjoint.forall he hf hne

theorem ElementsIntact.outside_start {text : Str} {elements : List (TextElement Line)}
    (h : ElementsIntact created text elements) {e : TextElement Line} (he : e ∈ elements) :
    Outside elements e.range.start := by
  rintro f hf ⟨hlt, hgt⟩
  by_cases heq : e = f
  · exact Nat.lt_irrefl _ (heq ▸ hlt)
  · have hrange := (h.range_le he).1
    have hapart := h.apart he hf heq
    omega

theorem ElementsIntact.outside_stop {text : Str} {elements : List (TextElement Line)}
    (h : ElementsIntact created text elements) {e : TextElement Line} (he : e ∈ elements) :
    Outside elements e.range.stop := by
  rintro f hf ⟨hlt, hgt⟩
  by_cases heq : e = f
  · exact Nat.lt_irrefl _ (heq ▸ hgt)
  · have hrange := (h.range_le he).1
    have hapart := h.apart he hf heq
    omega

theorem ElementsIntact.outside_clamp {text : Str} {elements : List (TextElement Line)}
    (h : ElementsIntact created text elements) (position : ℕ) :
    Outside elements
      (normalizeCursorForAtomicRanges position (elements.map TextElement.range)) := by
  unfold normalizeCursorForAtomicRanges
  split
  · rename_i hfind
    exact fun e he => not_inside_of_find hfind e.range (List.mem_map_of_mem he)
  · rename_i range hfind
    obtain ⟨e, he, rfl⟩ := List.mem_map.mp (find_inside hfind).1
    split_ifs
    · exact h.outside_start he
    · exact h.outside_stop he

theorem Sound.setCursor (h : Sound u created s) (pos : ℕ) :
    Retains u created (s.setCursor u pos) :=
  h.setCursorInner (h.intact.outside_min (h.intact.outside_clamp _))

/-- Another text without elements, under the same history. -/
theorem Sound.cleared {text : EditBuffer} {pos : ℕ} (h : Sound u created s)
    (hstable : Stable u ((({ s with text := text, elements := [] } : TextArea Line).setCursorInner u
      pos).clearSelection.postMutate)) :
    Retains u created ((({ s with text := text, elements := [] } : TextArea Line).setCursorInner u
      pos).clearSelection.postMutate) :=
  ⟨⟨hstable, .nil created _, h.fresh, h.stack, h.redo, h.checkpoint⟩, fun _ => nofun⟩

theorem Sound.setText {text : Str} (h : Sound u created s) (hcursor : Checked s)
    (hset : s.setText u text = some t) : Retains u created t := by
  have hstable := (h.stable.keeps_setText hset).stable
  unfold TextArea.setText at hset
  split at hset
  · cases hset
  · split at hset
    · cases hset
    · dsimp only at hset
      rw [Option.map_eq_some_iff] at hset
      obtain ⟨⟨applied, outcome⟩, -, rfl⟩ := hset
      exact (h.preMutate hcursor .replace).cleared hstable

theorem Sound.deleteTimes {command : EditCommand} {n : ℕ} (h : Retains u created s)
    (hopen : 0 < s.undoState.groupDepth) (hdelete : deleteTimes u command n s = some t) :
    Retains u created t := by
  induction n generalizing s with
  | zero =>
    obtain rfl := Option.some.inj hdelete
    exact h
  | succ n ih =>
    rw [TextArea.deleteTimes, Option.bind_eq_some_iff] at hdelete
    obtain ⟨⟨deleted, outcome⟩, happly, hrest⟩ := hdelete
    have hdeleted := h.sound.applyEditCommand (.of_open hopen) happly
    have hdepth := (h.sound.stable.keeps_applyEditCommand happly).group.depth
    dsimp only at hrest
    split_ifs at hrest
    · obtain rfl := Option.some.inj hrest
      exact hdeleted
    · exact ih hdeleted (by rw [hdepth]; exact hopen) hrest

theorem Sound.killCurrentLine (h : Sound u created s) (hcursor : Outside s.elements s.cursor)
    (hkill : s.killCurrentLine u = some t) : Retains u created t := by
  unfold TextArea.killCurrentLine at hkill
  dsimp only at hkill
  split_ifs at hkill
  · exact h.applyEditReplacement (fun _ => hcursor) hkill
  · obtain rfl := Option.some.inj hkill
    exact h.retains hcursor
  · exact h.applyEditReplacement (fun _ => hcursor) hkill

/-! ## Selections -/

section CharBoundaries

variable {text : Str} {byte steps : ℕ}

theorem floorCharBoundary_le (text : Str) (byte : ℕ) : floorCharBoundary text byte ≤ byte := by
  induction byte with
  | zero => exact le_refl 0
  | succ byte ih =>
    rw [floorCharBoundary]
    split_ifs
    · exact le_refl _
    · exact ih.trans (Nat.le_succ byte)

theorem le_floorCharBoundary {boundary : ℕ} (h : CharBoundary text boundary)
    (hle : boundary ≤ byte) : boundary ≤ floorCharBoundary text byte := by
  induction byte with
  | zero => exact hle
  | succ byte ih =>
    rw [floorCharBoundary]
    split_ifs with hsplit
    · exact hle
    · refine ih (Nat.le_of_lt_succ (lt_of_le_of_ne hle ?_))
      rintro rfl
      exact hsplit (splitAtByte_isSome_iff.mpr h)

theorem ceilCharBoundary_le (text : Str) (steps byte : ℕ) :
    ceilCharBoundary text steps byte ≤ byte + steps := by
  induction steps generalizing byte with
  | zero => exact le_refl _
  | succ steps ih =>
    rw [ceilCharBoundary]
    split_ifs
    · exact Nat.le_add_right ..
    · have hle := ih (byte + 1)
      omega

end CharBoundaries

theorem start_absorbLoop {ranges : List ByteRange} {range : ByteRange}
    (h : ∀ r ∈ ranges, ¬ Span.Inside range.start r) :
    (absorbLoop ranges range).start = range.start := by
  fun_induction absorbLoop ranges range with
  | case1 range hstop => rfl
  | case2 range hnext ih =>
    have hkept : (absorbPass ranges range).start = range.start := Span.start_foldl_absorb h
    exact (ih (hkept.symm ▸ h)).trans hkept

theorem ElementsIntact.charBoundary {text : Str} {elements : List (TextElement Line)}
    (h : ElementsIntact created text elements) {e : TextElement Line} (he : e ∈ elements) :
    CharBoundary text e.range.stop := by
  obtain ⟨w, -, hslice⟩ := h.texts e he
  obtain ⟨front, back, rfl, hstart, hstop⟩ := sliceBytes_eq_some_iff.mp hslice
  refine ⟨front ++ w, back, rfl, ?_⟩
  rw [utf8Len_append, hstop, hstart]

/-- A selection is within the text and starts outside the elements. -/
theorem selectionRange_spec {range : ByteRange}
    (h : ElementsIntact created s.text.text s.elements) (hrange : s.selectionRange = some range) :
    range.start < range.stop ∧ range.stop ≤ utf8Len s.text.text ∧
      Outside s.elements range.start := by
  unfold selectionRange at hrange
  rw [Option.bind_eq_some_iff] at hrange
  obtain ⟨selection, -, hrange⟩ := hrange
  dsimp only at hrange
  split_ifs at hrange with hempty hcollapsed
  obtain rfl := Option.some.inj hrange
  have hgrows := absorbLoop_grows s.elementRanges
    ⟨min selection.anchor selection.head, max selection.anchor selection.head⟩
  have hclosed := closed_absorbLoop s.elementRanges
    ⟨min selection.anchor selection.head, max selection.anchor selection.head⟩
  generalize absorbLoop s.elementRanges _ = expanded at hgrows hclosed hcollapsed ⊢
  dsimp only at hgrows
  have hlt : expanded.start < expanded.stop := by omega
  have hout : Outside s.elements expanded.start := fun e he =>
    hclosed.start_not_inside hlt (List.mem_map_of_mem he)
  have hmin := h.outside_min hout
  have hceil := ceilCharBoundary_le s.text.text
    (utf8Len s.text.text - min expanded.stop (utf8Len s.text.text))
    (min expanded.stop (utf8Len s.text.text))
  refine ⟨Nat.lt_of_not_le hcollapsed, by dsimp only; omega, fun e he hin => ?_⟩
  have hfloor := floorCharBoundary_le s.text.text (min expanded.start (utf8Len s.text.text))
  refine hmin e he ⟨hin.1.trans_le hfloor, ?_⟩
  by_contra hle
  exact absurd (le_floorCharBoundary (h.charBoundary he) (Nat.le_of_not_lt hle))
    (Nat.not_le_of_lt hin.2)

/-- Where the ends of the elements are aligned, the atomic ranges are the elements. -/
theorem Aligned.outside_ranges {text : Str} {elements : List (TextElement Line)} {position : ℕ}
    (h : Aligned u text elements) (hintact : ElementsIntact created text elements)
    (hout : Outside elements position) :
    ∀ r ∈ normalizeAtomicRanges u text (elements.map TextElement.range),
      ¬ Span.Inside position r := by
  intro r hr hin
  obtain ⟨range, hrange, r', hwiden, hin'⟩ := inside_normalizeAtomicRanges_iff.mp ⟨r, hr, hin⟩
  obtain ⟨e, he, rfl⟩ := List.mem_map.mp hrange
  obtain ⟨hstart, hstop⟩ := h e he
  obtain ⟨hle, hlen⟩ := hintact.range_le he
  unfold widenAtomicRange at hwiden
  dsimp only at hwiden
  rw [Nat.min_eq_left hle, Nat.max_eq_right hle, Nat.min_eq_left hlen,
    Nat.min_eq_left (hle.trans hlen)] at hwiden
  split_ifs at hwiden
  obtain rfl := Option.some.inj hwiden
  have hfloor := (isFloor u text e.range.start).greatest _ hstart (le_refl _)
  have hceil := (isCeil u hlen).least _ hstop (le_refl _)
  exact hout e he ⟨hfloor.trans_lt hin'.1, hin'.2.trans_le hceil⟩

/-- A selection that starts on a grapheme boundary is deleted from where it starts. -/
theorem start_planEditReplacement {range : ByteRange} {plan : EditPlan}
    (h : Sound u created s) (haligned : Aligned u s.text.text s.elements)
    (hrange : s.selectionRange = some range) (hstart : Boundary u s.text.text range.start)
    (hplan : s.planEditReplacement u range [] = some plan) :
    plan.replacedByteRange.start = range.start := by
  obtain ⟨hlt, hlen, hout⟩ := selectionRange_spec h.intact hrange
  have hnormal : plan.replacedByteRange = normalizeReplacementRange u s.text.text range
      (normalizeAtomicRanges u s.text.text s.elementRanges) := by
    unfold planEditReplacement EditBuffer.planReplaceByteRange EditBuffer.makePlan at hplan
    dsimp only at hplan
    rw [Option.map_eq_some_iff] at hplan
    obtain ⟨removed, -, rfl⟩ := hplan
    rfl
  have hfloor : floorGraphemeBoundary u s.text.text range.start = range.start :=
    Nat.le_antisymm (isFloor u _ _).le ((isFloor u _ _).greatest _ hstart (le_refl _))
  rw [hnormal]
  unfold normalizeReplacementRange
  dsimp only
  rw [Nat.min_eq_left hlt.le, Nat.max_eq_right hlt.le, Nat.min_eq_left (hlt.le.trans hlen),
    Nat.min_eq_left hlen, if_neg hlt.ne, hfloor]
  exact start_absorbLoop (haligned.outside_ranges h.intact hout)

theorem Sound.deleteSelection {deleted : Bool} (h : Sound u created s) (hcursor : Checked s)
    (hdelete : s.deleteSelection u = some (t, deleted)) : Sound u created t := by
  unfold TextArea.deleteSelection at hdelete
  split at hdelete
  · obtain ⟨rfl, -⟩ := Prod.mk.inj (Option.some.inj hdelete)
    exact h
  · rename_i range _
    rw [Option.map_eq_some_iff] at hdelete
    obtain ⟨edited, hedited, heq⟩ := hdelete
    obtain ⟨rfl, -⟩ := Prod.mk.inj heq
    have hmoved := (h.applyEditReplacement hcursor hedited).sound.setCursorInner_sound
      (min range.start (utf8Len edited.text.text))
    exact hmoved.postMutate.clearSelection

/-- The selection, if any, starts on a grapheme boundary. -/
def SelectionAligned (u : Unicode) (s : TextArea Line) : Prop :=
  ∀ range, s.selectionRange = some range → Boundary u s.text.text range.start

theorem Sound.deleteSelection_retains {deleted : Bool} (h : Sound u created s)
    (hcursor : Outside s.elements s.cursor) (haligned : Aligned u s.text.text s.elements)
    (hselection : SelectionAligned u s) (hdelete : s.deleteSelection u = some (t, deleted)) :
    Retains u created t := by
  unfold TextArea.deleteSelection at hdelete
  split at hdelete
  · obtain ⟨rfl, -⟩ := Prod.mk.inj (Option.some.inj hdelete)
    exact h.retains hcursor
  · rename_i range hrange
    rw [Option.map_eq_some_iff] at hdelete
    obtain ⟨edited, hedited, heq⟩ := hdelete
    obtain ⟨rfl, -⟩ := Prod.mk.inj heq
    rw [TextArea.applyEditReplacement, Option.bind_eq_some_iff] at hedited
    obtain ⟨plan, hplan, hedited⟩ := hedited
    rw [Option.map_eq_some_iff] at hedited
    obtain ⟨⟨edited', outcome⟩, happly, rfl⟩ := hedited
    have hstart := start_planEditReplacement h haligned hrange (hselection range hrange) hplan
    obtain ⟨hretains, hreplaced⟩ :=
      h.applyEditPlan (fun _ => hcursor) (h.made_of_planEditReplacement hplan) happly
    have hout : Outside edited'.elements range.start := by
      rintro e he ⟨hlt, hgt⟩
      have hapart := hreplaced.apart e he
      omega
    have hclamped := hretains.sound.intact.outside_min hout
    have hmoved := hretains.sound.setCursorInner
      (hretains.sound.intact.outside_min hclamped)
    exact hmoved.postMutate.clearSelection

theorem Sound.killSelection (h : Sound u created s) (hcursor : Outside s.elements s.cursor)
    (haligned : Aligned u s.text.text s.elements) (hselection : SelectionAligned u s)
    (hkill : s.killSelection u = some t) : Retains u created t := by
  unfold TextArea.killSelection at hkill
  rw [Option.bind_eq_some_iff] at hkill
  obtain ⟨selected, -, hkill⟩ := hkill
  rw [Option.map_eq_some_iff] at hkill
  obtain ⟨⟨killed, deleted⟩, hdelete, rfl⟩ := hkill
  cases selected with
  | none => exact h.deleteSelection_retains hcursor haligned hselection hdelete
  | some text =>
    have hstable := (h.stable.keeps_of_undoState (t := { s with killBuffer := text }) rfl
      h.stable.cursor).stable
    have hstashed : Sound u created { s with killBuffer := text } :=
      h.edited hstable rfl rfl h.intact
    exact hstashed.deleteSelection_retains hcursor haligned hselection hdelete

/-! ## Groups -/

theorem Sound.beginUndoGroup (h : Sound u created s) (hcursor : Outside s.elements s.cursor) :
    Sound u created s.beginUndoGroup := by
  refine ⟨h.stable.beginUndoGroup, h.intact, h.fresh, h.stack, h.redo, fun entry hentry => ?_⟩
  unfold TextArea.beginUndoGroup at hentry
  dsimp only at hentry
  split_ifs at hentry
  · obtain rfl := Option.some.inj hentry
    exact ⟨h.intact, hcursor⟩
  · exact h.checkpoint entry hentry

theorem Sound.endUndoGroup (h : Sound u created s) : Sound u created s.endUndoGroup := by
  have hstable := h.stable.endUndoGroup
  match hdepth : s.undoState.groupDepth with
  | 0 =>
    unfold TextArea.endUndoGroup
    rw [hdepth]
    exact h
  | 1 =>
    obtain ⟨checkpoint, hcheckpoint⟩ :=
      h.stable.checkpoint_of_open (by rw [hdepth]; exact Nat.one_pos)
    rw [endUndoGroup_outermost hdepth hcheckpoint] at hstable ⊢
    refine ⟨hstable, h.intact, h.fresh, fun entry hentry => ?_, fun entry hentry => ?_, nofun⟩
    · change entry ∈ ite _ _ _ at hentry
      split_ifs at hentry
      · obtain hold | rfl := mem_pushBounded hentry
        · exact h.stack entry hold
        · exact h.checkpoint entry hcheckpoint
      · exact h.stack entry hentry
    · change entry ∈ ite _ _ _ at hentry
      split_ifs at hentry
      · cases hentry
      · exact h.redo entry hentry
  | depth + 2 =>
    rw [endUndoGroup_nested hdepth] at hstable ⊢
    exact ⟨hstable, h.intact, h.fresh, h.stack, h.redo, h.checkpoint⟩

/-- The end of a group leaves the text, the elements and the cursor alone. -/
theorem endUndoGroup_area (s : TextArea Line) :
    s.endUndoGroup.text = s.text ∧ s.endUndoGroup.elements = s.elements := by
  unfold TextArea.endUndoGroup
  split
  · exact ⟨rfl, rfl⟩
  · dsimp only
    split
    · exact ⟨rfl, rfl⟩
    · split_ifs
      · exact ⟨rfl, rfl⟩
      · exact ⟨rfl, rfl⟩
  · exact ⟨rfl, rfl⟩

theorem Retains.endUndoGroup (h : Retains u created s) : Retains u created s.endUndoGroup := by
  obtain ⟨htext, helements⟩ := endUndoGroup_area s
  refine ⟨h.sound.endUndoGroup, ?_⟩
  rw [TextArea.cursor, htext, helements]
  exact h.cursor

theorem Sound.insertStrReplacingSelection {text : Str} (h : Sound u created s)
    (hcursor : Outside s.elements s.cursor) (haligned : Aligned u s.text.text s.elements)
    (hselection : text = [] → SelectionAligned u s)
    (hinsert : s.insertStrReplacingSelection u text = some t) : Retains u created t := by
  unfold TextArea.insertStrReplacingSelection at hinsert
  split at hinsert
  · have hcleared := (h.retains hcursor).clearSelection
    by_cases hnil : text = []
    · subst hnil
      obtain rfl := Option.some.inj hinsert
      exact hcleared
    · exact hcleared.sound.insertStr (fun _ => hcursor) hinsert hnil
  · rw [Option.bind_eq_some_iff] at hinsert
    obtain ⟨⟨deleted, _⟩, hdelete, hinsert⟩ := hinsert
    rw [Option.map_eq_some_iff] at hinsert
    obtain ⟨inserted, hinserted, rfl⟩ := hinsert
    have hbegun := h.beginUndoGroup hcursor
    by_cases hnil : text = []
    · subst hnil
      obtain rfl := Option.some.inj hinserted
      exact (hbegun.deleteSelection_retains hcursor haligned (hselection rfl) hdelete).endUndoGroup
    · have hdeleted := hbegun.deleteSelection (.of_open (Nat.succ_pos _)) hdelete
      have hdepth := (hbegun.stable.keeps_deleteSelection hdelete).group.depth
      have hopen : 0 < deleted.undoState.groupDepth := by
        rw [hdepth]
        exact Nat.succ_pos _
      exact (hdeleted.insertStr (.of_open hopen) hinserted hnil).endUndoGroup

theorem Sound.yank (h : Sound u created s) (hcursor : Outside s.elements s.cursor)
    (hyank : s.yank u = some t) : Retains u created t := by
  unfold TextArea.yank at hyank
  split_ifs at hyank
  · obtain rfl := Option.some.inj hyank
    exact h.retains hcursor
  · split at hyank
    · rw [Option.map_eq_some_iff] at hyank
      obtain ⟨yanked, hyanked, rfl⟩ := hyank
      exact (h.applyEditReplacement (fun _ => hcursor) hyanked).noteInserted s.killBuffer
    · rw [Option.bind_eq_some_iff] at hyank
      obtain ⟨⟨deleted, _⟩, hdelete, hyank⟩ := hyank
      rw [Option.map_eq_some_iff] at hyank
      obtain ⟨yanked, hyanked, rfl⟩ := hyank
      have hbegun := h.beginUndoGroup hcursor
      have hdeleted := hbegun.deleteSelection (.of_open (Nat.succ_pos _)) hdelete
      have hdepth := (hbegun.stable.keeps_deleteSelection hdelete).group.depth
      have hopen : 0 < deleted.undoState.groupDepth := by
        rw [hdepth]
        exact Nat.succ_pos _
      exact (hdeleted.applyEditReplacement (.of_open hopen) hyanked).endUndoGroup.noteInserted
        deleted.killBuffer

theorem Sound.deleteGraphemes {command : EditCommand} {n : ℕ} (h : Sound u created s)
    (hcursor : Outside s.elements s.cursor)
    (hdelete : s.deleteGraphemes u command n = some t) : Retains u created t := by
  unfold TextArea.deleteGraphemes at hdelete
  split at hdelete
  · obtain rfl := Option.some.inj hdelete
    exact h.retains hcursor
  · rw [Option.map_eq_some_iff] at hdelete
    obtain ⟨⟨deleted, outcome⟩, happly, rfl⟩ := hdelete
    exact h.applyEditCommand (fun _ => hcursor) happly
  · rw [Option.map_eq_some_iff] at hdelete
    obtain ⟨deleted, hdeleted, rfl⟩ := hdelete
    have hbegun := (h.beginUndoGroup hcursor).retains hcursor
    exact (Sound.deleteTimes hbegun (Nat.succ_pos _) hdeleted).endUndoGroup

theorem Sound.applyClassifiedCommand {command : EditCommand} (h : Sound u created s)
    (hcursor : Outside s.elements s.cursor)
    (hcommand : s.applyClassifiedCommand u command = some t) : Retains u created t := by
  unfold TextArea.applyClassifiedCommand at hcommand
  split at hcommand
  · exact h.insertStr (fun _ => hcursor) hcommand (List.cons_ne_nil _ _)
  · rw [Option.map_eq_some_iff] at hcommand
    obtain ⟨⟨edited, outcome⟩, hedited, rfl⟩ := hcommand
    exact h.applyEditCommand (fun _ => hcursor) hedited

/-! ## Elements -/

theorem ElementsIntact.mono {created' : ℕ → Option Str} {text : Str}
    {elements : List (TextElement Line)} (h : ElementsIntact created text elements)
    (hsub : ∀ id w, created id = some w → created' id = some w) :
    ElementsIntact created' text elements := by
  refine ⟨h.sorted, h.disjoint, h.distinct, fun e he => ?_⟩
  obtain ⟨w, hw, hslice⟩ := h.texts e he
  exact ⟨w, hsub e.id w hw, hslice⟩

theorem EntryIntact.mono {created' : ℕ → Option Str} {entry : UndoEntry Line}
    (h : EntryIntact created entry) (hsub : ∀ id w, created id = some w → created' id = some w) :
    EntryIntact created' entry := ⟨h.elements.mono hsub, h.cursor⟩

/-- An element over a slice that no other element reaches into. -/
theorem ElementsIntact.add {text w : Str} {elements : List (TextElement Line)}
    {elem : TextElement Line} (h : ElementsIntact created text elements)
    (hcreated : created elem.id = some w)
    (hslice : sliceBytes text elem.range.start elem.range.stop = some w)
    (hfresh : ∀ e ∈ elements, e.id ≠ elem.id)
    (hapart : ∀ e ∈ elements, e.range.stop ≤ elem.range.start ∨
      elem.range.stop ≤ e.range.start) :
    ElementsIntact created text
      ((elements ++ [elem]).insertionSort fun e f => e.range.start ≤ f.range.start) := by
  have hperm := List.perm_insertionSort (fun e f : TextElement Line => e.range.start ≤ f.range.start)
    (elements ++ [elem])
  refine ⟨?_, ?_, ?_, fun e he => ?_⟩
  · have htotal : Std.Total fun e f : TextElement Line => e.range.start ≤ f.range.start :=
      ⟨fun e f => Nat.le_total _ _⟩
    have htrans : IsTrans (TextElement Line) fun e f => e.range.start ≤ f.range.start :=
      ⟨fun e f g => Nat.le_trans⟩
    exact List.pairwise_insertionSort _ _
  · rw [hperm.pairwise_iff Or.symm, List.pairwise_append]
    refine ⟨h.disjoint, List.pairwise_singleton _ _, fun e he f hf => ?_⟩
    rw [List.mem_singleton.mp hf]
    exact hapart e he
  · rw [(hperm.map TextElement.id).nodup_iff, List.map_append, List.map_singleton,
      List.nodup_append]
    refine ⟨h.distinct, List.nodup_singleton _, fun id hid id' hid' => ?_⟩
    obtain ⟨e, he, rfl⟩ := List.mem_map.mp hid
    rw [List.mem_singleton.mp hid']
    exact hfresh e he
  · rw [hperm.mem_iff, List.mem_append, List.mem_singleton] at he
    obtain hold | rfl := he
    · exact h.texts e hold
    · exact ⟨w, hcreated, hslice⟩

/-- The texts that elements were created with, after one more. -/
def recordText (created : ℕ → Option Str) (id : ℕ) (text : Str) : ℕ → Option Str :=
  Function.update created id (some text)

theorem Sound.recordText_sub (h : Sound u created s) (text : Str) :
    ∀ id w, created id = some w → recordText created s.nextElementId text id = some w := by
  intro id w hw
  rw [recordText, Function.update_of_ne (h.fresh id w hw).ne]
  exact hw

theorem Sound.addElement {range : ByteRange} {text : Str} (h : Sound u created s)
    (hslice : sliceBytes s.text.text range.start range.stop = some text)
    (hapart : ∀ e ∈ s.elements, e.range.stop ≤ range.start ∨ range.stop ≤ e.range.start)
    (kind : ℕ) (display : Option Line) :
    Sound u (recordText created s.nextElementId text) (s.addElement range kind display) := by
  have hsub := h.recordText_sub text
  refine ⟨(h.stable.keeps_addElement range kind display).stable, ?_, fun id w hw => ?_,
    fun entry he => (h.stack entry he).mono hsub, fun entry he => (h.redo entry he).mono hsub,
    fun entry he => (h.checkpoint entry he).mono hsub⟩
  · refine (h.intact.mono hsub).add (Function.update_self _ _ _) hslice (fun e he heq => ?_) hapart
    obtain ⟨w, hw, -⟩ := h.intact.texts e he
    exact absurd heq (h.fresh e.id w hw).ne
  · show id < s.nextElementId + 1
    by_cases heq : id = s.nextElementId
    · omega
    · rw [recordText, Function.update_of_ne heq] at hw
      exact (h.fresh id w hw).trans (Nat.lt_succ_self _)

theorem Sound.replaceRangeWithElement {range : ByteRange} {text : Str} {kind : ℕ}
    {display : Option Line} (h : Sound u created s) (hcursor : Outside s.elements s.cursor)
    (hreplace : s.replaceRangeWithElement u range text kind display = some t) :
    Retains u (recordText created s.nextElementId (expandTabsWithWidth text s.tabWidth)) t := by
  rw [TextArea.replaceRangeWithElement, Option.bind_eq_some_iff] at hreplace
  obtain ⟨plan, hplan, htransaction⟩ := hreplace
  have hmade := h.made_of_planEditReplacement hplan
  have hreplacement : plan.replacement = expandTabsWithWidth text s.tabWidth := by
    unfold planEditReplacement EditBuffer.planReplaceByteRange EditBuffer.makePlan at hplan
    dsimp only at hplan
    rw [Option.map_eq_some_iff] at hplan
    obtain ⟨removed, -, rfl⟩ := hplan
    rfl
  unfold applyElementTransaction at htransaction
  split at htransaction
  · cases htransaction
  · rw [Option.map_eq_some_iff] at htransaction
    obtain ⟨⟨applied, outcome⟩, happlied, rfl⟩ := htransaction
    have hmade' : Made u (s.preMutate .element).text (s.preMutate .element).elementRanges plan := by
      rw [elementRanges, preMutate_text, preMutate_elements]
      exact hmade
    obtain ⟨hretains, hreplaced, -, hnext⟩ :=
      (h.preMutate (fun _ => hcursor) .element).applyValidatedEditPlan hmade' happlied
    have hnext' : (s.preMutate .element).nextElementId = s.nextElementId := by
      unfold TextArea.preMutate
      split_ifs
      · rfl
      · rfl
    have hadded := @Sound.addElement _ _ _ _ ⟨plan.replacedByteRange.start,
      plan.replacedByteRange.start + utf8Len plan.replacement⟩ _ hretains.sound hreplaced.slice
      hreplaced.apart
      kind display
    rw [hnext, hnext', hreplacement] at hadded
    rw [← hreplacement] at hadded ⊢
    exact (hadded.setCursor _).postMutate

/-- What an element is but for its kind and display. -/
def TextElement.place (e : TextElement Line) : ℕ × ByteRange := (e.id, e.range)

theorem ElementsIntact.congr {text : Str} {elements elements' : List (TextElement Line)}
    (h : ElementsIntact created text elements)
    (hsame : elements'.map TextElement.place = elements.map TextElement.place) :
    ElementsIntact created text elements' := by
  refine ⟨?_, ?_, ?_, fun e he => ?_⟩
  · have hsorted : (elements.map TextElement.place).Pairwise fun p q => p.2.start ≤ q.2.start :=
      List.pairwise_map.mpr h.sorted
    rw [← hsame, List.pairwise_map] at hsorted
    exact hsorted
  · have hdisjoint : (elements.map TextElement.place).Pairwise fun p q =>
        p.2.stop ≤ q.2.start ∨ q.2.stop ≤ p.2.start := List.pairwise_map.mpr h.disjoint
    rw [← hsame, List.pairwise_map] at hdisjoint
    exact hdisjoint
  · have hids := congrArg (List.map Prod.fst) hsame
    rw [List.map_map, List.map_map] at hids
    change elements'.map TextElement.id = elements.map TextElement.id at hids
    rw [hids]
    exact h.distinct
  · have hmem := List.mem_map_of_mem (f := TextElement.place) he
    rw [hsame] at hmem
    obtain ⟨e', he', hplace⟩ := List.mem_map.mp hmem
    obtain ⟨hid, hrange⟩ := Prod.mk.inj hplace
    obtain ⟨w, hw, hslice⟩ := h.texts e' he'
    refine ⟨w, hid ▸ hw, ?_⟩
    rw [← hrange]
    exact hslice

theorem Outside.congr {elements elements' : List (TextElement Line)} {position : ℕ}
    (h : Outside elements position)
    (hsame : elements'.map TextElement.place = elements.map TextElement.place) :
    Outside elements' position := by
  intro e he
  have hmem := List.mem_map_of_mem (f := TextElement.place) he
  rw [hsame] at hmem
  obtain ⟨e', he', hplace⟩ := List.mem_map.mp hmem
  rw [← (Prod.mk.inj hplace).2]
  exact h e' he'

theorem Sound.setElementDisplay (h : Sound u created s) (hcursor : Outside s.elements s.cursor)
    (id : ℕ) (display : Option Line) : Retains u created (s.setElementDisplay id display) := by
  unfold TextArea.setElementDisplay
  split
  · exact h.retains hcursor
  · rename_i index _
    have hplaces : (s.elements.modify index fun e => { e with display := display }).map
        TextElement.place = s.elements.map TextElement.place := by
      apply List.ext_getElem?
      intro i
      rw [List.getElem?_map, List.getElem?_modify, List.getElem?_map]
      cases s.elements[i]? with
      | none => rfl
      | some e =>
        show some (TextElement.place (if index = i then { e with display := display } else e)) =
          some e.place
        split_ifs
        · rfl
        · rfl
    have hstable := (h.stable.keeps_of_undoState (t := { s with
      elements := s.elements.modify index fun e => { e with display := display } }) rfl
      h.stable.cursor).stable
    exact (h.edited hstable rfl rfl (h.intact.congr hplaces)).retains (hcursor.congr hplaces)

theorem Retains.lastKind (h : Retains u created s) (kind : Option MutationKind) :
    Retains u created { s with undoState := { s.undoState with lastKind := kind } } :=
  h.sameArea (h.sound.stable.keeps_lastKind kind).stable ⟨rfl, rfl, rfl, ⟨rfl, rfl⟩, rfl⟩

theorem ElementsIntact.outside_inlined {text : Str} {elements : List (TextElement Line)}
    (h : ElementsIntact created text elements) (index : ℕ) :
    Outside (elements.eraseIdx index) (((elements[index]?).map fun e => e.range.stop).getD 0) := by
  cases hget : elements[index]? with
  | none => exact fun e _ hin => Nat.not_lt_zero _ hin.1
  | some e =>
    intro f hf
    exact h.outside_stop (List.mem_of_getElem? hget) f ((List.eraseIdx_sublist elements index).subset hf)

theorem Sound.inlined {index position : ℕ} (h : Sound u created s)
    (hposition : Outside (s.elements.eraseIdx index) position) :
    Retains u created (({ s with elements := s.elements.eraseIdx index } : TextArea Line).setCursorInner
      u position) := by
  have hstable := (h.stable.keeps_of_undoState
    (t := { s with elements := s.elements.eraseIdx index }) rfl h.stable.cursor).stable
  have hremoved := h.edited hstable rfl rfl (h.intact.sublist (List.eraseIdx_sublist _ index))
  exact hremoved.setCursorInner (hremoved.intact.outside_min hposition)

theorem Sound.inlineElement (h : Sound u created s) (hcursor : Outside s.elements s.cursor)
    (id : ℕ) : Retains u created (s.inlineElement u id).1 := by
  unfold TextArea.inlineElement
  split
  · exact h.retains hcursor
  · rename_i index _
    have houtside : Outside ((s.preMutate .element).elements.eraseIdx index)
        (((s.elements[index]?).map fun e => e.range.stop).getD 0) := by
      rw [preMutate_elements]
      exact h.intact.outside_inlined index
    exact ((h.preMutate (fun _ => hcursor) .element).inlined houtside).lastKind none

/-! ## History -/

/-- An entry of the history comes back with its own cursor, whatever the stacks then are. -/
theorem Sound.restored {entry : UndoEntry Line} {stack redo : List (UndoEntry Line)}
    (h : Sound u created s) (hfixed : entry.Fixed u) (hentry : EntryIntact created entry)
    (hstable : Stable u (({ s with
      undoState := { s.undoState with stack := stack, redo := redo } }).restore u entry).resetBatch)
    (hstack : ∀ e ∈ stack, EntryIntact created e) (hredo : ∀ e ∈ redo, EntryIntact created e) :
    Retains u created (({ s with
      undoState := { s.undoState with stack := stack, redo := redo } }).restore u entry).resetBatch := by
  refine ⟨⟨hstable, hentry.elements, h.fresh, hstack, hredo, h.checkpoint⟩, fun _ => ?_⟩
  have hcursor : (s.restore u entry).cursor = entry.cursor := normalize_of_boundary hfixed
  show Outside entry.elements (s.restore u entry).cursor
  rw [hcursor]
  exact hentry.cursor

theorem Sound.undo (h : Sound u created s) (hcursor : Outside s.elements s.cursor) :
    Retains u created (s.undo u).1 := by
  have hstable := h.stable.undo.1
  unfold TextArea.undo at hstable ⊢
  split at hstable
  · exact h.retains hcursor
  · rename_i entry hlast
    have hentry := List.mem_of_getLast? hlast
    refine h.restored (h.stable.stack entry hentry) (h.stack entry hentry) hstable
      (fun e he => h.stack e (List.dropLast_subset _ he)) fun e he => ?_
    rw [List.mem_append, List.mem_singleton] at he
    obtain hold | rfl := he
    · exact h.redo e hold
    · exact ⟨h.intact, hcursor⟩

theorem Sound.redone (h : Sound u created s) (hcursor : Outside s.elements s.cursor) :
    Retains u created (s.redo u).1 := by
  have hstable := h.stable.redone.1
  unfold TextArea.redo at hstable ⊢
  split at hstable
  · exact h.retains hcursor
  · rename_i entry hlast
    have hentry := List.mem_of_getLast? hlast
    refine h.restored (h.stable.redo entry hentry) (h.redo entry hentry) hstable
      (fun e he => ?_) fun e he => h.redo e (List.dropLast_subset _ he)
    rw [List.mem_append, List.mem_singleton] at he
    obtain hold | rfl := he
    · exact h.stack e hold
    · exact ⟨h.intact, hcursor⟩

theorem Sound.clearHistory (h : Sound u created s) : Sound u created s.clearHistory :=
  ⟨h.stable.clearHistory.1, h.intact, h.fresh, nofun, nofun, h.checkpoint⟩

theorem Sound.cancelUndoGroup (h : Sound u created s) (hcursor : Outside s.elements s.cursor) :
    Retains u created (s.cancelUndoGroup u) := by
  have hstable := h.stable.cancelUndoGroup
  unfold TextArea.cancelUndoGroup at hstable ⊢
  split_ifs with hzero
  · exact h.retains hcursor
  · obtain ⟨checkpoint, hsome⟩ := h.stable.checkpoint_of_open (Nat.pos_of_ne_zero hzero)
    rw [if_neg hzero] at hstable
    rw [hsome] at hstable ⊢
    have hentry := h.checkpoint checkpoint hsome
    refine ⟨⟨hstable, hentry.elements, h.fresh, h.stack, h.redo, nofun⟩, fun _ => ?_⟩
    have hcursor' : (s.restore u checkpoint).cursor = checkpoint.cursor :=
      normalize_of_boundary (h.stable.checkpoint checkpoint hsome)
    show Outside checkpoint.elements (s.restore u checkpoint).cursor
    rw [hcursor']
    exact hentry.cursor

/-! ## Runs -/

/-- The texts that elements were created with, after an operation. -/
def AreaOp.recordCreated (op : AreaOp Line) (s : TextArea Line) (created : ℕ → Option Str) :
    ℕ → Option Str :=
  match op with
  | .insertElement text _ _ | .replaceRangeWithElement _ text _ _ =>
    recordText created s.nextElementId (expandTabsWithWidth text s.tabWidth)
  | _ => created

/-- Elements of an earlier session come with ranges of the caller's. -/
def AreaOp.isRestore : AreaOp Line → Bool
  | .restoreElements _ => true
  | _ => false

def AreaOp.deletesSelection : AreaOp Line → Bool
  | .deleteSelection | .killSelection => true
  | .insertStrReplacingSelection text => text.isEmpty
  | _ => false

/-- A run of edits with the texts that its elements were created with, every step of it allowed. -/
inductive EditRun (u : Unicode)
    (allowed : AreaOp Line → TextArea Line → TextArea Line → Prop) :
    (ℕ → Option Str) → TextArea Line → Prop
  | new : EditRun u allowed (fun _ => none) TextArea.new
  | step {created : ℕ → Option Str} {s t : TextArea Line} (op : AreaOp Line)
      (h : EditRun u allowed created s) (hedit : op.isRestore = false)
      (hstep : op.step u s = some t) (hallowed : allowed op s t) :
      EditRun u allowed (op.recordCreated s created) t

/-- The step joins no grapheme cluster across an end of an element, deletes no selection that starts
within a cluster, and has the mouse point into no element. -/
structure AreaOp.Clear (u : Unicode) (op : AreaOp Line) (s t : TextArea Line) : Prop where
  aligned : Aligned u t.text.text t.elements
  selection : op.deletesSelection = true → SelectionAligned u s
  pointed : ∀ pos, op = .moveCursorTo pos → Outside s.elements (min pos (utf8Len s.text.text))

theorem Sound.step {op : AreaOp Line} (h : Sound u created s)
    (hcursor : Outside s.elements s.cursor) (haligned : Aligned u s.text.text s.elements)
    (hedit : op.isRestore = false) (hstep : op.step u s = some t) (hclear : op.Clear u s t) :
    Retains u (op.recordCreated s created) t := by
  cases op with
  | setText text => exact h.setText (fun _ => hcursor) hstep
  | insertStr text =>
    by_cases hnil : text = []
    · subst hnil
      obtain rfl := Option.some.inj hstep
      exact h.retains hcursor
    · exact h.insertStr (fun _ => hcursor) hstep hnil
  | insertStrAt pos text => exact h.insertStrAt hcursor hstep
  | replaceRange range text => exact h.applyEditReplacement (fun _ => hcursor) hstep
  | insertStrReplacingSelection text =>
    refine h.insertStrReplacingSelection hcursor haligned (fun hnil => hclear.selection ?_) hstep
    rw [hnil]
    rfl
  | command c => exact h.applyClassifiedCommand hcursor hstep
  | deleteSelection =>
    obtain ⟨⟨deleted, _⟩, hdelete, rfl⟩ := Option.map_eq_some_iff.mp hstep
    exact h.deleteSelection_retains hcursor haligned (hclear.selection rfl) hdelete
  | killSelection => exact h.killSelection hcursor haligned (hclear.selection rfl) hstep
  | deleteBackward n => exact h.deleteGraphemes hcursor hstep
  | deleteForward n => exact h.deleteGraphemes hcursor hstep
  | killCurrentLine => exact h.killCurrentLine hcursor hstep
  | yank => exact h.yank hcursor hstep
  | insertElement text kind display => exact h.replaceRangeWithElement hcursor hstep
  | replaceRangeWithElement range text kind display =>
    exact h.replaceRangeWithElement hcursor hstep
  | setTabWidth tabWidth =>
    obtain rfl := Option.some.inj hstep
    have hstable := (h.stable.keeps_of_undoState (t := s.setTabWidth tabWidth) rfl
      h.stable.cursor).stable
    exact (h.edited hstable rfl rfl h.intact).retains hcursor
  | setCursor pos =>
    obtain rfl := Option.some.inj hstep
    exact h.setCursor pos
  | moveCursorTo pos =>
    obtain rfl := Option.some.inj hstep
    exact h.setCursorInner (hclear.pointed pos rfl)
  | setSelection anchor head =>
    obtain rfl := Option.some.inj hstep
    have hstable := (h.stable.keeps_of_undoState (t := s.setSelection anchor head) rfl
      h.stable.cursor).stable
    exact (h.edited hstable rfl rfl h.intact).retains hcursor
  | clearSelection =>
    obtain rfl := Option.some.inj hstep
    exact (h.retains hcursor).clearSelection
  | setElementDisplay id display =>
    obtain rfl := Option.some.inj hstep
    exact h.setElementDisplay hcursor id display
  | restoreElements elems => cases hedit
  | inlineElement id =>
    obtain rfl := Option.some.inj hstep
    exact h.inlineElement hcursor id
  | undo =>
    obtain rfl := Option.some.inj hstep
    exact h.undo hcursor
  | redo =>
    obtain rfl := Option.some.inj hstep
    exact h.redone hcursor
  | clearHistory =>
    obtain rfl := Option.some.inj hstep
    exact h.clearHistory.retains hcursor
  | beginUndoGroup =>
    obtain rfl := Option.some.inj hstep
    exact (h.beginUndoGroup hcursor).retains hcursor
  | endUndoGroup =>
    obtain rfl := Option.some.inj hstep
    exact (h.retains hcursor).endUndoGroup
  | cancelUndoGroup =>
    obtain rfl := Option.some.inj hstep
    exact h.cancelUndoGroup hcursor

theorem EditRun.sound (h : EditRun u (AreaOp.Clear u) created s) :
    Sound u created s ∧ Aligned u s.text.text s.elements ∧ Outside s.elements s.cursor := by
  induction h with
  | new =>
    refine ⟨⟨AreaReachable.new.stable, ElementsIntact.nil _ _, nofun, nofun, nofun, nofun⟩,
      nofun, nofun⟩
  | step op _ hedit hstep hclear ih =>
    obtain ⟨hsound, haligned, hcursor⟩ := ih
    have hretains := hsound.step hcursor haligned hedit hstep hclear
    exact ⟨hretains.sound, hclear.aligned, hretains.cursor hclear.aligned⟩

/-- Elements are sorted, apart, of distinct ids, each over the text that it was created with, and the
cursor is within none of them. -/
theorem elements_atomic (u : Unicode) (created : ℕ → Option Str) (s : TextArea Line)
    (h : EditRun u (AreaOp.Clear u) created s) :
    ElementsIntact created s.text.text s.elements ∧ Outside s.elements s.cursor := by
  obtain ⟨hsound, -, hcursor⟩ := h.sound
  exact ⟨hsound.intact, hcursor⟩

theorem aligned_of_ranges {text : Str} {elements : List (TextElement Line)} {ranges : List ByteRange}
    (hranges : elements.map TextElement.range = ranges)
    (hall : ranges.all (fun range => isGraphemeBoundary u text range.start &&
      isGraphemeBoundary u text range.stop) = true) : Aligned u text elements := by
  intro e he
  have hmem := List.mem_map_of_mem (f := TextElement.range) he
  rw [hranges] at hmem
  have hends := List.all_eq_true.mp hall e.range hmem
  rw [Bool.and_eq_true, isGraphemeBoundary_iff, isGraphemeBoundary_iff] at hends
  exact hends

/-- An element, and a letter behind it. -/
theorem elements_atomic_pasted : ∃ (created : ℕ → Option Str) (s : TextArea Unit),
    s.text.text = ['a', 'b', 'c'] ∧ s.elements.map TextElement.range = [⟨0, 2⟩] ∧
      ElementsIntact created s.text.text s.elements ∧ Outside s.elements s.cursor := by
  have hsteps : (((AreaOp.insertElement ['a', 'b'] 0 none).step combiningMarks TextArea.new).any
      fun s : TextArea Unit => decide (s.text.text = ['a', 'b']) &&
        decide (s.elements.map TextElement.range = [⟨0, 2⟩]) &&
          ((AreaOp.insertStr ['c']).step combiningMarks s).any fun t =>
            decide (t.text.text = ['a', 'b', 'c']) &&
              decide (t.elements.map TextElement.range = [⟨0, 2⟩])) = true := by
    decide +kernel
  rw [Option.any_eq_true] at hsteps
  obtain ⟨s, hs, hsteps⟩ := hsteps
  rw [Bool.and_eq_true, Bool.and_eq_true, decide_eq_true_eq, decide_eq_true_eq,
    Option.any_eq_true] at hsteps
  obtain ⟨⟨hpasted, hchip⟩, t, ht, htyped⟩ := hsteps
  rw [Bool.and_eq_true, decide_eq_true_eq, decide_eq_true_eq] at htyped
  have hfirst : (AreaOp.insertElement ['a', 'b'] 0 none).Clear combiningMarks TextArea.new s := by
    refine ⟨aligned_of_ranges hchip ?_, nofun, nofun⟩
    rw [hpasted]
    decide
  have hsecond : (AreaOp.insertStr ['c']).Clear combiningMarks s t := by
    refine ⟨aligned_of_ranges htyped.2 ?_, nofun, nofun⟩
    rw [htyped.1]
    decide
  have hrun := (EditRun.new.step _ rfl hs hfirst).step _ rfl ht hsecond
  exact ⟨_, t, htyped.1, htyped.2, elements_atomic combiningMarks _ t hrun⟩

/-! ## A mark before an element -/

/-- An element that starts with a combining mark, and then a letter typed in front of it. -/
def markedRun : List (AreaOp Unit) :=
  [.insertElement ['\u0301', 'x'] 0 none, .setCursor 0, .insertStr ['e']]

theorem EditRun.runs {allowed : AreaOp Line → TextArea Line → TextArea Line → Prop}
    (hallowed : ∀ op s t, allowed op s t) (ops : List (AreaOp Line))
    (hedits : ops.all (fun op => !op.isRestore) = true) (h : EditRun u allowed created s)
    (hrun : ops.foldlM (fun s op => op.step u s) s = some t) :
    ∃ created', EditRun u allowed created' t := by
  induction ops generalizing created s with
  | nil =>
    obtain rfl := Option.some.inj hrun
    exact ⟨created, h⟩
  | cons op ops ih =>
    rw [List.foldlM_cons] at hrun
    obtain ⟨next, hstep, hrest⟩ := Option.bind_eq_some_iff.mp hrun
    rw [List.all_cons, Bool.and_eq_true, Bool.not_eq_true'] at hedits
    exact ih hedits.2 (h.step op hedits.1 hstep (hallowed op s next)) hrest

theorem cursor_within_marked :
    (markedRun.foldlM (fun s (op : AreaOp Unit) => op.step combiningMarks s) TextArea.new).map
      (fun s : TextArea Unit => (s.elements.map TextElement.range, s.cursor)) =
      some ([⟨1, 4⟩], 3) := by
  decide +kernel

/-- The cursor does end up within an element. -/
theorem elements_not_atomic :
    ¬ ∀ (u : Unicode) (created : ℕ → Option Str) (s : TextArea Unit),
      EditRun u (fun _ _ _ => True) created s →
        ElementsIntact created s.text.text s.elements ∧ Outside s.elements s.cursor := by
  intro hall
  obtain ⟨s, hrun, hat⟩ := Option.map_eq_some_iff.mp cursor_within_marked
  obtain ⟨helements, hcursor⟩ := Prod.mk.inj hat
  obtain ⟨created, h⟩ := EditRun.new.runs (fun _ _ _ => trivial) markedRun (by decide) hrun
  have hmem : (⟨1, 4⟩ : ByteRange) ∈ s.elements.map TextElement.range := by
    rw [helements]
    exact List.mem_singleton_self _
  obtain ⟨e, he, hrange⟩ := List.mem_map.mp hmem
  have hout := (hall combiningMarks created s h).2 e he
  rw [hcursor, hrange] at hout
  exact hout ⟨by decide, by decide⟩

end GrokBuild.Textarea
