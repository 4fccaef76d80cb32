import GrokBuild.Textarea.Area
import GrokBuild.Textarea.PlanApplies

/-!
# Undo, redo and undo groups

Every cursor that the history holds is a grapheme boundary of its text, so that restoring an entry
gives back the entry. Within a group only the history operations touch the stacks, and the
checkpoint is the state in which the outermost group was opened.
-/

namespace GrokBuild.Textarea
open Text TextArea

variable {Line : Type} {u : Unicode} {s t r : TextArea Line}

/-! ## The invariant -/

/-- Restoring the entry leaves its cursor where it is. -/
def UndoEntry.Fixed (u : Unicode) (entry : UndoEntry Line) : Prop :=
  Boundary u entry.text entry.cursor

structure Stable (u : Unicode) (s : TextArea Line) : Prop where
  cursor : Boundary u s.text.text s.cursor
  stack : ∀ entry ∈ s.undoState.stack, entry.Fixed u
  redo : ∀ entry ∈ s.undoState.redo, entry.Fixed u
  checkpoint : ∀ entry, s.undoState.groupCheckpoint = some entry → entry.Fixed u
  grouped : s.undoState.groupDepth = 0 ↔ s.undoState.groupCheckpoint = none
  bound : 0 < s.undoState.maxDepth

/-- The same groups are open, with the same checkpoint. -/
structure SameGroup (s t : TextArea Line) : Prop where
  depth : t.undoState.groupDepth = s.undoState.groupDepth
  checkpoint : t.undoState.groupCheckpoint = s.undoState.groupCheckpoint

def SameStacks (s t : TextArea Line) : Prop :=
  t.undoState.stack = s.undoState.stack ∧ t.undoState.redo = s.undoState.redo

/-- What an edit does to the history: nothing, as long as a group is open. -/
structure Keeps (u : Unicode) (s t : TextArea Line) : Prop where
  stable : Stable u t
  group : SameGroup s t
  suppressed : 0 < s.undoState.groupDepth → SameStacks s t

theorem Keeps.trans (h : Keeps u s t) (h' : Keeps u t r) : Keeps u s r where
  stable := h'.stable
  group := ⟨h'.group.depth.trans h.group.depth, h'.group.checkpoint.trans h.group.checkpoint⟩
  suppressed hopen := by
    have hfirst := h.suppressed hopen
    have hsecond := h'.suppressed (h.group.depth ▸ hopen)
    exact ⟨hsecond.1.trans hfirst.1, hsecond.2.trans hfirst.2⟩

theorem Stable.fixed_snapshot (h : Stable u s) : s.snapshot.Fixed u := h.cursor

/-- An edit of everything but the history. -/
theorem Stable.keeps_of_undoState (h : Stable u s) (hundo : t.undoState = s.undoState)
    (hcursor : Boundary u t.text.text t.cursor) : Keeps u s t where
  stable := by
    refine ⟨hcursor, ?_, ?_, ?_, ?_, ?_⟩
    · rw [hundo]
      exact h.stack
    · rw [hundo]
      exact h.redo
    · rw [hundo]
      exact h.checkpoint
    · rw [hundo]
      exact h.grouped
    · rw [hundo]
      exact h.bound
  group := by
    constructor
    · rw [hundo]
    · rw [hundo]
  suppressed _ := by
    constructor
    · rw [hundo]
    · rw [hundo]

/-- A change of the batching alone. -/
theorem Stable.keeps_batching (h : Stable u s) (htext : t.text = s.text)
    (hbound : t.undoState.maxDepth = s.undoState.maxDepth) (hgroup : SameGroup s t)
    (hstacks : SameStacks s t) : Keeps u s t where
  stable := by
    refine ⟨?_, ?_, ?_, ?_, ?_, ?_⟩
    · rw [TextArea.cursor, htext]
      exact h.cursor
    · rw [hstacks.1]
      exact h.stack
    · rw [hstacks.2]
      exact h.redo
    · rw [hgroup.checkpoint]
      exact h.checkpoint
    · rw [hgroup.checkpoint, hgroup.depth]
      exact h.grouped
    · rw [hbound]
      exact h.bound
  group := hgroup
  suppressed _ := hstacks

theorem Stable.keeps_postMutate (h : Stable u s) : Keeps u s s.postMutate :=
  h.keeps_batching rfl rfl ⟨rfl, rfl⟩ ⟨rfl, rfl⟩

theorem Stable.keeps_lastKind (h : Stable u s) (kind : Option MutationKind) :
    Keeps u s { s with undoState := { s.undoState with lastKind := kind } } :=
  h.keeps_batching rfl rfl ⟨rfl, rfl⟩ ⟨rfl, rfl⟩

theorem Stable.keeps_noteInserted (h : Stable u s) (text : Str) :
    Keeps u s (s.noteInserted text) := by
  unfold noteInserted
  split
  · exact h.keeps_batching rfl rfl ⟨rfl, rfl⟩ ⟨rfl, rfl⟩
  · exact h.keeps_batching rfl rfl ⟨rfl, rfl⟩ ⟨rfl, rfl⟩

theorem Stable.keeps_breakInsertBatch (h : Stable u s) (text : Str) :
    Keeps u s (s.breakInsertBatch text) := by
  unfold breakInsertBatch
  split
  · exact h.keeps_batching rfl rfl ⟨rfl, rfl⟩ ⟨rfl, rfl⟩
  · split_ifs
    · exact h.keeps_lastKind none
    · exact h.keeps_batching rfl rfl ⟨rfl, rfl⟩ ⟨rfl, rfl⟩

theorem mem_pushBounded {stack : List (UndoEntry Line)} {entry e : UndoEntry Line} {maxDepth : ℕ}
    (h : e ∈ pushBounded stack entry maxDepth) : e ∈ stack ∨ e = entry := by
  have hmem : e ∈ stack ++ [entry] := by
    unfold pushBounded at h
    split_ifs at h
    · exact List.mem_of_mem_tail h
    · exact h
  rwa [List.mem_append, List.mem_singleton] at hmem

theorem getLast?_pushBounded (stack : List (UndoEntry Line)) (entry : UndoEntry Line)
    {maxDepth : ℕ} (h : 0 < maxDepth) :
    (pushBounded stack entry maxDepth).getLast? = some entry := by
  unfold pushBounded
  split_ifs with hfull
  · cases stack with
    | nil =>
      rw [List.nil_append, List.length_singleton] at hfull
      omega
    | cons e stack =>
      rw [List.cons_append, List.tail_cons]
      exact List.getLast?_concat
  · exact List.getLast?_concat

@[simp] theorem preMutate_text (s : TextArea Line) (kind : MutationKind) :
    (s.preMutate kind).text = s.text := by
  unfold preMutate
  split_ifs <;> rfl

@[simp] theorem preMutate_elements (s : TextArea Line) (kind : MutationKind) :
    (s.preMutate kind).elements = s.elements := by
  unfold preMutate
  split_ifs <;> rfl

theorem Stable.keeps_preMutate (h : Stable u s) (kind : MutationKind) :
    Keeps u s (s.preMutate kind) := by
  unfold preMutate
  by_cases hopen : 0 < s.undoState.groupDepth
  · rw [if_pos hopen]
    exact h.keeps_batching rfl rfl ⟨rfl, rfl⟩ ⟨rfl, rfl⟩
  · rw [if_neg hopen]
    refine ⟨⟨h.cursor, ?_, nofun, h.checkpoint, h.grouped, h.bound⟩, ⟨rfl, rfl⟩,
      fun hlt => absurd hlt hopen⟩
    intro entry hentry
    dsimp only at hentry
    split_ifs at hentry
    · obtain hold | rfl := mem_pushBounded hentry
      · exact h.stack entry hold
      · exact h.fixed_snapshot
    · exact h.stack entry hentry

/-! ## Edits -/

theorem Stable.keeps_setCursorInner (h : Stable u s) (pos : ℕ) :
    Keeps u s (s.setCursorInner u pos) :=
  h.keeps_of_undoState rfl (boundary_setCursorByte u s.text pos)

theorem Stable.keeps_setCursor (h : Stable u s) (pos : ℕ) : Keeps u s (s.setCursor u pos) :=
  h.keeps_setCursorInner (s.clampPosToNearestBoundary pos)

/-- The cursor is set after a change of the text or of the elements. -/
theorem Stable.keeps_setCursorInner_of_undoState (h : Stable u s)
    (hundo : t.undoState = s.undoState) (pos : ℕ) : Keeps u s (t.setCursorInner u pos) :=
  h.keeps_of_undoState hundo (boundary_setCursorByte u t.text pos)

theorem applyValidatedEditPlan_spec {plan : EditPlan} {kind : Option MutationKind}
    {outcome : EditOutcome} (h : s.applyValidatedEditPlan u plan kind = some (t, outcome))
    (hvalid : Valid u s.text plan) :
    t.undoState = s.undoState ∧ Boundary u t.text.text t.cursor := by
  obtain ⟨b', outcome', happly, hboundary⟩ := hvalid.applied
  rw [applyValidatedEditPlan, happly, Option.map_some] at h
  dsimp only at h
  split_ifs at h
  · obtain ⟨rfl, -⟩ := Prod.mk.inj (Option.some.inj h)
    exact ⟨rfl, hboundary⟩
  · obtain ⟨rfl, -⟩ := Prod.mk.inj (Option.some.inj h)
    exact ⟨rfl, hboundary⟩
  · obtain ⟨rfl, -⟩ := Prod.mk.inj (Option.some.inj h)
    exact ⟨rfl, hboundary⟩

theorem Stable.keeps_applyEditPlan {plan : EditPlan} {kind : Option MutationKind}
    {outcome : EditOutcome} (h : Stable u s)
    (happly : s.applyEditPlan u plan kind = some (t, outcome)) : Keeps u s t := by
  unfold applyEditPlan at happly
  cases hvalidate : s.text.validatePlan u plan with
  | error e =>
    rw [hvalidate] at happly
    cases happly
  | ok _ =>
    have hvalid := (validatePlan_eq_ok_iff.mp hvalidate).2.2.1
    rw [hvalidate] at happly
    cases kind with
    | none =>
      obtain ⟨hundo, hcursor⟩ := applyValidatedEditPlan_spec happly hvalid
      exact h.keeps_of_undoState hundo hcursor
    | some kind =>
      dsimp only at happly
      split_ifs at happly
      · rw [Option.map_eq_some_iff] at happly
        obtain ⟨⟨edited, outcome'⟩, hedited, heq⟩ := happly
        obtain ⟨rfl, -⟩ := Prod.mk.inj heq
        have hmutated := h.keeps_preMutate kind
        obtain ⟨hundo, hcursor⟩ :=
          applyValidatedEditPlan_spec hedited (by rw [preMutate_text]; exact hvalid)
        have hkept := hmutated.trans (hmutated.stable.keeps_of_undoState hundo hcursor)
        exact hkept.trans hkept.stable.keeps_postMutate
      · obtain ⟨hundo, hcursor⟩ := applyValidatedEditPlan_spec happly hvalid
        exact h.keeps_of_undoState hundo hcursor

theorem Stable.keeps_applyEditCommand {command : EditCommand} {kind : Option MutationKind}
    {outcome : EditOutcome} (h : Stable u s)
    (happly : s.applyEditCommand u command kind = some (t, outcome)) : Keeps u s t := by
  rw [applyEditCommand, Option.bind_eq_some_iff] at happly
  obtain ⟨plan, -, happly⟩ := happly
  exact h.keeps_applyEditPlan happly

theorem Stable.keeps_applyEditReplacement {range : ByteRange} {replacement : Str}
    {kind : Option MutationKind} (h : Stable u s)
    (happly : s.applyEditReplacement u range replacement kind = some t) : Keeps u s t := by
  rw [applyEditReplacement, Option.bind_eq_some_iff] at happly
  obtain ⟨plan, -, happly⟩ := happly
  rw [Option.map_eq_some_iff] at happly
  obtain ⟨⟨edited, outcome⟩, happly, rfl⟩ := happly
  exact h.keeps_applyEditPlan happly

theorem Stable.keeps_clearSelection (h : Stable u s) : Keeps u s s.clearSelection :=
  h.keeps_of_undoState rfl h.cursor

theorem Stable.keeps_deleteSelection {deleted : Bool} (h : Stable u s)
    (hdelete : s.deleteSelection u = some (t, deleted)) : Keeps u s t := by
  unfold deleteSelection at hdelete
  split at hdelete
  · obtain ⟨rfl, -⟩ := Prod.mk.inj (Option.some.inj hdelete)
    exact h.keeps_of_undoState rfl h.cursor
  · rename_i range _
    rw [Option.map_eq_some_iff] at hdelete
    obtain ⟨edited, hedited, heq⟩ := hdelete
    obtain ⟨rfl, -⟩ := Prod.mk.inj heq
    have hkept := h.keeps_applyEditReplacement hedited
    have hmoved := hkept.trans (hkept.stable.keeps_setCursorInner
      (min range.start (utf8Len edited.text.text)))
    have hnoted := hmoved.trans hmoved.stable.keeps_postMutate
    exact hnoted.trans hnoted.stable.keeps_clearSelection

theorem Stable.keeps_insertStr {text : Str} (h : Stable u s)
    (hinsert : s.insertStr u text = some t) : Keeps u s t := by
  unfold insertStr at hinsert
  split_ifs at hinsert
  · obtain rfl := Option.some.inj hinsert
    exact h.keeps_of_undoState rfl h.cursor
  · rw [Option.map_eq_some_iff] at hinsert
    obtain ⟨inserted, hinserted, rfl⟩ := hinsert
    have hbroken := h.keeps_breakInsertBatch text
    have hkept := hbroken.trans (hbroken.stable.keeps_applyEditReplacement hinserted)
    exact hkept.trans (hkept.stable.keeps_noteInserted text)

theorem Stable.keeps_insertStrAt {pos : ℕ} {text : Str} (h : Stable u s)
    (hinsert : s.insertStrAt u pos text = some t) : Keeps u s t := by
  unfold insertStrAt at hinsert
  split_ifs at hinsert
  · obtain rfl := Option.some.inj hinsert
    exact h.keeps_of_undoState rfl h.cursor
  · rw [Option.map_eq_some_iff] at hinsert
    obtain ⟨inserted, hinserted, rfl⟩ := hinsert
    have hkept := h.keeps_applyEditReplacement hinserted
    exact hkept.trans (hkept.stable.keeps_noteInserted text)

theorem Stable.keeps_setText {text : Str} (h : Stable u s) (hset : s.setText u text = some t) :
    Keeps u s t := by
  unfold setText at hset
  split at hset
  · cases hset
  · rename_i plan hplan
    split at hset
    · cases hset
    · dsimp only at hset
      rw [Option.map_eq_some_iff] at hset
      obtain ⟨⟨applied, outcome⟩, -, rfl⟩ := hset
      have hmutated := h.keeps_preMutate .replace
      have hmoved := hmutated.trans (hmutated.stable.keeps_setCursorInner_of_undoState
        (t := { s.preMutate .replace with text := applied, elements := [] }) rfl
        (min s.cursor (utf8Len applied.text)))
      have hcleared := hmoved.trans hmoved.stable.keeps_clearSelection
      exact hcleared.trans hcleared.stable.keeps_postMutate

theorem Stable.keeps_applyClassifiedCommand {command : EditCommand} (h : Stable u s)
    (hcommand : s.applyClassifiedCommand u command = some t) : Keeps u s t := by
  unfold applyClassifiedCommand at hcommand
  split at hcommand
  · exact h.keeps_insertStr hcommand
  · rw [Option.map_eq_some_iff] at hcommand
    obtain ⟨⟨edited, outcome⟩, hedited, rfl⟩ := hcommand
    exact h.keeps_applyEditCommand hedited

theorem Stable.keeps_deleteTimes {command : EditCommand} {n : ℕ} (h : Stable u s)
    (hdelete : deleteTimes u command n s = some t) : Keeps u s t := by
  induction n generalizing s with
  | zero =>
    obtain rfl := Option.some.inj hdelete
    exact h.keeps_of_undoState rfl h.cursor
  | succ n ih =>
    rw [deleteTimes, Option.bind_eq_some_iff] at hdelete
    obtain ⟨⟨deleted, outcome⟩, happly, hrest⟩ := hdelete
    have hkept := h.keeps_applyEditCommand happly
    dsimp only at hrest
    split_ifs at hrest
    · obtain rfl := Option.some.inj hrest
      exact hkept
    · exact hkept.trans (ih hkept.stable hrest)

theorem Stable.keeps_killCurrentLine (h : Stable u s) (hkill : s.killCurrentLine u = some t) :
    Keeps u s t := by
  unfold killCurrentLine at hkill
  dsimp only at hkill
  split_ifs at hkill
  · exact h.keeps_applyEditReplacement hkill
  · obtain rfl := Option.some.inj hkill
    exact h.keeps_of_undoState rfl h.cursor
  · exact h.keeps_applyEditReplacement hkill

theorem Stable.keeps_killSelection (h : Stable u s) (hkill : s.killSelection u = some t) :
    Keeps u s t := by
  unfold killSelection at hkill
  rw [Option.bind_eq_some_iff] at hkill
  obtain ⟨selected, -, hkill⟩ := hkill
  rw [Option.map_eq_some_iff] at hkill
  obtain ⟨⟨killed, deleted⟩, hdelete, rfl⟩ := hkill
  cases selected with
  | none => exact h.keeps_deleteSelection hdelete
  | some text =>
    have hstashed : Keeps u s { s with killBuffer := text } := h.keeps_of_undoState rfl h.cursor
    exact hstashed.trans (hstashed.stable.keeps_deleteSelection hdelete)

theorem Stable.keeps_addElement (h : Stable u s) (range : ByteRange) (kind : ℕ)
    (display : Option Line) : Keeps u s (s.addElement range kind display) :=
  h.keeps_of_undoState rfl h.cursor

theorem Stable.keeps_replaceRangeWithElement {range : ByteRange} {text : Str} {kind : ℕ}
    {display : Option Line} (h : Stable u s)
    (hreplace : s.replaceRangeWithElement u range text kind display = some t) : Keeps u s t := by
  rw [replaceRangeWithElement, Option.bind_eq_some_iff] at hreplace
  obtain ⟨plan, -, htransaction⟩ := hreplace
  unfold applyElementTransaction at htransaction
  cases hvalidate : s.text.validatePlan u plan with
  | error e =>
    rw [hvalidate] at htransaction
    cases htransaction
  | ok _ =>
    have hvalid := (validatePlan_eq_ok_iff.mp hvalidate).2.2.1
    rw [hvalidate] at htransaction
    dsimp only at htransaction
    rw [Option.map_eq_some_iff] at htransaction
    obtain ⟨⟨applied, outcome⟩, happlied, rfl⟩ := htransaction
    have hmutated := h.keeps_preMutate .element
    obtain ⟨hundo, hcursor⟩ :=
      applyValidatedEditPlan_spec happlied (by rw [preMutate_text]; exact hvalid)
    have hkept := hmutated.trans (hmutated.stable.keeps_of_undoState hundo hcursor)
    have hadded := hkept.trans (hkept.stable.keeps_addElement ⟨plan.replacedByteRange.start,
      plan.replacedByteRange.start + utf8Len plan.replacement⟩ kind display)
    have hmoved := hadded.trans (hadded.stable.keeps_setCursor
      (plan.replacedByteRange.start + utf8Len plan.replacement))
    exact hmoved.trans hmoved.stable.keeps_postMutate

theorem Stable.keeps_restoreElements (elems : List (ByteRange × ℕ × Option Line))
    (h : Stable u s) : Keeps u s (s.restoreElements elems) := by
  unfold restoreElements
  induction elems generalizing s with
  | nil => exact h.keeps_of_undoState rfl h.cursor
  | cons elem elems ih =>
    rw [List.foldl_cons]
    split
    · exact ih h
    · have hadded := h.keeps_addElement elem.1 elem.2.1 elem.2.2
      exact hadded.trans (ih hadded.stable)

theorem Stable.keeps_inlineElement (h : Stable u s) (id : ℕ) :
    Keeps u s (s.inlineElement u id).1 := by
  unfold inlineElement
  split
  · exact h.keeps_of_undoState rfl h.cursor
  · rename_i index _
    have hmutated := h.keeps_preMutate .element
    have hmoved := hmutated.trans (hmutated.stable.keeps_setCursorInner_of_undoState
      (t := { s.preMutate .element with
        elements := (s.preMutate .element).elements.eraseIdx index }) rfl
      (((s.elements[index]?).map fun e => e.range.stop).getD 0))
    exact hmoved.trans (hmoved.stable.keeps_lastKind none)

/-! ## Groups -/

theorem endUndoGroup_outermost {checkpoint : UndoEntry Line} (hdepth : s.undoState.groupDepth = 1)
    (hcheckpoint : s.undoState.groupCheckpoint = some checkpoint) :
    s.endUndoGroup = ({ s with
      undoState :=
        { s.undoState with
          groupDepth := 0
          groupCheckpoint := none
          stack :=
            if s.changedSince checkpoint then
              pushBounded s.undoState.stack checkpoint s.undoState.maxDepth
            else s.undoState.stack
          redo := if s.changedSince checkpoint then [] else s.undoState.redo } }).resetBatch := by
  unfold endUndoGroup
  rw [hdepth, hcheckpoint]
  dsimp only
  split_ifs
  · rfl
  · rfl

theorem endUndoGroup_nested {depth : ℕ} (hdepth : s.undoState.groupDepth = depth + 2) :
    s.endUndoGroup = { s with undoState := { s.undoState with groupDepth := depth + 1 } } := by
  unfold endUndoGroup
  simp only [hdepth]

theorem Stable.resetBatch (h : Stable u s) : Stable u s.resetBatch :=
  ⟨h.cursor, h.stack, h.redo, h.checkpoint, h.grouped, h.bound⟩

theorem Stable.beginUndoGroup (h : Stable u s) : Stable u s.beginUndoGroup := by
  refine ⟨h.cursor, h.stack, h.redo, fun entry hentry => ?_, ?_, h.bound⟩
  · unfold TextArea.beginUndoGroup at hentry
    dsimp only at hentry
    split_ifs at hentry
    · obtain rfl := Option.some.inj hentry
      exact h.fixed_snapshot
    · exact h.checkpoint entry hentry
  · refine iff_of_false (Nat.succ_ne_zero _) fun hnone => ?_
    unfold TextArea.beginUndoGroup at hnone
    dsimp only at hnone
    split_ifs at hnone with hzero
    exact hzero (h.grouped.mpr hnone)

theorem Stable.checkpoint_of_open (h : Stable u s) (hopen : 0 < s.undoState.groupDepth) :
    ∃ checkpoint, s.undoState.groupCheckpoint = some checkpoint := by
  rw [← Option.ne_none_iff_exists']
  exact fun hnone => absurd (h.grouped.mpr hnone) (Nat.ne_of_gt hopen)

theorem Stable.endUndoGroup (h : Stable u s) : Stable u s.endUndoGroup := by
  match hdepth : s.undoState.groupDepth with
  | 0 =>
    unfold TextArea.endUndoGroup
    rw [hdepth]
    exact h
  | 1 =>
    obtain ⟨checkpoint, hcheckpoint⟩ := h.checkpoint_of_open (by rw [hdepth]; exact Nat.one_pos)
    rw [endUndoGroup_outermost hdepth hcheckpoint]
    apply Stable.resetBatch
    refine ⟨h.cursor, fun entry hentry => ?_, fun entry hentry => ?_, nofun,
      iff_of_true rfl rfl, h.bound⟩
    · dsimp only at hentry
      split_ifs at hentry
      · obtain hold | rfl := mem_pushBounded hentry
        · exact h.stack entry hold
        · exact h.checkpoint entry hcheckpoint
      · exact h.stack entry hentry
    · dsimp only at hentry
      split_ifs at hentry
      · cases hentry
      · exact h.redo entry hentry
  | depth + 2 =>
    rw [endUndoGroup_nested hdepth]
    refine ⟨h.cursor, h.stack, h.redo, h.checkpoint, ?_, h.bound⟩
    refine iff_of_false (Nat.succ_ne_zero _) fun hnone => ?_
    have hzero := h.grouped.mpr hnone
    omega

/-- Edits within a group of their own. -/
theorem Stable.keeps_group (h : Stable u s) (hedits : Keeps u s.beginUndoGroup t) :
    Keeps u s t.endUndoGroup := by
  have hdepth : t.undoState.groupDepth = s.undoState.groupDepth + 1 := hedits.group.depth
  have hcheckpoint := hedits.group.checkpoint
  obtain ⟨hstack, hredo⟩ := hedits.suppressed (Nat.succ_pos _)
  refine ⟨hedits.stable.endUndoGroup, ?_, fun hopen => ?_⟩
  · match hzero : s.undoState.groupDepth with
    | 0 =>
      rw [hzero] at hdepth
      obtain ⟨checkpoint, hsome⟩ :=
        hedits.stable.checkpoint_of_open (by rw [hdepth]; exact Nat.one_pos)
      rw [endUndoGroup_outermost hdepth hsome]
      exact ⟨hzero.symm, (h.grouped.mp hzero).symm⟩
    | depth + 1 =>
      rw [hzero] at hdepth
      rw [endUndoGroup_nested hdepth]
      refine ⟨hzero.symm, hcheckpoint.trans ?_⟩
      unfold TextArea.beginUndoGroup
      rw [if_neg (by omega)]
  · obtain ⟨depth, hsucc⟩ := Nat.exists_eq_succ_of_ne_zero (Nat.ne_of_gt hopen)
    rw [@endUndoGroup_nested _ _ depth (by omega)]
    exact ⟨hstack, hredo⟩

theorem Stable.keeps_insertStrReplacingSelection {text : Str} (h : Stable u s)
    (hinsert : s.insertStrReplacingSelection u text = some t) : Keeps u s t := by
  unfold insertStrReplacingSelection at hinsert
  split at hinsert
  · have hcleared := h.keeps_clearSelection
    exact hcleared.trans (hcleared.stable.keeps_insertStr hinsert)
  · rw [Option.bind_eq_some_iff] at hinsert
    obtain ⟨⟨deleted, _⟩, hdelete, hinsert⟩ := hinsert
    rw [Option.map_eq_some_iff] at hinsert
    obtain ⟨inserted, hinserted, rfl⟩ := hinsert
    have hkept := h.beginUndoGroup.keeps_deleteSelection hdelete
    exact h.keeps_group (hkept.trans (hkept.stable.keeps_insertStr hinserted))

theorem Stable.keeps_yank (h : Stable u s) (hyank : s.yank u = some t) : Keeps u s t := by
  unfold yank at hyank
  split_ifs at hyank
  · obtain rfl := Option.some.inj hyank
    exact h.keeps_of_undoState rfl h.cursor
  · split at hyank
    · rw [Option.map_eq_some_iff] at hyank
      obtain ⟨yanked, hyanked, rfl⟩ := hyank
      have hkept := h.keeps_applyEditReplacement hyanked
      exact hkept.trans (hkept.stable.keeps_noteInserted s.killBuffer)
    · rw [Option.bind_eq_some_iff] at hyank
      obtain ⟨⟨deleted, _⟩, hdelete, hyank⟩ := hyank
      rw [Option.map_eq_some_iff] at hyank
      obtain ⟨yanked, hyanked, rfl⟩ := hyank
      have hkept := h.beginUndoGroup.keeps_deleteSelection hdelete
      have hgroup :=
        h.keeps_group (hkept.trans (hkept.stable.keeps_applyEditReplacement hyanked))
      exact hgroup.trans (hgroup.stable.keeps_noteInserted deleted.killBuffer)

theorem Stable.keeps_deleteGraphemes {command : EditCommand} {n : ℕ} (h : Stable u s)
    (hdelete : s.deleteGraphemes u command n = some t) : Keeps u s t := by
  unfold deleteGraphemes at hdelete
  split at hdelete
  · obtain rfl := Option.some.inj hdelete
    exact h.keeps_of_undoState rfl h.cursor
  · rw [Option.map_eq_some_iff] at hdelete
    obtain ⟨⟨deleted, outcome⟩, happly, rfl⟩ := hdelete
    exact h.keeps_applyEditCommand happly
  · rw [Option.map_eq_some_iff] at hdelete
    obtain ⟨deleted, hdeleted, rfl⟩ := hdelete
    exact h.keeps_group (h.beginUndoGroup.keeps_deleteTimes hdeleted)

/-! ## The history operations -/

theorem Stable.keeps_history {entry : UndoEntry Line} {stack redo : List (UndoEntry Line)}
    (h : Stable u s) (hstack : ∀ e ∈ stack, e.Fixed u)
    (hredo : ∀ e ∈ redo, e.Fixed u) :
    Stable u (({ s with
      undoState := { s.undoState with stack := stack, redo := redo } }).restore u entry).resetBatch
    := by
  apply Stable.resetBatch
  exact ⟨boundary_normalize u entry.text entry.cursor, hstack, hredo, h.checkpoint,
    h.grouped, h.bound⟩

theorem Stable.undo (h : Stable u s) : Stable u (s.undo u).1 ∧ SameGroup s (s.undo u).1 := by
  unfold TextArea.undo
  split
  · exact ⟨h, rfl, rfl⟩
  · refine ⟨h.keeps_history (fun e he => h.stack e (List.dropLast_subset _ he)) ?_, rfl, rfl⟩
    intro e he
    rw [List.mem_append, List.mem_singleton] at he
    obtain hold | rfl := he
    · exact h.redo e hold
    · exact h.fixed_snapshot

theorem Stable.redone (h : Stable u s) : Stable u (s.redo u).1 ∧ SameGroup s (s.redo u).1 := by
  unfold TextArea.redo
  split
  · exact ⟨h, rfl, rfl⟩
  · refine ⟨h.keeps_history ?_ (fun e he => h.redo e (List.dropLast_subset _ he)), rfl, rfl⟩
    intro e he
    rw [List.mem_append, List.mem_singleton] at he
    obtain hold | rfl := he
    · exact h.stack e hold
    · exact h.fixed_snapshot

theorem Stable.clearHistory (h : Stable u s) :
    Stable u s.clearHistory ∧ SameGroup s s.clearHistory :=
  ⟨Stable.resetBatch ⟨h.cursor, nofun, nofun, h.checkpoint, h.grouped, h.bound⟩, rfl, rfl⟩

theorem Stable.cancelUndoGroup (h : Stable u s) : Stable u (s.cancelUndoGroup u) := by
  unfold TextArea.cancelUndoGroup
  split_ifs with hzero
  · exact h
  · obtain ⟨checkpoint, hsome⟩ := h.checkpoint_of_open (Nat.pos_of_ne_zero hzero)
    rw [hsome]
    apply Stable.resetBatch
    exact ⟨boundary_normalize u checkpoint.text checkpoint.cursor, h.stack, h.redo, nofun,
      iff_of_true rfl rfl, h.bound⟩

/-! ## Steps -/

def AreaOp.isHistory : AreaOp Line → Bool
  | .undo | .redo | .clearHistory => true
  | _ => false

def AreaOp.isGroup : AreaOp Line → Bool
  | .beginUndoGroup | .endUndoGroup | .cancelUndoGroup => true
  | _ => false

/-- An operation that neither is of the history nor opens or closes a group. -/
theorem Stable.keeps_step {op : AreaOp Line} (h : Stable u s) (hstep : op.step u s = some t)
    (hhistory : op.isHistory = false) (hgroup : op.isGroup = false) : Keeps u s t := by
  cases op with
  | setText text => exact h.keeps_setText hstep
  | insertStr text => exact h.keeps_insertStr hstep
  | insertStrAt pos text => exact h.keeps_insertStrAt hstep
  | replaceRange range text => exact h.keeps_applyEditReplacement hstep
  | insertStrReplacingSelection text => exact h.keeps_insertStrReplacingSelection hstep
  | command c => exact h.keeps_applyClassifiedCommand hstep
  | deleteSelection =>
    obtain ⟨⟨deleted, _⟩, hdelete, rfl⟩ := Option.map_eq_some_iff.mp hstep
    exact h.keeps_deleteSelection hdelete
  | killSelection => exact h.keeps_killSelection hstep
  | deleteBackward n => exact h.keeps_deleteGraphemes hstep
  | deleteForward n => exact h.keeps_deleteGraphemes hstep
  | killCurrentLine => exact h.keeps_killCurrentLine hstep
  | yank => exact h.keeps_yank hstep
  | insertElement text kind display => exact h.keeps_replaceRangeWithElement hstep
  | replaceRangeWithElement range text kind display =>
    exact h.keeps_replaceRangeWithElement hstep
  | setTabWidth tabWidth =>
    obtain rfl := Option.some.inj hstep
    exact h.keeps_of_undoState rfl h.cursor
  | setCursor pos =>
    obtain rfl := Option.some.inj hstep
    exact h.keeps_setCursor pos
  | moveCursorTo pos =>
    obtain rfl := Option.some.inj hstep
    exact h.keeps_setCursorInner pos
  | setSelection anchor head =>
    obtain rfl := Option.some.inj hstep
    exact h.keeps_of_undoState rfl h.cursor
  | clearSelection =>
    obtain rfl := Option.some.inj hstep
    exact h.keeps_clearSelection
  | setElementDisplay id display =>
    obtain rfl := Option.some.inj hstep
    unfold setElementDisplay
    split
    · exact h.keeps_of_undoState rfl h.cursor
    · exact h.keeps_of_undoState rfl h.cursor
  | restoreElements elems =>
    obtain rfl := Option.some.inj hstep
    exact h.keeps_restoreElements elems
  | inlineElement id =>
    obtain rfl := Option.some.inj hstep
    exact h.keeps_inlineElement id
  | undo => cases hhistory
  | redo => cases hhistory
  | clearHistory => cases hhistory
  | beginUndoGroup => cases hgroup
  | endUndoGroup => cases hgroup
  | cancelUndoGroup => cases hgroup

theorem Stable.history_step {op : AreaOp Line} (h : Stable u s) (hstep : op.step u s = some t)
    (hhistory : op.isHistory = true) : Stable u t ∧ SameGroup s t := by
  cases op with
  | undo =>
    obtain rfl := Option.some.inj hstep
    exact h.undo
  | redo =>
    obtain rfl := Option.some.inj hstep
    exact h.redone
  | clearHistory =>
    obtain rfl := Option.some.inj hstep
    exact h.clearHistory
  | _ => cases hhistory

/-- An operation that leaves a group open keeps its checkpoint. -/
theorem Stable.group_step {op : AreaOp Line} (h : Stable u s) (hopen : 0 < s.undoState.groupDepth)
    (hstep : op.step u s = some t) (hgroup : op.isGroup = true)
    (hstill : 0 < t.undoState.groupDepth) :
    Stable u t ∧ t.undoState.groupCheckpoint = s.undoState.groupCheckpoint ∧ SameStacks s t := by
  cases op with
  | beginUndoGroup =>
    obtain rfl := Option.some.inj hstep
    refine ⟨h.beginUndoGroup, ?_, rfl, rfl⟩
    unfold TextArea.beginUndoGroup
    rw [if_neg (Nat.ne_of_gt hopen)]
  | endUndoGroup =>
    obtain rfl := Option.some.inj hstep
    refine ⟨h.endUndoGroup, ?_⟩
    match hdepth : s.undoState.groupDepth with
    | 0 => exact absurd hdepth (Nat.ne_of_gt hopen)
    | 1 =>
      obtain ⟨checkpoint, hsome⟩ := h.checkpoint_of_open hopen
      rw [endUndoGroup_outermost hdepth hsome] at hstill
      exact absurd hstill (Nat.lt_irrefl 0)
    | depth + 2 =>
      rw [endUndoGroup_nested hdepth]
      exact ⟨rfl, rfl, rfl⟩
  | cancelUndoGroup =>
    obtain rfl := Option.some.inj hstep
    unfold TextArea.cancelUndoGroup at hstill
    rw [if_neg (Nat.ne_of_gt hopen)] at hstill
    split at hstill
    · exact absurd hstill (Nat.lt_irrefl 0)
    · exact absurd hstill (Nat.lt_irrefl 0)
  | _ => cases hgroup

theorem Stable.step {op : AreaOp Line} (h : Stable u s) (hstep : op.step u s = some t) :
    Stable u t := by
  by_cases hhistory : op.isHistory = true
  · exact (h.history_step hstep hhistory).1
  · by_cases hgroup : op.isGroup = true
    · cases op with
      | beginUndoGroup =>
        obtain rfl := Option.some.inj hstep
        exact h.beginUndoGroup
      | endUndoGroup =>
        obtain rfl := Option.some.inj hstep
        exact h.endUndoGroup
      | cancelUndoGroup =>
        obtain rfl := Option.some.inj hstep
        exact h.cancelUndoGroup
      | _ => cases hgroup
    · rw [Bool.not_eq_true] at hhistory hgroup
      exact (h.keeps_step hstep hhistory hgroup).stable

theorem AreaReachable.stable (h : AreaReachable u s) : Stable u s := by
  induction h with
  | new => exact ⟨boundary_zero u [], nofun, nofun, nofun, iff_of_true rfl rfl, Nat.succ_pos 99⟩
  | step op _ hstep ih => exact ih.step hstep

/-! ## Runs within a group -/

/-- A run from the outermost begin on, that has not left the group yet. -/
inductive GroupRun (u : Unicode) (s : TextArea Line) : List (AreaOp Line) → TextArea Line → Prop
  | opened : GroupRun u s [] s.beginUndoGroup
  | step {ops : List (AreaOp Line)} {t t' : TextArea Line} (op : AreaOp Line)
      (h : GroupRun u s ops t) (hstep : op.step u t = some t')
      (hopen : 0 < t'.undoState.groupDepth) : GroupRun u s (ops ++ [op]) t'

structure Within (u : Unicode) (s : TextArea Line) (ops : List (AreaOp Line)) (t : TextArea Line) :
    Prop where
  stable : Stable u t
  opened : 0 < t.undoState.groupDepth
  checkpoint : t.undoState.groupCheckpoint = some s.snapshot
  stacks_same : (∀ op ∈ ops, op.isHistory = false) → SameStacks s t

variable {ops : List (AreaOp Line)}

theorem Within.step {op : AreaOp Line} (h : Within u s ops t) (hstep : op.step u t = some r)
    (hopen : 0 < r.undoState.groupDepth) : Within u s (ops ++ [op]) r := by
  have hbefore : (∀ op' ∈ ops ++ [op], op'.isHistory = false) →
      SameStacks s t ∧ op.isHistory = false := fun hall =>
    ⟨h.stacks_same fun op' hop' => hall op' (List.mem_append_left _ hop'),
      hall op (List.mem_append_right _ (List.mem_singleton_self op))⟩
  by_cases hhistory : op.isHistory = true
  · obtain ⟨hstable, hgroup⟩ := h.stable.history_step hstep hhistory
    refine ⟨hstable, hopen, hgroup.checkpoint.trans h.checkpoint, fun hall => ?_⟩
    rw [(hbefore hall).2] at hhistory
    cases hhistory
  · by_cases hgroup : op.isGroup = true
    · obtain ⟨hstable, hcheckpoint, hstacks⟩ :=
        h.stable.group_step h.opened hstep hgroup hopen
      refine ⟨hstable, hopen, hcheckpoint.trans h.checkpoint, fun hall => ?_⟩
      have hsame := (hbefore hall).1
      exact ⟨hstacks.1.trans hsame.1, hstacks.2.trans hsame.2⟩
    · rw [Bool.not_eq_true] at hhistory hgroup
      have hkept := h.stable.keeps_step hstep hhistory hgroup
      refine ⟨hkept.stable, hopen, hkept.group.checkpoint.trans h.checkpoint, fun hall => ?_⟩
      have hstacks := hkept.suppressed h.opened
      have hsame := (hbefore hall).1
      exact ⟨hstacks.1.trans hsame.1, hstacks.2.trans hsame.2⟩

theorem GroupRun.within (hrun : GroupRun u s ops t) (h : Stable u s)
    (hclosed : s.undoState.groupDepth = 0) : Within u s ops t := by
  induction hrun with
  | opened =>
    refine ⟨h.beginUndoGroup, Nat.succ_pos _, ?_, fun _ => ⟨rfl, rfl⟩⟩
    unfold TextArea.beginUndoGroup
    rw [if_pos hclosed]
  | step op _ hstep hopen ih => exact ih.step hstep hopen

/-! ## The laws -/

/-- Undo and redo are inverse. -/
def RedoInverts (u : Unicode) (s : TextArea Line) : Prop :=
  s.undoState.stack ≠ [] →
    (s.undo u).2 = true ∧ ((s.undo u).1.redo u).2 = true ∧
      ((s.undo u).1.redo u).1.snapshot = s.snapshot ∧ SameStacks s ((s.undo u).1.redo u).1

/-- After the outermost end, one undo goes back to the outermost begin. -/
def UndoReturns (u : Unicode) (s t : TextArea Line) : Prop :=
  t.undoState.groupDepth = 1 → t.snapshot ≠ s.snapshot →
    (t.endUndoGroup.undo u).2 = true ∧ (t.endUndoGroup.undo u).1.snapshot = s.snapshot

/-- A cancelled group goes back to the outermost begin, and leaves the stacks alone. -/
structure CancelReturns (u : Unicode) (s : TextArea Line) (ops : List (AreaOp Line))
    (t : TextArea Line) : Prop where
  snapshot_eq : (t.cancelUndoGroup u).snapshot = s.snapshot
  stacks_kept : SameStacks t (t.cancelUndoGroup u)
  stacks_same : (∀ op ∈ ops, op.isHistory = false) → SameStacks s (t.cancelUndoGroup u)

theorem snapshot_restore {entry : UndoEntry Line} (s : TextArea Line) (h : entry.Fixed u) :
    (s.restore u entry).snapshot = entry := by
  have hcursor : (s.restore u entry).cursor = entry.cursor := normalize_of_boundary h
  unfold snapshot
  rw [hcursor]
  rfl

theorem snapshot_resetBatch (s : TextArea Line) : s.resetBatch.snapshot = s.snapshot := rfl

theorem undo_of_getLast {entry : UndoEntry Line} (h : Stable u s)
    (hlast : s.undoState.stack.getLast? = some entry) :
    (s.undo u).2 = true ∧ (s.undo u).1.snapshot = entry := by
  have hentry := h.stack entry (List.mem_of_getLast? hlast)
  unfold TextArea.undo
  rw [hlast]
  exact ⟨rfl, (snapshot_resetBatch _).trans (snapshot_restore _ hentry)⟩

theorem Stable.redoInverts (h : Stable u s) : RedoInverts u s := by
  intro hne
  have hsplit := List.dropLast_append_getLast hne
  have hlast := List.getLast?_eq_some_getLast hne
  generalize s.undoState.stack.getLast hne = entry at hsplit hlast
  have hundone := undo_of_getLast h hlast
  have hfixed := h.fixed_snapshot
  have hredo : (s.undo u).1.undoState.redo = s.undoState.redo ++ [s.snapshot] := by
    unfold TextArea.undo
    rw [hlast]
    rfl
  have hstack : (s.undo u).1.undoState.stack = s.undoState.stack.dropLast := by
    unfold TextArea.undo
    rw [hlast]
    rfl
  refine ⟨hundone.1, ?_⟩
  generalize (s.undo u).1 = back at hredo hstack hundone
  have htop : back.undoState.redo.getLast? = some s.snapshot := by
    rw [hredo]
    exact List.getLast?_concat
  unfold TextArea.redo
  rw [htop]
  refine ⟨rfl, (snapshot_resetBatch _).trans (snapshot_restore _ hfixed), ?_, ?_⟩
  · show back.undoState.stack ++ [back.snapshot] = s.undoState.stack
    rw [hstack, hundone.2]
    exact hsplit
  · show back.undoState.redo.dropLast = s.undoState.redo
    rw [hredo]
    exact List.dropLast_concat

theorem Within.cancelReturns (h : Within u s ops t) (hs : Stable u s) :
    CancelReturns u s ops t := by
  have hfixed := hs.fixed_snapshot
  have hstacks : SameStacks t (t.cancelUndoGroup u) := by
    unfold TextArea.cancelUndoGroup
    rw [if_neg (Nat.ne_of_gt h.opened), h.checkpoint]
    exact ⟨rfl, rfl⟩
  refine ⟨?_, hstacks, fun hall => ?_⟩
  · unfold TextArea.cancelUndoGroup
    rw [if_neg (Nat.ne_of_gt h.opened), h.checkpoint]
    exact (snapshot_resetBatch _).trans (snapshot_restore _ hfixed)
  · have hsame := h.stacks_same hall
    exact ⟨hstacks.1.trans hsame.1, hstacks.2.trans hsame.2⟩

/-- What the undo history promises of a state and of a run within a group from there. -/
structure UndoLaws (u : Unicode) (s : TextArea Line) (ops : List (AreaOp Line))
    (t : TextArea Line) : Prop where
  redo : RedoInverts u s
  undo : UndoReturns u s t
  cancel : CancelReturns u s ops t

/-- The outermost end is not left with elements that were exchanged under the same text, cursor and
number, unless the stack has the state of the begin on top. -/
def EndNotices (s t : TextArea Line) : Prop :=
  t.undoState.groupDepth = 1 →
    t.snapshot = s.snapshot ∨ t.changedSince s.snapshot ∨
      t.undoState.stack.getLast? = some s.snapshot

theorem undo_of_empty (h : s.undoState.stack = []) : (s.undo u).2 = false := by
  unfold TextArea.undo
  rw [h]
  rfl

theorem Within.undoReturns_iff (h : Within u s ops t) : UndoReturns u s t ↔ EndNotices s t := by
  unfold UndoReturns EndNotices
  refine forall_congr' fun hdepth => ?_
  have hstable := h.stable.endUndoGroup
  have hstack : t.endUndoGroup.undoState.stack =
      if t.changedSince s.snapshot then
        pushBounded t.undoState.stack s.snapshot t.undoState.maxDepth
      else t.undoState.stack := by
    rw [endUndoGroup_outermost hdepth h.checkpoint]
    rfl
  constructor
  · intro hreturns
    rw [or_iff_not_imp_left]
    intro hne
    obtain ⟨hundone, hback⟩ := hreturns hne
    rw [or_iff_not_imp_left]
    intro hsame
    rw [if_neg hsame] at hstack
    cases hlast : t.undoState.stack.getLast? with
    | none =>
      rw [List.getLast?_eq_none_iff] at hlast
      rw [undo_of_empty (hstack.trans hlast)] at hundone
      cases hundone
    | some entry =>
      rw [← hstack] at hlast
      rw [← hback, (undo_of_getLast hstable hlast).2]
  · rintro (hsame | hchanged | htop) hne
    · exact absurd hsame hne
    · rw [if_pos hchanged] at hstack
      refine undo_of_getLast hstable ?_
      rw [hstack]
      exact getLast?_pushBounded t.undoState.stack s.snapshot h.stable.bound
    · by_cases hchanged : t.changedSince s.snapshot
      · rw [if_pos hchanged] at hstack
        refine undo_of_getLast hstable ?_
        rw [hstack]
        exact getLast?_pushBounded t.undoState.stack s.snapshot h.stable.bound
      · rw [if_neg hchanged] at hstack
        refine undo_of_getLast hstable ?_
        rw [hstack]
        exact htop

/-- The laws hold of a state and a run within a group exactly where its end notices the change. -/
theorem undoLaws_iff (hs : AreaReachable u s) (hclosed : s.undoState.groupDepth = 0)
    (hrun : GroupRun u s ops t) : UndoLaws u s ops t ↔ EndNotices s t := by
  have hwithin := hrun.within hs.stable hclosed
  rw [← hwithin.undoReturns_iff]
  constructor
  · intro hlaws
    exact hlaws.undo
  · intro hreturns
    exact ⟨hs.stable.redoInverts, hreturns, hwithin.cancelReturns hs.stable⟩

/-! ## An exchanged element -/

/-- The operations within a group, one after the other. -/
def runGroup (u : Unicode) (ops : List (AreaOp Line)) (t : TextArea Line) :
    Option (TextArea Line) :=
  ops.foldlM (fun t op => (op.step u t).filter fun t' => 0 < t'.undoState.groupDepth) t

theorem groupRun_of_runGroup {done : List (AreaOp Line)} (h : GroupRun u s done t)
    (hrun : runGroup u ops t = some r) : GroupRun u s (done ++ ops) r := by
  induction ops generalizing done t with
  | nil =>
    obtain rfl := Option.some.inj hrun
    rw [List.append_nil]
    exact h
  | cons op ops ih =>
    rw [runGroup, List.foldlM_cons] at hrun
    obtain ⟨t', hfilter, hrest⟩ := Option.bind_eq_some_iff.mp hrun
    rw [Option.filter_eq_some_iff, decide_eq_true_eq] at hfilter
    rw [List.append_cons]
    exact ih (h.step op hfilter.1 hfilter.2) hrest

/-- Within a group, a chip is deleted and another one is inserted with the same text. -/
def exchangeChip : List (AreaOp Unit) := [.deleteBackward 1, .insertElement "@a".toList 2 none]

theorem exists_chip : ∃ s : TextArea Unit,
    (AreaOp.insertElement "@a".toList 1 none).step combiningMarks TextArea.new = some s ∧
      s.undoState.groupDepth = 0 ∧ ∃ t,
        runGroup combiningMarks exchangeChip s.beginUndoGroup = some t ∧
        t.undoState.groupDepth = 1 ∧ t.snapshot ≠ s.snapshot ∧
          (t.endUndoGroup.undo combiningMarks).1.snapshot ≠ s.snapshot := by
  have hany : ((AreaOp.insertElement "@a".toList 1 none).step combiningMarks TextArea.new).any
      (fun s : TextArea Unit => decide (s.undoState.groupDepth = 0) &&
        (runGroup combiningMarks exchangeChip s.beginUndoGroup).any fun t =>
          decide (t.undoState.groupDepth = 1) && decide (t.snapshot ≠ s.snapshot) &&
            decide ((t.endUndoGroup.undo combiningMarks).1.snapshot ≠ s.snapshot)) = true := by
    decide +kernel
  rw [Option.any_eq_true] at hany
  obtain ⟨s, hs, hany⟩ := hany
  rw [Bool.and_eq_true, decide_eq_true_eq, Option.any_eq_true] at hany
  obtain ⟨hclosed, t, ht, hany⟩ := hany
  rw [Bool.and_eq_true, Bool.and_eq_true, decide_eq_true_eq, decide_eq_true_eq,
    decide_eq_true_eq] at hany
  exact ⟨s, hs, hclosed, t, ht, hany.1.1, hany.1.2, hany.2⟩

/-- The end of the group takes the other chip for no change, and undo goes back too far. -/
theorem exchangedChip_not_undone : ¬ ∀ (s t : TextArea Unit) (ops : List (AreaOp Unit)),
    AreaReachable combiningMarks s → s.undoState.groupDepth = 0 →
      GroupRun combiningMarks s ops t → UndoLaws combiningMarks s ops t := by
  intro hlaws
  obtain ⟨s, hs, hclosed, t, ht, hdepth, hchanged, hback⟩ := exists_chip
  have hlaw := hlaws s t exchangeChip (.step _ .new hs) hclosed (groupRun_of_runGroup .opened ht)
  exact hback (hlaw.undo hdepth hchanged).2

theorem undoLaws_iff_chip : ∃ s t : TextArea Unit,
    AreaReachable combiningMarks s ∧ s.undoState.groupDepth = 0 ∧
      GroupRun combiningMarks s exchangeChip t ∧
        (UndoLaws combiningMarks s exchangeChip t ↔ EndNotices s t) := by
  obtain ⟨s, hs, hclosed, t, ht, -⟩ := exists_chip
  have hreach : AreaReachable combiningMarks s := .step _ .new hs
  have hrun := groupRun_of_runGroup .opened ht
  exact ⟨s, t, hreach, hclosed, hrun, undoLaws_iff hreach hclosed hrun⟩

end GrokBuild.Textarea
