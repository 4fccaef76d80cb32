import GrokBuild.Textarea.UndoGroups

/-!
# Atomic elements

An edit replaces whole elements or none, so that those that stay lie in the text in order, each over
the text that it was created with. The cursor stays out of the elements as long as no grapheme
cluster lies across the end of one.
-/

namespace GrokBuild.Textarea
open Text TextArea

variable {Line : Type} {u : Unicode} {created : ℕ → Option Str} {text front mid back : Str}
  {elements : List (TextElement Line)} {s t : TextArea Line}

/-! ## Elements in a text -/

/-- Elements in order that do not overlap, each over the text that it was created with. -/
structure ElementsIntact (created : ℕ → Option Str) (text : Str)
    (elements : List (TextElement Line)) : Prop where
  sorted : elements.Pairwise fun e f => e.range.start ≤ f.range.start
  disjoint : elements.Pairwise fun e f =>
    e.range.stop ≤ f.range.start ∨ f.range.stop ≤ e.range.start
  distinct : (elements.map TextElement.id).Nodup
  texts : ∀ e ∈ elements, ∃ w, created e.id = some w ∧
    sliceBytes text e.range.start e.range.stop = some w

/-- Strictly within none of the elements. -/
def Outside (elements : List (TextElement Line)) (position : ℕ) : Prop :=
  ∀ e ∈ elements, ¬ Span.Inside position e.range

theorem ElementsIntact.range_le (h : ElementsIntact created text elements) {e : TextElement Line}
    (he : e ∈ elements) : e.range.start ≤ e.range.stop ∧ e.range.stop ≤ utf8Len text := by
  obtain ⟨w, -, hslice⟩ := h.texts e he
  obtain ⟨before, after, rfl, hstart, hstop⟩ := sliceBytes_eq_some_iff.mp hslice
  rw [utf8Len_append, utf8Len_append]
  omega

theorem ElementsIntact.nil (created : ℕ → Option Str) (text : Str) :
    ElementsIntact created text ([] : List (TextElement Line)) :=
  ⟨.nil, .nil, .nil, nofun⟩

theorem ElementsIntact.sublist {kept : List (TextElement Line)}
    (h : ElementsIntact created text elements) (hsub : kept.Sublist elements) :
    ElementsIntact created text kept :=
  ⟨h.sorted.sublist hsub, h.disjoint.sublist hsub, h.distinct.sublist (hsub.map _),
    fun e he => h.texts e (hsub.subset he)⟩

/-- A range that stays in front of an edit, or is shifted behind it. -/
inductive Shifted (start stop inserted : ℕ) (range shifted : ByteRange) : Prop
  | before (le : range.stop ≤ start) (same : shifted = range)
  | behind (le : stop ≤ range.start)
      (start_eq : shifted.start + (stop - start) = range.start + inserted)
      (stop_eq : shifted.stop + (stop - start) = range.stop + inserted)

/-- The elements after an edit, as `shiftElements` has them. -/
def editedElements (start stop inserted : ℕ) (elements : List (TextElement Line)) :
    List (TextElement Line) :=
  (elements.filter fun e => !(start ≤ e.range.start && e.range.stop ≤ stop)).map fun e =>
    { e with range := shiftRange start stop (stop - start) inserted e.range }

variable {start stop inserted : ℕ}

theorem shifted_of_kept {e : TextElement Line} (hle : start ≤ stop)
    (hrange : e.range.start ≤ e.range.stop) (hstart : ¬ Span.Inside start e.range)
    (hstop : ¬ Span.Inside stop e.range)
    (hkept : ¬ (start ≤ e.range.start ∧ e.range.stop ≤ stop)) :
    Shifted start stop inserted e.range
      (shiftRange start stop (stop - start) inserted e.range) := by
  unfold Span.Inside at hstart hstop
  unfold shiftRange
  split_ifs with hbefore hbehind
  · exact .before hbefore rfl
  · refine .behind hbehind ?_ ?_
    · dsimp only
      omega
    · dsimp only
      omega
  · omega

theorem mem_editedElements {e' : TextElement Line} (hle : start ≤ stop)
    (h : ElementsIntact created text elements) (hstart : Outside elements start)
    (hstop : Outside elements stop) (he' : e' ∈ editedElements start stop inserted elements) :
    ∃ e ∈ elements, ¬ (start ≤ e.range.start ∧ e.range.stop ≤ stop) ∧ e'.id = e.id ∧
      Shifted start stop inserted e.range e'.range := by
  rw [editedElements, List.mem_map] at he'
  obtain ⟨e, he, rfl⟩ := he'
  rw [List.mem_filter, Bool.not_eq_true', Bool.and_eq_false_iff, decide_eq_false_iff_not,
    decide_eq_false_iff_not, ← not_and_or] at he
  exact ⟨e, he.1, he.2, rfl,
    shifted_of_kept hle (h.range_le he.1).1 (hstart e he.1) (hstop e he.1) he.2⟩

theorem Outside.edited {position position' : ℕ} (hle : start ≤ stop)
    (h : ElementsIntact created text elements) (hstart : Outside elements start)
    (hstop : Outside elements stop)
    (hposition : Outside elements position ∧ position < start ∧ position' = position ∨
      position' = start + inserted ∨
      Outside elements position ∧ stop ≤ position ∧
        position' + (stop - start) = position + inserted) :
    Outside (editedElements start stop inserted elements) position' := by
  intro e' he' hin
  obtain ⟨e, he, hkept, -, hshifted⟩ := mem_editedElements hle h hstart hstop he'
  have hrange := (h.range_le he).1
  obtain ⟨hlt, hgt⟩ := hin
  cases hshifted with
  | before le same =>
    rw [same] at hlt hgt
    obtain ⟨hout, hbefore, rfl⟩ | rfl | ⟨hout, hbehind, heq⟩ := hposition
    · exact hout e he ⟨hlt, hgt⟩
    · omega
    · omega
  | behind le start_eq stop_eq =>
    obtain ⟨hout, hbefore, rfl⟩ | rfl | ⟨hout, hbehind, heq⟩ := hposition
    · omega
    · omega
    · exact hout e he ⟨by omega, by omega⟩

theorem ElementsIntact.edited {replacement : Str}
    (h : ElementsIntact created (front ++ mid ++ back) elements)
    (hstart : Outside elements (utf8Len front)) (hstop : Outside elements (utf8Len (front ++ mid))) :
    ElementsIntact created (front ++ replacement ++ back)
      (editedElements (utf8Len front) (utf8Len (front ++ mid)) (utf8Len replacement) elements) := by
  have hle : utf8Len front ≤ utf8Len (front ++ mid) := by
    rw [utf8Len_append]
    exact Nat.le_add_right _ _
  have hmid : utf8Len (front ++ mid) - utf8Len front = utf8Len mid := by
    rw [utf8Len_append, Nat.add_sub_cancel_left]
  have hshifted (e : TextElement Line)
      (he : e ∈ elements.filter fun e =>
        !(utf8Len front ≤ e.range.start && e.range.stop ≤ utf8Len (front ++ mid))) :
      ¬ (utf8Len front ≤ e.range.start ∧ e.range.stop ≤ utf8Len (front ++ mid)) ∧
      e.range.start ≤ e.range.stop ∧
      Shifted (utf8Len front) (utf8Len (front ++ mid)) (utf8Len replacement) e.range
        (shiftRange (utf8Len front) (utf8Len (front ++ mid))
          (utf8Len (front ++ mid) - utf8Len front) (utf8Len replacement) e.range) := by
    rw [List.mem_filter, Bool.not_eq_true', Bool.and_eq_false_iff, decide_eq_false_iff_not,
      decide_eq_false_iff_not, ← not_and_or] at he
    have hrange := (h.range_le he.1).1
    exact ⟨he.2, hrange, shifted_of_kept hle hrange (hstart e he.1) (hstop e he.1) he.2⟩
  refine ⟨?_, ?_, ?_, fun e' he' => ?_⟩
  · rw [editedElements, List.pairwise_map]
    refine (h.sorted.filter _).imp_of_mem fun {e f} he hf hsorted => ?_
    obtain ⟨-, herange, heshift⟩ := hshifted e he
    obtain ⟨hfkept, hfrange, hfshift⟩ := hshifted f hf
    dsimp only
    generalize shiftRange _ _ _ _ e.range = e' at heshift ⊢
    generalize shiftRange _ _ _ _ f.range = f' at hfshift ⊢
    rcases heshift with ⟨hele, rfl⟩ | ⟨hele, hestart, -⟩ <;>
      rcases hfshift with ⟨hfle, rfl⟩ | ⟨hfle, hfstart, -⟩
    · exact hsorted
    · omega
    · omega
    · omega
  · rw [editedElements, List.pairwise_map]
    refine (h.disjoint.filter _).imp_of_mem fun {e f} he hf hdisjoint => ?_
    obtain ⟨-, herange, heshift⟩ := hshifted e he
    obtain ⟨-, hfrange, hfshift⟩ := hshifted f hf
    dsimp only
    generalize shiftRange _ _ _ _ e.range = e' at heshift ⊢
    generalize shiftRange _ _ _ _ f.range = f' at hfshift ⊢
    rcases heshift with ⟨hele, rfl⟩ | ⟨hele, hestart, hestop⟩ <;>
      rcases hfshift with ⟨hfle, rfl⟩ | ⟨hfle, hfstart, hfstop⟩
    · exact hdisjoint
    · omega
    · omega
    · omega
  · rw [editedElements, List.map_map]
    exact h.distinct.sublist (List.filter_sublist.map TextElement.id)
  · obtain ⟨e, he, -, hid, hrange⟩ := mem_editedElements hle h hstart hstop he'
    obtain ⟨w, hw, hslice⟩ := h.texts e he
    refine ⟨w, hid ▸ hw, ?_⟩
    cases hrange with
    | before le same =>
      rw [same]
      exact sliceBytes_before hslice le
    | behind le start_eq stop_eq =>
      rw [hmid] at start_eq stop_eq
      exact sliceBytes_behind hslice le start_eq stop_eq

/-! ## Elements on grapheme boundaries -/

/-- No grapheme cluster lies across an end of an element. -/
def Aligned (u : Unicode) (text : Str) (elements : List (TextElement Line)) : Prop :=
  ∀ e ∈ elements, Boundary u text e.range.start ∧ Boundary u text e.range.stop

variable {position : ℕ}

theorem Aligned.outside_floor (h : Aligned u text elements) (hout : Outside elements position) :
    Outside elements (floorGraphemeBoundary u text position) := by
  have hfloor := isFloor u text position
  intro e he hin
  refine hout e he ⟨hin.1.trans_le hfloor.le, ?_⟩
  by_contra hle
  exact absurd (hfloor.greatest _ (h e he).2 (Nat.le_of_not_lt hle)) (Nat.not_le_of_lt hin.2)

theorem Aligned.outside_ceil (h : Aligned u text elements) (hout : Outside elements position)
    (hlen : position ≤ utf8Len text) :
    Outside elements (ceilGraphemeBoundary u text position) := by
  have hceil := isCeil u hlen
  intro e he hin
  refine hout e he ⟨?_, lt_of_le_of_lt hceil.ge hin.2⟩
  by_contra hle
  exact absurd (hceil.least _ (h e he).1 (Nat.le_of_not_lt hle)) (Nat.not_le_of_lt hin.1)

/-- A cursor that is set outside the elements stays outside them. -/
theorem Aligned.outside_normalize (h : Aligned u text elements)
    (hout : Outside elements (min position (utf8Len text))) :
    Outside elements (normalizeExternalCursor u text position) := by
  unfold normalizeExternalCursor
  dsimp only
  split_ifs
  · exact h.outside_floor hout
  · exact h.outside_ceil hout (Nat.min_le_right ..)

/-- Beyond the text there are no elements. -/
theorem ElementsIntact.outside_min (h : ElementsIntact created text elements)
    (hout : Outside elements position) : Outside elements (min position (utf8Len text)) := by
  intro e he hin
  have hlen := (h.range_le he).2
  have hstop := hin.2
  refine hout e he ⟨hin.1.trans_le (Nat.min_le_left ..), ?_⟩
  omega

/-- What is outside the widened and merged ranges is outside the elements. -/
theorem ElementsIntact.outside_of_clear (h : ElementsIntact created text elements)
    (hclear : Clear u text (normalizeAtomicRanges u text (elements.map TextElement.range))
      position) : Outside elements position := by
  intro e he hin
  obtain ⟨hrange, hlen⟩ := h.range_le he
  have hfloor := (isFloor u text e.range.start).le
  have hceil := (isCeil u hlen).ge
  have hlt := hin.1.trans hin.2
  have hwiden : widenAtomicRange u text e.range =
      some ⟨floorGraphemeBoundary u text e.range.start,
        ceilGraphemeBoundary u text e.range.stop⟩ := by
    unfold widenAtomicRange
    dsimp only
    rw [Nat.min_eq_left hrange, Nat.max_eq_right hrange, Nat.min_eq_left hlen,
      Nat.min_eq_left (hrange.trans hlen), if_neg hlt.ne, if_pos (by omega)]
  obtain ⟨r, hr, hinside⟩ := inside_normalizeAtomicRanges_iff.mpr
    ⟨e.range, List.mem_map_of_mem he, _, hwiden, lt_of_le_of_lt hfloor hin.1,
      lt_of_lt_of_le hin.2 hceil⟩
  exact hclear.outside r hr hinside

/-! ## Edits -/

/-- What an edit makes of the elements; the cursor stays outside if the ends are aligned. -/
structure EditedWell (u : Unicode) (created : ℕ → Option Str) (s t : TextArea Line) : Prop where
  intact : ElementsIntact created t.text.text t.elements
  cursor : Aligned u t.text.text t.elements → Outside t.elements t.cursor
  nextElementId : t.nextElementId = s.nextElementId

/-- Where the replacement stands, and that no element reaches into it. -/
structure Replaced (plan : EditPlan) (t : TextArea Line) : Prop where
  slice : sliceBytes t.text.text plan.replacedByteRange.start
    (plan.replacedByteRange.start + utf8Len plan.replacement) = some plan.replacement
  apart : ∀ e ∈ t.elements, e.range.stop ≤ plan.replacedByteRange.start ∨
    plan.replacedByteRange.start + utf8Len plan.replacement ≤ e.range.start

theorem updateElementsAfterReplace_elements (s : TextArea Line) (hle : start ≤ stop) :
    (s.updateElementsAfterReplace start stop inserted).elements =
      editedElements start stop inserted s.elements := by
  unfold updateElementsAfterReplace shiftElements editedElements
  dsimp only
  rw [Nat.add_sub_of_le hle]

/-- The fields after a plan. -/
theorem applyValidatedEditPlan_fields {plan : EditPlan} {kind : Option MutationKind}
    {outcome : EditOutcome} (h : s.applyValidatedEditPlan u plan kind = some (t, outcome)) :
    s.text.applyValidatedPlan u plan = some (t.text, outcome) ∧
      t.nextElementId = s.nextElementId ∧
      t.elements =
        if isSemanticEdit plan then
          (s.updateElementsAfterReplace plan.replacedByteRange.start plan.replacedByteRange.stop
            (utf8Len plan.replacement)).elements
        else s.elements := by
  rw [applyValidatedEditPlan, Option.map_eq_some_iff] at h
  obtain ⟨⟨b, outcome'⟩, happly, heq⟩ := h
  dsimp only at heq
  split_ifs at heq with hsemantic
  · obtain ⟨rfl, rfl⟩ := Prod.mk.inj heq
    rw [if_pos hsemantic]
    exact ⟨happly, rfl, rfl⟩
  · obtain ⟨rfl, rfl⟩ := Prod.mk.inj heq
    rw [if_pos hsemantic]
    exact ⟨happly, rfl, rfl⟩
  · obtain ⟨rfl, rfl⟩ := Prod.mk.inj heq
    rw [if_neg hsemantic]
    exact ⟨happly, rfl, rfl⟩

/-- The planned cursor is outside the elements that an edit leaves. -/
theorem Made.outside_edited {plan : EditPlan}
    (h : ElementsIntact created s.text.text s.elements)
    (hmade : Made u s.text s.elementRanges plan) (hsemantic : isSemanticEdit plan = true) :
    Outside (editedElements plan.replacedByteRange.start plan.replacedByteRange.stop
      (utf8Len plan.replacement) s.elements) plan.cursorByte := by
  have hvalid := hmade.valid
  have hstart := h.outside_of_clear hmade.range.start
  have hstop := h.outside_of_clear hmade.range.stop
  cases hmade.cursor with
  | moved affinity empty replacement clear =>
    -- a movement is no semantic edit
    have hsame := hvalid.exactCursor affinity
    rw [isSemanticEdit, Bool.or_eq_true, bne_iff_ne, decide_eq_true_eq] at hsemantic
    obtain hne | hlt := hsemantic
    · exact absurd hsame.1.symm hne
    · omega
  | behind affinity cursor_eq =>
    exact @Outside.edited _ _ _ _ _ _ _ 0 _ hvalid.le h hstart hstop (.inr (.inl cursor_eq))
  | before affinity clear lt =>
    exact Outside.edited hvalid.le h hstart hstop (.inl ⟨h.outside_of_clear clear, lt, rfl⟩)
  | shifted affinity cursor clear le cursor_eq =>
    exact Outside.edited hvalid.le h hstart hstop
      (.inr (.inr ⟨h.outside_of_clear clear, le, cursor_eq⟩))

/-- So it is outside the elements where nothing is replaced by nothing. -/
theorem Made.outside_unedited {plan : EditPlan}
    (h : ElementsIntact created s.text.text s.elements)
    (hmade : Made u s.text s.elementRanges plan) (hnil : plan.replacement = [])
    (heq : plan.replacedByteRange.start = plan.replacedByteRange.stop) :
    Outside s.elements plan.cursorByte := by
  cases hmade.cursor with
  | moved affinity empty replacement clear => exact h.outside_of_clear clear
  | behind affinity cursor_eq =>
    rw [cursor_eq, hnil]
    exact h.outside_of_clear hmade.range.start
  | before affinity clear lt => exact h.outside_of_clear clear
  | shifted affinity cursor clear le cursor_eq =>
    rw [hnil, heq, Nat.sub_self, utf8Len_nil] at cursor_eq
    have hcursor : plan.cursorByte = cursor := cursor_eq
    rw [hcursor]
    exact h.outside_of_clear clear

/-- Where the plan leaves the cursor in an aligned text. -/
theorem Aligned.outside_planned {plan : EditPlan} (h : Aligned u text elements)
    (hout : Outside elements plan.cursorByte) (hlen : plan.cursorByte ≤ utf8Len text) :
    Outside elements (match plan.cursorAffinity with
      | .exact => plan.cursorByte
      | .right => ceilGraphemeBoundary u text plan.cursorByte) := by
  cases plan.cursorAffinity with
  | exact => exact hout
  | right => exact h.outside_ceil hout hlen

/-- A plan with nothing to replace, and nothing to replace it by. -/
theorem unedited_of_not_semantic {plan : EditPlan} (hvalid : Valid u s.text plan)
    (hsemantic : ¬ isSemanticEdit plan = true) :
    plan.replacement = [] ∧ plan.replacedByteRange.start = plan.replacedByteRange.stop := by
  rw [isSemanticEdit, Bool.or_eq_true, bne_iff_ne, decide_eq_true_eq, not_or, not_not]
    at hsemantic
  obtain ⟨hsame, hempty⟩ := hsemantic
  have heq := Nat.le_antisymm hvalid.le (Nat.le_of_not_lt hempty)
  have hremoved := hvalid.removed
  rw [heq, sliceBytes_self hvalid.stop.charBoundary, Option.some.injEq] at hremoved
  exact ⟨hsame.symm.trans hremoved.symm, heq⟩

theorem applyValidatedEditPlan_editedWell {plan : EditPlan} {kind : Option MutationKind}
    {outcome : EditOutcome} (h : ElementsIntact created s.text.text s.elements)
    (hmade : Made u s.text s.elementRanges plan)
    (happly : s.applyValidatedEditPlan u plan kind = some (t, outcome)) :
    EditedWell u created s t ∧ Replaced plan t := by
  obtain ⟨hbuffer, hnext, helements⟩ := applyValidatedEditPlan_fields happly
  have hvalid := hmade.valid
  obtain ⟨text, b', outcome', hreplaced, happly', htext, hcursor⟩ := applyValidatedPlan_eq hvalid
  rw [hbuffer, Option.some.injEq, Prod.mk.injEq] at happly'
  obtain ⟨rfl, -⟩ := happly'
  subst htext
  have hstart := h.outside_of_clear hmade.range.start
  have hstop := h.outside_of_clear hmade.range.stop
  obtain ⟨front, mid, back, hsplit, hfront, hmid⟩ :=
    exists_split_three hvalid.start.charBoundary hvalid.stop.charBoundary hvalid.le
  have hspliced := replaceBytes_split front mid back plan.replacement
  rw [← hsplit, hfront, hmid, hreplaced, Option.some.injEq] at hspliced
  have hslice : sliceBytes t.text.text plan.replacedByteRange.start
      (plan.replacedByteRange.start + utf8Len plan.replacement) = some plan.replacement :=
    sliceBytes_eq_some_iff.mpr ⟨front, back, hspliced, hfront, rfl⟩
  have hlen : plan.cursorByte ≤ utf8Len t.text.text := by
    have hcursor := hmade.cursor_le
    have hle := hvalid.le
    have hsplitLen := congrArg utf8Len hsplit
    rw [hspliced]
    rw [utf8Len_append] at hmid
    rw [utf8Len_append, utf8Len_append] at hsplitLen ⊢
    omega
  by_cases hsemantic : isSemanticEdit plan = true
  · rw [if_pos hsemantic, updateElementsAfterReplace_elements s hvalid.le] at helements
    have hintact := h
    rw [hsplit] at hintact
    have hedited := @ElementsIntact.edited _ _ _ _ _ _ plan.replacement hintact (hfront ▸ hstart)
      (hmid ▸ hstop)
    rw [hfront, hmid, ← hspliced, ← helements] at hedited
    have hout := hmade.outside_edited h hsemantic
    rw [← helements] at hout
    refine ⟨⟨hedited, fun haligned => ?_, hnext⟩, ⟨hslice, fun e' he' => ?_⟩⟩
    · rw [TextArea.cursor, hcursor]
      exact haligned.outside_planned hout hlen
    · rw [helements] at he'
      obtain ⟨e, he, -, -, hshifted⟩ := mem_editedElements hvalid.le h hstart hstop he'
      cases hshifted with
      | before le same =>
        rw [same]
        exact .inl le
      | behind le start_eq stop_eq =>
        have hle := hvalid.le
        exact .inr (by omega)
  · rw [if_neg hsemantic] at helements
    obtain ⟨hnil, heq⟩ := unedited_of_not_semantic hvalid hsemantic
    have hnone : mid = [] := by
      by_contra hne
      have hpos := utf8Len_pos hne
      rw [utf8Len_append] at hmid
      omega
    have hunchanged : t.text.text = s.text.text := by rw [hspliced, hsplit, hnil, hnone]
    have hout := hmade.outside_unedited h hnil heq
    rw [← helements] at hout
    refine ⟨⟨by rw [hunchanged, helements]; exact h, fun haligned => ?_, hnext⟩,
      ⟨hslice, fun e he => ?_⟩⟩
    · rw [TextArea.cursor, hcursor]
      exact haligned.outside_planned hout hlen
    · rw [helements] at he
      have hout := hstart e he
      unfold Span.Inside at hout
      rw [hnil, utf8Len_nil]
      omega

end GrokBuild.Textarea
