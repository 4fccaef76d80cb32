import GrokBuild.Textarea.Editor

/-!
# A plan applies to its buffer

The positions that the word, line and boundary scanners compute are grapheme boundaries outside the
atomic ranges, so that every plan passes the validation of the buffer it was made from.
-/

namespace GrokBuild.Textarea
open Text

/-! ## Words -/

section Words

variable {u : Unicode} {text : Str} {ranges : List ByteRange} {style : WordStyle}
  {passes : Option WordClass → Bool} {position start stop : ℕ}

theorem atomicWordClass_isSome (hstart : Boundary u text start) (hstop : Boundary u text stop)
    (hle : start ≤ stop) :
    ∃ found, atomicWordClass u text start stop style ranges = some found := by
  unfold atomicWordClass
  split
  · exact ⟨_, rfl⟩
  · obtain ⟨slice, hslice, -⟩ := sliceBytes_isSome hstart.charBoundary hstop.charBoundary hle
    exact ⟨_, by rw [hslice]; rfl⟩

theorem skipBack_clear (h : Normal u text ranges) (hpos : Clear u text ranges position) :
    ∃ p, skipBack u text style ranges passes position = some p ∧ p ≤ position ∧
      Clear u text ranges p := by
  induction position using Nat.strong_induction_on with
  | _ position ih =>
    rw [skipBack]
    split_ifs with hlt
    · have hprevious := h.clear_previous position
      have hbefore := previousAtomicBoundary_lt u text ranges hlt
      obtain ⟨found, hfound⟩ := atomicWordClass_isSome
        hprevious.boundary hpos.boundary hbefore.le
      dsimp only
      rw [hfound]
      dsimp only
      split_ifs
      · obtain ⟨p, hp, hle, hclear⟩ := ih _ hbefore hprevious
        exact ⟨p, hp, hle.trans hbefore.le, hclear⟩
      · exact ⟨position, rfl, le_refl _, hpos⟩
    · exact ⟨position, rfl, le_refl _, hpos⟩

theorem skipForward_clear (h : Normal u text ranges) (hpos : Clear u text ranges position) :
    ∃ p, skipForward u text style ranges passes position = some p ∧ position ≤ p ∧
      Clear u text ranges p := by
  induction hrest : utf8Len text - position using Nat.strong_induction_on generalizing position with
  | _ rest ih =>
    rw [skipForward]
    split_ifs with hlt
    · have hnext := h.clear_next position
      have hbehind := lt_nextAtomicBoundary u ranges hlt
      obtain ⟨found, hfound⟩ := atomicWordClass_isSome
        hpos.boundary hnext.boundary hbehind.le
      dsimp only
      rw [hfound]
      dsimp only
      split_ifs
      · obtain ⟨p, hp, hle, hclear⟩ := ih _ (by omega) hnext rfl
        exact ⟨p, hp, hbehind.le.trans hle, hclear⟩
      · exact ⟨position, rfl, le_refl _, hpos⟩
    · exact ⟨position, rfl, le_refl _, hpos⟩

theorem previousWordBoundary_clear (h : Normal u text ranges)
    (hpos : Clear u text ranges position) :
    ∃ p, previousWordBoundary u text style position ranges = some p ∧ p ≤ position ∧
      Clear u text ranges p := by
  obtain ⟨p, hp, hle, hclear⟩ :=
    skipBack_clear h hpos
  rw [previousWordBoundary, hp]
  dsimp only
  split_ifs with hzero
  · exact ⟨0, rfl, Nat.zero_le _, hzero ▸ hclear⟩
  · have hprevious := h.clear_previous p
    have hbefore := previousAtomicBoundary_lt u text ranges (Nat.pos_of_ne_zero hzero)
    obtain ⟨target, htarget⟩ := atomicWordClass_isSome
      hprevious.boundary hclear.boundary hbefore.le
    rw [htarget]
    obtain ⟨q, hq, hqle, hqclear⟩ := skipBack_clear h
      hclear
    exact ⟨q, hq, hqle.trans hle, hqclear⟩

theorem nextWordBoundary_clear (h : Normal u text ranges) (hpos : Clear u text ranges position) :
    ∃ p, nextWordBoundary u text style position ranges = some p ∧ position ≤ p ∧
      Clear u text ranges p := by
  obtain ⟨p, hp, hle, hclear⟩ :=
    skipForward_clear h hpos
  rw [nextWordBoundary, hp]
  dsimp only
  split_ifs with hend
  · exact ⟨p, rfl, hle, hclear⟩
  · have hnext := h.clear_next p
    have hlt : p < utf8Len text := lt_of_le_of_ne hclear.boundary.le hend
    have hbehind := lt_nextAtomicBoundary u ranges hlt
    obtain ⟨target, htarget⟩ := atomicWordClass_isSome
      hclear.boundary hnext.boundary hbehind.le
    rw [htarget]
    obtain ⟨q, hq, hqle, hqclear⟩ := skipForward_clear h
      hclear
    exact ⟨q, hq, hle.trans hqle, hqclear⟩

end Words

/-! ## Lines -/

section Lines

variable {u : Unicode} {text front back : Str} {ranges : List ByteRange} {position cursor : ℕ}

theorem endsLine_split (h : endsLine text ranges position = true) :
    (∃ front back, text = front ++ '\n' :: back ∧ utf8Len front = position) ∧
      ∀ r ∈ ranges, ¬ (r.start ≤ position ∧ position < r.stop) := by
  rw [endsLine, Bool.and_eq_true, beq_iff_eq, Bool.not_eq_true', byteIsInsideAtomicRange,
    List.any_eq_false] at h
  refine ⟨byteAt_ascii (by decide) h.1, fun r hr hin => h.2 r hr ?_⟩
  rw [Bool.and_eq_true, decide_eq_true_eq, decide_eq_true_eq]
  exact hin

theorem utf8Size_newline : '\n'.utf8Size = 1 := by decide

/-- Behind a line feed that ends a line. -/
theorem clear_behind_lineFeed (u : Unicode) (h : endsLine text ranges position = true) :
    Clear u text ranges (position + 1) := by
  obtain ⟨⟨front, back, rfl, rfl⟩, houtside⟩ := endsLine_split h
  refine ⟨?_, fun r hr hin => houtside r hr ⟨Nat.le_of_lt_succ hin.1, ?_⟩⟩
  · by_cases hback : back = []
    · left
      rw [hback, utf8Len_append, utf8Len_cons, utf8Size_newline]
      rfl
    · exact .inr (u.afterLineFeed front back hback)
  · exact (Nat.lt_succ_self _).trans hin.2

theorem lineStartAt_clear (u : Unicode) (text : Str) (cursor : ℕ) (ranges : List ByteRange) :
    Clear u text ranges (lineStartAt text cursor ranges) ∧
      lineStartAt text cursor ranges ≤ cursor := by
  unfold lineStartAt
  dsimp only
  split
  · exact ⟨⟨boundary_zero u text, fun r _ hin => Nat.not_lt_zero _ hin.1⟩, Nat.zero_le _⟩
  · rename_i position hfind
    have hmem := List.mem_of_find?_eq_some hfind
    rw [List.mem_reverse, List.mem_range] at hmem
    exact ⟨clear_behind_lineFeed u (List.find?_some hfind), by omega⟩

/-- What stands in front of the line feed when it follows a carriage return. -/
theorem split_return (hreturn : byteAt (front ++ '\n' :: back) (utf8Len front - 1) = some 0x0d)
    (hpos : 0 < utf8Len front) : ∃ before, front = before ++ ['\r'] := by
  obtain ⟨before, after, hsplit, hlen⟩ := byteAt_ascii (by decide) hreturn
  have hchar : asciiChar 0x0d = '\r' := by decide
  rw [hchar, List.append_cons before '\r' after] at hsplit
  have hsize : utf8Len (before ++ ['\r']) = utf8Len front := by
    have hone : utf8Len ['\r'] = 1 := by decide
    rw [utf8Len_append, hone, hlen]
    omega
  obtain ⟨mid, hmid, -⟩ | ⟨mid, hmid, -⟩ := List.append_eq_append_iff.mp hsplit
  · rw [hmid, utf8Len_append _ mid] at hsize
    have hnil : mid = [] := by
      by_contra hne
      have := utf8Len_pos hne
      omega
    exact ⟨before, by rw [hmid, hnil, List.append_nil]⟩
  · rw [hmid, utf8Len_append _ mid] at hsize
    have hnil : mid = [] := by
      by_contra hne
      have := utf8Len_pos hne
      omega
    exact ⟨before, by rw [hmid, hnil, List.append_nil]⟩

/-- The end of a line stands in front of its line ending, or is the end of the text. -/
inductive LineEnd (u : Unicode) (text : Str) (ranges : List ByteRange) (stop : ℕ) : Prop
  | end_of_text (stop_eq : stop = utf8Len text) (ending : lineEndingAt text stop = none)
  | ending (lineFeed : ℕ) (ends : endsLine text ranges lineFeed = true)
      (clear : Clear u text ranges stop) (le : stop ≤ lineFeed)
      (ending : lineEndingAt text stop = some ⟨stop, lineFeed + 1⟩)

theorem lineEndingAt_len (text : Str) : lineEndingAt text (utf8Len text) = none := by
  rw [lineEndingAt, splitAtByte_eq_some_iff.mpr ⟨(List.append_nil text).symm, rfl⟩]
  rfl

theorem lineEndingAt_lineFeed (front back : Str) :
    lineEndingAt (front ++ '\n' :: back) (utf8Len front) =
      some ⟨utf8Len front, utf8Len front + 1⟩ := by
  rw [lineEndingAt, splitAtByte_eq_some_iff.mpr ⟨rfl, rfl⟩]
  rfl

theorem lineEndingAt_return (before back : Str) :
    lineEndingAt (before ++ '\r' :: '\n' :: back) (utf8Len before) =
      some ⟨utf8Len before, utf8Len before + 2⟩ := by
  rw [lineEndingAt, splitAtByte_eq_some_iff.mpr ⟨rfl, rfl⟩]
  rfl

theorem byteAt_return (before back : Str) :
    byteAt (before ++ ['\r'] ++ back) (utf8Len (before ++ ['\r']) - 1) = some 0x0d := by
  have hone : utf8Len ['\r'] = 1 := by decide
  have hlen : utf8Len (before ++ ['\r']) - 1 = (encode before).length := by
    rw [utf8Len_append, hone, length_encode, Nat.add_sub_cancel]
  rw [byteAt, hlen, encode_append, encode_append, List.append_assoc,
    List.getElem?_append_right (le_refl _), Nat.sub_self]
  rfl

/-- The line feed behind a carriage return does not start a cluster. -/
theorem not_boundary_lineFeed (u : Unicode) (before back : Str) :
    ¬ Boundary u (before ++ ['\r'] ++ '\n' :: back) (utf8Len (before ++ ['\r'])) := by
  rintro (hend | hmem)
  · rw [utf8Len_append _ ('\n' :: back)] at hend
    have hpos := utf8Len_pos (List.cons_ne_nil '\n' back)
    omega
  · exact (u.beforeLineFeed _ _).mp hmem List.getLast?_concat

theorem lineEndFrom_lineEnd (h : Normal u text ranges) (hcursor : Boundary u text cursor) :
    LineEnd u text ranges (lineEndFrom text cursor ranges) ∧
      cursor ≤ lineEndFrom text cursor ranges := by
  have hmin : min cursor (utf8Len text) = cursor := Nat.min_eq_left hcursor.le
  unfold lineEndFrom
  dsimp only
  rw [hmin]
  split
  · exact ⟨.end_of_text rfl (lineEndingAt_len text), hcursor.le⟩
  · rename_i lineFeed hfind
    have hends := List.find?_some hfind
    have hmem := List.mem_of_find?_eq_some hfind
    rw [List.mem_range'_1] at hmem
    obtain ⟨⟨front, back, rfl, hlen⟩, houtside⟩ := endsLine_split hends
    subst hlen
    by_cases hreturn : ∃ before, front = before ++ ['\r']
    · obtain ⟨before, rfl⟩ := hreturn
      have hone : utf8Len ['\r'] = 1 := by decide
      have hlen : utf8Len (before ++ ['\r']) = utf8Len before + 1 := by rw [utf8Len_append, hone]
      have hnot := not_boundary_lineFeed u before back
      have hcut : (decide (0 < utf8Len (before ++ ['\r'])) &&
          byteAt (before ++ ['\r'] ++ '\n' :: back) (utf8Len (before ++ ['\r']) - 1) ==
            some 0x0d) = true := by
        rw [byteAt_return, hlen]
        rfl
      rw [if_pos hcut, hlen, Nat.add_sub_cancel]
      have hboundary : Boundary u (before ++ ['\r'] ++ '\n' :: back) (utf8Len before) := by
        right
        rw [List.append_assoc]
        exact u.beforeReturn before ('\n' :: back)
      have hclear : Clear u (before ++ ['\r'] ++ '\n' :: back) ranges (utf8Len before) := by
        refine ⟨hboundary, fun r hr hin => houtside r hr ⟨?_, ?_⟩⟩
        · exact hin.1.le.trans (hlen ▸ Nat.le_succ _)
        · -- a range that holds the carriage return ends behind the line feed as well
          have hne : r.stop ≠ utf8Len (before ++ ['\r']) := by
            intro heq
            exact hnot (heq ▸ (h.boundary r hr).2)
          have hlt : utf8Len before < r.stop := hin.2
          omega
      refine ⟨.ending (utf8Len (before ++ ['\r'])) hends hclear (hlen ▸ Nat.le_succ _) ?_, ?_⟩
      · rw [List.append_assoc, hlen]
        exact lineEndingAt_return before back
      · have hne : cursor ≠ utf8Len (before ++ ['\r']) := by
          rintro rfl
          exact hnot hcursor
        omega
    · have hkeep : ¬ (decide (0 < utf8Len front) &&
          byteAt (front ++ '\n' :: back) (utf8Len front - 1) == some 0x0d) = true := by
        rw [Bool.and_eq_true, decide_eq_true_eq, beq_iff_eq]
        exact fun hboth => hreturn (split_return hboth.2 hboth.1)
      have hlast : front.getLast? ≠ some '\r' := by
        intro hget
        obtain ⟨before, hbefore⟩ := List.getLast?_eq_some_iff.mp hget
        exact hreturn ⟨before, hbefore⟩
      rw [if_neg hkeep]
      have hclear : Clear u (front ++ '\n' :: back) ranges (utf8Len front) :=
        ⟨.inr ((u.beforeLineFeed front back).mpr hlast),
          fun r hr hin => houtside r hr ⟨hin.1.le, hin.2⟩⟩
      exact ⟨.ending (utf8Len front) hends hclear (le_refl _) (lineEndingAt_lineFeed front back),
        hmem.1⟩

theorem clear_len (h : Normal u text ranges) : Clear u text ranges (utf8Len text) :=
  ⟨boundary_len u text, fun r hr hin => Nat.not_lt_of_le (h.boundary r hr).2.le hin.2⟩

theorem LineEnd.clear {stop : ℕ} (h : LineEnd u text ranges stop)
    (hnormal : Normal u text ranges) : Clear u text ranges stop := by
  cases h with
  | end_of_text stop_eq _ => exact stop_eq ▸ clear_len hnormal
  | ending _ _ clear _ _ => exact clear

theorem clear_logicalLineStartTarget (u : Unicode) (text : Str) (cursor : ℕ)
    (ranges : List ByteRange) :
    Clear u text ranges (logicalLineStartTarget u text cursor ranges) := by
  unfold logicalLineStartTarget
  dsimp only
  split_ifs
  · exact (lineStartAt_clear u text _ ranges).1
  · exact (lineStartAt_clear u text _ ranges).1

theorem clear_logicalLineEndTarget (h : Normal u text ranges)
    (hcursor : Boundary u text cursor) :
    Clear u text ranges (logicalLineEndTarget text cursor ranges) := by
  have hend := (lineEndFrom_lineEnd h hcursor).1
  unfold logicalLineEndTarget
  dsimp only
  split_ifs
  · cases hend with
    | end_of_text stop_eq ending =>
      rw [ending]
      exact stop_eq ▸ clear_len h
    | ending lineFeed ends _ _ ending =>
      rw [ending]
      have hbehind := (clear_behind_lineFeed u ends).boundary
      exact (lineEndFrom_lineEnd h hbehind).1.clear h
  · exact hend.clear h

end Lines

/-! ## Plans -/

section Plans

variable {u : Unicode} {b b' : EditBuffer} {ranges : List ByteRange} {range : ByteRange}
  {plan : EditPlan} {outcome : EditOutcome} {cursor target : ℕ} {replacement : Str}

/-- The plan validates, its range is clear of the atomic ranges, and applying it leaves the cursor
on a grapheme boundary. -/
structure Applies (u : Unicode) (b : EditBuffer) (ranges : List ByteRange) (plan : EditPlan) :
    Prop where
  validates : b.validatePlan u plan = .ok ()
  uncut : ∀ r ∈ normalizeAtomicRanges u b.text ranges,
    ¬ Span.Inside plan.replacedByteRange.start r ∧ ¬ Span.Inside plan.replacedByteRange.stop r
  applied : ∃ b' outcome, b.applyValidatedPlan u plan = some (b', outcome) ∧
    isGraphemeBoundary u b'.text b'.cursorByte = true

/-- What a plan that validates says of its buffer. -/
structure Valid (u : Unicode) (b : EditBuffer) (plan : EditPlan) : Prop where
  le : plan.replacedByteRange.start ≤ plan.replacedByteRange.stop
  start : Boundary u b.text plan.replacedByteRange.start
  stop : Boundary u b.text plan.replacedByteRange.stop
  removed : sliceBytes b.text plan.replacedByteRange.start plan.replacedByteRange.stop =
    some plan.removedText
  exactCursor : plan.cursorAffinity = .exact →
    plan.replacement = plan.removedText ∧ Boundary u b.text plan.cursorByte

theorem validatePlan_eq_ok_iff : b.validatePlan u plan = .ok () ↔
    plan.sourceIdentity = b.identity ∧ plan.sourceGeneration = b.generation ∧ Valid u b plan ∧
      plan.cursorByte ≤ utf8Len b.text -
        (plan.replacedByteRange.stop - plan.replacedByteRange.start) +
          utf8Len plan.replacement := by
  unfold EditBuffer.validatePlan
  dsimp only
  split_ifs with hstale hrange hremoved hcursor hexact
  · refine iff_of_false nofun fun h => ?_
    obtain hne | hne := hstale
    · exact hne h.1
    · exact hne h.2.1
  · refine iff_of_false nofun fun h => ?_
    obtain ⟨-, -, hvalid, -⟩ := h
    have hstart := isGraphemeBoundary_iff.mpr hvalid.start
    have hstop := isGraphemeBoundary_iff.mpr hvalid.stop
    have hfront := splitAtByte_isSome_iff.mpr hvalid.start.charBoundary
    have hback := splitAtByte_isSome_iff.mpr hvalid.stop.charBoundary
    rw [hstart, hstop, hfront, hback] at hrange
    have hle := hvalid.le
    have hlen := hvalid.stop.le
    simp only [Bool.not_true, Bool.false_eq_true, or_false] at hrange
    omega
  · exact iff_of_false nofun fun h => hremoved h.2.2.1.removed
  · refine iff_of_false nofun fun h => ?_
    have hle := h.2.2.2
    omega
  · refine iff_of_false nofun fun h => ?_
    obtain ⟨heq, hboundary⟩ := h.2.2.1.exactCursor hexact.1
    obtain hne | hnot := hexact.2
    · exact hne heq
    · rw [isGraphemeBoundary_iff.mpr hboundary] at hnot
      cases hnot
  · refine iff_of_true rfl ?_
    simp only [not_or, not_not, Bool.not_eq_true', Bool.not_eq_false] at hstale hrange
    obtain ⟨hle, -, -, -, hstart, hstop⟩ := hrange
    refine ⟨hstale.1, hstale.2, ⟨Nat.le_of_not_lt hle, isGraphemeBoundary_iff.mp hstart,
      isGraphemeBoundary_iff.mp hstop, not_not.mp hremoved, fun haffinity => ?_⟩,
      Nat.le_of_not_lt hcursor⟩
    simp only [haffinity, true_and, not_or, not_not, Bool.not_eq_true', Bool.not_eq_false] at hexact
    exact ⟨hexact.1, isGraphemeBoundary_iff.mp hexact.2⟩

@[simp] theorem advanceGeneration_text (b : EditBuffer) : b.advanceGeneration.text = b.text := by
  unfold EditBuffer.advanceGeneration
  split_ifs <;> rfl

@[simp] theorem advanceGeneration_cursorByte (b : EditBuffer) :
    b.advanceGeneration.cursorByte = b.cursorByte := by
  unfold EditBuffer.advanceGeneration
  split_ifs <;> rfl

/-- The text and the cursor after a plan. -/
theorem applyValidatedPlan_eq (h : Valid u b plan) :
    ∃ text b' outcome,
      replaceBytes b.text plan.replacedByteRange.start plan.replacedByteRange.stop
        plan.replacement = some text ∧
      b.applyValidatedPlan u plan = some (b', outcome) ∧ b'.text = text ∧
      b'.cursorByte = (match plan.cursorAffinity with
        | .exact => plan.cursorByte
        | .right => ceilGraphemeBoundary u text plan.cursorByte) := by
  obtain ⟨front, mid, back, htext, hstart, hstop⟩ :=
    exists_split_three h.start.charBoundary h.stop.charBoundary h.le
  have hreplaced := replaceBytes_split front mid back plan.replacement
  have hsliced := sliceBytes_split front mid back
  rw [← htext, hstart, hstop] at hreplaced hsliced
  have hmid : mid = plan.removedText := Option.some.inj (hsliced.symm.trans h.removed)
  -- an unchanged text is the text with the removed part put back
  have hkept : (if plan.removedText ≠ plan.replacement then
      replaceBytes b.text plan.replacedByteRange.start plan.replacedByteRange.stop plan.replacement
      else some b.text) = some (front ++ plan.replacement ++ back) := by
    split_ifs with hchanged
    · exact hreplaced
    · rw [htext, hmid, not_not.mp hchanged]
  unfold EditBuffer.applyValidatedPlan
  dsimp only
  rw [hkept, hreplaced]
  refine ⟨_, _, _, rfl, rfl, ?_, ?_⟩
  · split_ifs
    · exact advanceGeneration_text _
    · rfl
  · split_ifs
    · exact advanceGeneration_cursorByte _
    · rfl

/-- A plan that validates leaves the cursor on a grapheme boundary. -/
theorem Valid.applied (h : Valid u b plan) :
    ∃ b' outcome, b.applyValidatedPlan u plan = some (b', outcome) ∧
      Boundary u b'.text b'.cursorByte := by
  obtain ⟨text, b', outcome, hreplaced, happly, htext, hcursor⟩ := applyValidatedPlan_eq h
  refine ⟨b', outcome, happly, ?_⟩
  rw [htext, hcursor]
  cases haffinity : plan.cursorAffinity with
  | right => exact boundary_ceil u text plan.cursorByte
  | exact =>
    obtain ⟨hsame, hboundary⟩ := h.exactCursor haffinity
    obtain ⟨front, mid, back, hsplit, hstart, hstop⟩ :=
      exists_split_three h.start.charBoundary h.stop.charBoundary h.le
    have hback := replaceBytes_split front mid back plan.replacement
    have hsliced := sliceBytes_split front mid back
    rw [← hsplit, hstart, hstop] at hback hsliced
    have hmid : mid = plan.replacement :=
      (Option.some.inj (hsliced.symm.trans h.removed)).trans hsame.symm
    have hunchanged : text = b.text := by
      rw [hsplit, hmid]
      exact Option.some.inj (hreplaced.symm.trans hback)
    rw [hunchanged]
    exact hboundary

/-- Where a plan over clear positions leaves the cursor: moved on its own, behind the replacement,
or where it was in the text around. -/
inductive CursorPlan (u : Unicode) (b : EditBuffer) (ranges : List ByteRange) (plan : EditPlan) :
    Prop
  | moved (affinity : plan.cursorAffinity = .exact)
      (empty : plan.replacedByteRange.start = plan.replacedByteRange.stop)
      (replacement : plan.replacement = []) (clear : Clear u b.text ranges plan.cursorByte)
  | behind (affinity : plan.cursorAffinity = .right)
      (cursor_eq : plan.cursorByte = plan.replacedByteRange.start + utf8Len plan.replacement)
  | before (affinity : plan.cursorAffinity = .right)
      (clear : Clear u b.text ranges plan.cursorByte)
      (lt : plan.cursorByte < plan.replacedByteRange.start)
  | shifted (affinity : plan.cursorAffinity = .right) (cursor : ℕ)
      (clear : Clear u b.text ranges cursor) (le : plan.replacedByteRange.stop ≤ cursor)
      (cursor_eq : plan.cursorByte + (plan.replacedByteRange.stop - plan.replacedByteRange.start) =
        cursor + utf8Len plan.replacement)

/-- A plan made from a buffer, over a range that is clear of the atomic ranges. -/
structure Made (u : Unicode) (b : EditBuffer) (ranges : List ByteRange) (plan : EditPlan) :
    Prop where
  range : ClearRange u b.text (normalizeAtomicRanges u b.text ranges) plan.replacedByteRange
  removed : sliceBytes b.text plan.replacedByteRange.start plan.replacedByteRange.stop =
    some plan.removedText
  identity : plan.sourceIdentity = b.identity
  generation : plan.sourceGeneration = b.generation
  cursor : CursorPlan u b (normalizeAtomicRanges u b.text ranges) plan

theorem Made.valid (h : Made u b ranges plan) : Valid u b plan := by
  refine ⟨h.range.le, h.range.start.boundary, h.range.stop.boundary, h.removed, fun hexact => ?_⟩
  cases h.cursor with
  | moved affinity empty replacement clear =>
    -- an empty range removes nothing
    have hremoved := h.removed
    rw [empty, sliceBytes_self h.range.stop.boundary.charBoundary] at hremoved
    exact ⟨replacement.trans (Option.some.inj hremoved), clear.boundary⟩
  | behind affinity _ =>
    rw [hexact] at affinity
    cases affinity
  | before affinity _ _ =>
    rw [hexact] at affinity
    cases affinity
  | shifted affinity _ _ _ _ =>
    rw [hexact] at affinity
    cases affinity

theorem Made.cursor_le (h : Made u b ranges plan) :
    plan.cursorByte ≤ utf8Len b.text -
      (plan.replacedByteRange.stop - plan.replacedByteRange.start) + utf8Len plan.replacement := by
  have hle := h.range.le
  have hlen := h.range.stop.boundary.le
  cases h.cursor with
  | moved affinity empty replacement clear =>
    have hcursor := clear.boundary.le
    omega
  | behind affinity cursor_eq => omega
  | before affinity clear lt => omega
  | shifted affinity cursor clear le cursor_eq =>
    have hcursor := clear.boundary.le
    omega

theorem Made.applies (h : Made u b ranges plan) : Applies u b ranges plan := by
  refine ⟨validatePlan_eq_ok_iff.2 ⟨h.identity, h.generation, h.valid, h.cursor_le⟩,
    fun r hr => ⟨h.range.start.outside r hr, h.range.stop.outside r hr⟩, ?_⟩
  obtain ⟨b', outcome, happly, hboundary⟩ := h.valid.applied
  exact ⟨b', outcome, happly, isGraphemeBoundary_iff.mpr hboundary⟩

theorem makePlan_made {affinity : PostEditCursorAffinity}
    (hrange : ClearRange u b.text (normalizeAtomicRanges u b.text ranges) range)
    (hcursor : ∀ removed, CursorPlan u b (normalizeAtomicRanges u b.text ranges)
      ⟨range, replacement, removed, cursor, affinity, b.identity, b.generation⟩) :
    ∃ plan, b.makePlan range replacement cursor affinity = some plan ∧ Made u b ranges plan := by
  obtain ⟨removed, hremoved, -⟩ := sliceBytes_isSome hrange.start.boundary.charBoundary
    hrange.stop.boundary.charBoundary hrange.le
  refine ⟨_, by rw [EditBuffer.makePlan, hremoved]; rfl, ?_⟩
  exact ⟨hrange, hremoved, rfl, rfl, hcursor removed⟩

theorem planMove_made (hcursor : Clear u b.text (normalizeAtomicRanges u b.text ranges) cursor)
    (htarget : Clear u b.text (normalizeAtomicRanges u b.text ranges) target) :
    ∃ plan, b.planMove cursor target = some plan ∧ Made u b ranges plan :=
  makePlan_made ⟨le_refl _, hcursor, hcursor⟩ fun _ => .moved rfl rfl rfl htarget

theorem planDelete_made {start stop : ℕ} (hle : start ≤ stop)
    (hstart : Clear u b.text (normalizeAtomicRanges u b.text ranges) start)
    (hstop : Clear u b.text (normalizeAtomicRanges u b.text ranges) stop) :
    ∃ plan, b.planDelete start stop = some plan ∧ Made u b ranges plan :=
  makePlan_made ⟨hle, hstart, hstop⟩ fun _ => .behind rfl rfl

theorem planReplaceByteRange_made (hcursor : Boundary u b.text b.cursorByte)
    (range : ByteRange) (replacement : Str) (ranges : List ByteRange) :
    ∃ plan, b.planReplaceByteRange u range replacement ranges = some plan ∧
      Made u b ranges plan := by
  have hnormal := normal_normalizeAtomicRanges u b.text ranges
  have hrange := hnormal.clear_replacement range
  have hclear := hnormal.clear_cursor hcursor
  have hle := hrange.le
  refine makePlan_made hrange fun removed => ?_
  split_ifs with hbefore hwithin
  · exact .before rfl hclear hbefore
  · exact .behind rfl rfl
  · refine .shifted rfl _ hclear (Nat.le_of_not_le hwithin) ?_
    dsimp only
    omega

theorem deleteToLineEnd_made
    (hcursor : Clear u b.text (normalizeAtomicRanges u b.text ranges) cursor) :
    ∃ plan, b.planDelete (min cursor (lineEndFrom b.text cursor (normalizeAtomicRanges u b.text
        ranges)))
      (if lineEndFrom b.text cursor (normalizeAtomicRanges u b.text ranges) ≤ cursor then
        match lineEndingAt b.text (lineEndFrom b.text cursor (normalizeAtomicRanges u b.text
            ranges)) with
        | none => lineEndFrom b.text cursor (normalizeAtomicRanges u b.text ranges)
        | some range => range.stop
      else lineEndFrom b.text cursor (normalizeAtomicRanges u b.text ranges)) = some plan ∧
      Made u b ranges plan := by
  have hnormal := normal_normalizeAtomicRanges u b.text ranges
  obtain ⟨hend, hle⟩ := lineEndFrom_lineEnd hnormal hcursor.boundary
  have hclear := hend.clear hnormal
  generalize lineEndFrom b.text cursor (normalizeAtomicRanges u b.text ranges) = lineEnd at *
  rw [Nat.min_eq_left hle]
  split_ifs with hat
  · -- at the end of the line, its ending is what goes
    have heq : cursor = lineEnd := Nat.le_antisymm hle hat
    cases hend with
    | end_of_text stop_eq ending =>
      rw [ending]
      exact planDelete_made hle hcursor hclear
    | ending lineFeed ends clear le ending =>
      rw [ending]
      exact planDelete_made (by dsimp only; omega) hcursor (clear_behind_lineFeed u ends)
  · exact planDelete_made hle hcursor hclear

theorem planCommand_made (hcursor : Boundary u b.text b.cursorByte) (command : EditCommand)
    (ranges : List ByteRange) :
    ∃ plan, b.planCommand u command ranges = some plan ∧ Made u b ranges plan := by
  have hnormal := normal_normalizeAtomicRanges u b.text ranges
  have hclear := hnormal.clear_cursor hcursor
  unfold EditBuffer.planCommand
  dsimp only
  generalize normalizeCursorForAtomicRanges b.cursorByte (normalizeAtomicRanges u b.text ranges)
    = cursor at hclear ⊢
  cases command with
  | insert character =>
    have hsize : utf8Len [character] = character.utf8Size := by
      rw [utf8Len_cons]
      rfl
    refine makePlan_made ⟨le_refl _, hclear, hclear⟩ fun _ => .behind rfl ?_
    rw [hsize]
  | moveGraphemeLeft => exact planMove_made hclear (hnormal.clear_previous cursor)
  | moveGraphemeRight => exact planMove_made hclear (hnormal.clear_next cursor)
  | moveWordLeft style =>
    obtain ⟨p, hp, -, hpclear⟩ := previousWordBoundary_clear hnormal hclear
    dsimp only
    rw [hp]
    exact planMove_made hclear hpclear
  | moveWordRight style =>
    obtain ⟨p, hp, -, hpclear⟩ := nextWordBoundary_clear hnormal hclear
    dsimp only
    rw [hp]
    exact planMove_made hclear hpclear
  | moveLogicalLineStart =>
    exact planMove_made hclear (clear_logicalLineStartTarget u b.text cursor _)
  | moveLogicalLineEnd =>
    exact planMove_made hclear (clear_logicalLineEndTarget hnormal hclear.boundary)
  | deleteGraphemeBackward =>
    exact planDelete_made (previousAtomicBoundary_le u b.text cursor _)
      (hnormal.clear_previous cursor) hclear
  | deleteGraphemeForward =>
    exact planDelete_made (le_nextAtomicBoundary u _ hclear.boundary.le) hclear
      (hnormal.clear_next cursor)
  | deleteWordBackward style =>
    obtain ⟨p, hp, hle, hpclear⟩ := previousWordBoundary_clear hnormal hclear
    dsimp only
    rw [hp]
    exact planDelete_made hle hpclear hclear
  | deleteWordForward style =>
    obtain ⟨p, hp, hle, hpclear⟩ := nextWordBoundary_clear hnormal hclear
    dsimp only
    rw [hp]
    exact planDelete_made hle hclear hpclear
  | deleteToLineStart =>
    obtain ⟨hstart, hle⟩ :=
      lineStartAt_clear u b.text cursor (normalizeAtomicRanges u b.text ranges)
    dsimp only
    split_ifs with hat
    · exact planDelete_made ((previousAtomicBoundary_le u b.text _ _).trans hle)
        (hnormal.clear_previous _) hclear
    · exact planDelete_made hle hstart hclear
  | deleteToLineEnd => exact deleteToLineEnd_made hclear

end Plans

/-! ## Reachable buffers -/

section Runs

variable {u : Unicode} {b b' : EditBuffer} {outcome : EditOutcome}

namespace EditBuffer

/-- What the public operations make of a buffer. -/
inductive Reachable (u : Unicode) : EditBuffer → Prop
  | new (allocated : ℕ) : Reachable u (EditBuffer.new allocated)
  | fromText (allocated : ℕ) (text : Str) : Reachable u (EditBuffer.fromText allocated text)
  | fromParts (allocated : ℕ) (text : Str) (cursorByte : ℕ) :
      Reachable u (EditBuffer.fromParts u allocated text cursorByte)
  | clone {b : EditBuffer} (h : Reachable u b) (allocated : ℕ) : Reachable u (b.clone allocated)
  | setCursorByte {b : EditBuffer} (h : Reachable u b) (cursorByte : ℕ) :
      Reachable u (b.setCursorByte u cursorByte).1
  | replaceByteRange {b b' : EditBuffer} {outcome : EditOutcome} (h : Reachable u b)
      (range : ByteRange) (replacement : Str)
      (happly : b.replaceByteRange u range replacement = some (b', outcome)) : Reachable u b'
  | insertStr {b b' : EditBuffer} {outcome : EditOutcome} (h : Reachable u b) (text : Str)
      (happly : b.insertStr u text = some (b', outcome)) : Reachable u b'
  | apply {b b' : EditBuffer} {outcome : EditOutcome} (h : Reachable u b) (command : EditCommand)
      (happly : b.apply u command = some (b', outcome)) : Reachable u b'
  | applyPlan {b b' : EditBuffer} {outcome : EditOutcome} (h : Reachable u b) (plan : EditPlan)
      (happly : b.applyPlan u plan = .ok (some (b', outcome))) : Reachable u b'

end EditBuffer

theorem boundary_setCursorByte (u : Unicode) (b : EditBuffer) (cursorByte : ℕ) :
    Boundary u (b.setCursorByte u cursorByte).1.text
      (b.setCursorByte u cursorByte).1.cursorByte := by
  unfold EditBuffer.setCursorByte
  dsimp only
  split_ifs
  · rw [advanceGeneration_text, advanceGeneration_cursorByte]
    exact boundary_normalize u b.text cursorByte
  · exact boundary_normalize u b.text cursorByte

/-- A plan that was made leaves its cursor on a boundary. -/
theorem boundary_of_made {ranges : List ByteRange} {made : Option EditPlan}
    (h : ∃ plan, made = some plan ∧ Made u b ranges plan)
    (happly : made.bind (b.applyValidatedPlan u) = some (b', outcome)) :
    Boundary u b'.text b'.cursorByte := by
  obtain ⟨plan, rfl, hmade⟩ := h
  obtain ⟨b'', outcome', heq, hboundary⟩ := hmade.valid.applied
  rw [Option.bind_some, heq, Option.some.injEq, Prod.mk.injEq] at happly
  exact happly.1 ▸ hboundary

theorem boundary_replaceByteRange (hcursor : Boundary u b.text b.cursorByte) (range : ByteRange)
    (replacement : Str) (happly : b.replaceByteRange u range replacement = some (b', outcome)) :
    Boundary u b'.text b'.cursorByte :=
  boundary_of_made (planReplaceByteRange_made hcursor range replacement []) happly

theorem boundary_applyPlan {plan : EditPlan}
    (happly : b.applyPlan u plan = .ok (some (b', outcome))) :
    Boundary u b'.text b'.cursorByte := by
  unfold EditBuffer.applyPlan at happly
  cases hvalidate : b.validatePlan u plan with
  | error e =>
    rw [hvalidate] at happly
    cases happly
  | ok _ =>
    rw [hvalidate] at happly
    obtain ⟨b'', outcome', heq, hboundary⟩ := (validatePlan_eq_ok_iff.1 hvalidate).2.2.1.applied
    have happly := Except.ok.inj happly
    rw [heq, Option.some.injEq, Prod.mk.injEq] at happly
    exact happly.1 ▸ hboundary

/-- The cursor of a reachable buffer is on a grapheme boundary. -/
theorem EditBuffer.Reachable.boundary (h : b.Reachable u) :
    Boundary u b.text b.cursorByte := by
  induction h with
  | new allocated => exact boundary_zero u []
  | fromText allocated text => exact boundary_len u text
  | fromParts allocated text cursorByte => exact boundary_normalize u text cursorByte
  | clone _ allocated ih => exact ih
  | setCursorByte _ cursorByte _ => exact boundary_setCursorByte u _ cursorByte
  | replaceByteRange _ range replacement happly ih =>
    exact boundary_replaceByteRange ih range replacement happly
  | insertStr _ text happly ih => exact boundary_replaceByteRange ih _ text happly
  | apply _ command happly ih =>
    exact boundary_of_made (planCommand_made ih command []) happly
  | applyPlan _ plan happly _ => exact boundary_applyPlan happly

/-- A plan that is made from a buffer applies to it. -/
theorem plan_applies (h : b.Reachable u) (ranges : List ByteRange) :
    (∀ command, ∃ plan, b.planCommand u command ranges = some plan ∧ Applies u b ranges plan) ∧
      ∀ range replacement, ∃ plan,
        b.planReplaceByteRange u range replacement ranges = some plan ∧ Applies u b ranges plan := by
  refine ⟨fun command => ?_, fun range replacement => ?_⟩
  · obtain ⟨plan, hplan, hmade⟩ := planCommand_made h.boundary command ranges
    exact ⟨plan, hplan, hmade.applies⟩
  · obtain ⟨plan, hplan, hmade⟩ := planReplaceByteRange_made h.boundary range replacement ranges
    exact ⟨plan, hplan, hmade.applies⟩

/-- A range that ends within a line ending, and a reversed one beyond the text. -/
theorem plan_applies_crlf :
    (∀ command, ∃ plan, (EditBuffer.fromText 0 "e\r\nx".toList).planCommand combiningMarks command
        [⟨2, 0⟩, ⟨9, 3⟩] = some plan ∧
      Applies combiningMarks (EditBuffer.fromText 0 "e\r\nx".toList) [⟨2, 0⟩, ⟨9, 3⟩] plan) ∧
    ∀ range replacement, ∃ plan,
      (EditBuffer.fromText 0 "e\r\nx".toList).planReplaceByteRange combiningMarks range replacement
        [⟨2, 0⟩, ⟨9, 3⟩] = some plan ∧
      Applies combiningMarks (EditBuffer.fromText 0 "e\r\nx".toList) [⟨2, 0⟩, ⟨9, 3⟩] plan :=
  plan_applies (.fromText 0 "e\r\nx".toList) [⟨2, 0⟩, ⟨9, 3⟩]

end Runs

end GrokBuild.Textarea
