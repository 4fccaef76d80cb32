import GrokBuild.Compaction.SummaryKept

/-!
# The body of a summary behind a draft

Behind a closed draft the body of a summary that begins with a digit is kept whole, whatever tags it
quotes. Behind a draft that is left open it is kept exactly when it does not quote the closing tag
of a draft, which the loop takes for that draft's own.
-/

namespace GrokBuild.Compaction

open GrokBuild.Text

/-- `<analysis>d</analysis><summary>s</summary>`. -/
def closedDraft (d s : Str) : Str :=
  analysisOpen ++ (d ++ (analysisClose ++ (summaryOpen ++ (s ++ summaryClose))))

/-- `<analysis>d<summary>s</summary>`. -/
def openDraft (d s : Str) : Str := analysisOpen ++ (d ++ (summaryOpen ++ (s ++ summaryClose)))

def summaryText (s : Str) : Str := "Summary:\n".toList ++ collapsed (defused (trim s))

/-- Without its blanks the text starts with a digit. -/
def BeginsWithDigit (s : Str) : Prop := ∃ c t, trim s = c :: t ∧ c.isDigit = true

section Cleaned

variable {s out : Str}

/-- A text without tokens and long runs of newlines, and without blanks at its ends, is cleaned. -/
theorem formatCompactSummary_eq_self (htokens : ∀ token ∈ controlTokens, ¬token <:+: s)
    (hlines : ¬threeNewlines <:+: s) (htrim : trim s = s) : formatCompactSummary s = some s := by
  have hopen : find summaryOpen s = none :=
    (find_eq_none_iff headOnce_summaryOpen.ne_nil).2 (htokens _ (by simp [controlTokens]))
  have hanalysis : find analysisOpen s = none :=
    (find_eq_none_iff headOnce_analysisOpen.ne_nil).2 (htokens _ (by simp [controlTokens]))
  have hdrop : dropDrafts s = some s := by
    have hpass : draftPass s = some .stop := by rw [draftPass, hanalysis]
    rw [dropDrafts, hpass]
  have hextract : extractSummary s = some s := by rw [extractSummary, hopen]
  rw [formatCompactSummary, hdrop]
  simp only [Option.bind_eq_bind, Option.bind_some, hextract]
  rw [neutralize_eq, collapseBlankLines_eq, defused_eq_self htokens, collapsed,
    keepTwo_eq_self (Nat.zero_le 2) hlines, htrim]

theorem cleaned_tokens (result : Str) : ∀ token ∈ controlTokens,
    ¬token <:+: trim (collapsed (defused result)) := by
  intro token htoken hin
  obtain ⟨honce, -, hnewline⟩ := spelled_controlTokens token htoken
  exact not_infix_defused htoken result
    (infix_of_keepTwo hnewline honce.ne_nil (hin.trans ( trim_infix _)))

/-- Every raw text is cleaned to one without control tokens, and cleaning that changes nothing. -/
theorem formatCompactSummary_stable (raw : Str) : ∃ out, formatCompactSummary raw = some out ∧
    (∀ token ∈ controlTokens, ¬token <:+: out) ∧ formatCompactSummary out = some out := by
  obtain ⟨result, -, -, hformat⟩ := formatCompactSummary_eq raw
  refine ⟨_, hformat, cleaned_tokens result, ?_⟩
  exact formatCompactSummary_eq_self (cleaned_tokens result)
    (fun hin => not_infix_collapsed _ (hin.trans ( trim_infix _))) (trim_trim _)

end Cleaned

section Body

variable {d s : Str}

theorem digit_plain {c : Char} (h : c.isDigit = true) :
    c ≠ '<' ∧ c ≠ '\n' ∧ isDecoration c = false := by
  refine ⟨?_, ?_, ?_⟩
  · rintro rfl
    cases h
  · rintro rfl
    cases h
  · by_contra hdeco
    rw [Bool.not_eq_false, isDecoration] at hdeco
    simp only [Bool.or_eq_true, beq_iff_eq] at hdeco
    obtain ((((rfl | rfl) | rfl) | rfl) | rfl) | rfl := hdeco <;> cases h

theorem stripLeadingScratchpad_digit (h : BeginsWithDigit s) :
    stripLeadingScratchpad (trim s) = some (trim s) := by
  obtain ⟨c, t, htrim, hdigit⟩ := h
  obtain ⟨hlt, -, hdeco⟩ := digit_plain hdigit
  have hlead : ((c :: t).dropWhile isDecoration).head?.any Char.isDigit = true := by
    rw [List.dropWhile_cons_of_neg (ne_true_of_eq_false hdeco)]
    exact hdigit
  have hopen : stripPrefix (c :: t) summaryOpen = none := by
    refine if_neg fun hstart => ?_
    obtain ⟨tail, htail⟩ := startsWith_iff.1 hstart
    obtain ⟨rest, hrest⟩ := List.head?_eq_some_iff.1 (head_controlTokens _ mem_controlTokens.1).1
    rw [hrest] at htail
    exact hlt (List.cons.inj htail).1.symm
  rw [stripLeadingScratchpad]
  dsimp only
  rw [trim_trim, htrim, hlead]
  simp only [Option.bind_eq_bind, Option.bind_some]
  rw [hopen]
  rfl

/-- The outer tags of a summary that begins with a digit are replaced by its heading. -/
theorem extractSummary_digit (h : BeginsWithDigit s) :
    extractSummary (summaryOpen ++ (s ++ summaryClose)) =
      some ("Summary:\n".toList ++ trim s) := by
  have hopen := find_self headOnce_summaryOpen (s ++ summaryClose)
  have hclose : rfind summaryClose (summaryOpen ++ (s ++ summaryClose)) =
      some (utf8Len (summaryOpen ++ s)) := by
    rw [← List.append_assoc]
    exact rfind_append headOnce_summaryClose _
  have hpos : utf8Len (summaryOpen ++ s) > 0 :=
    utf8Len_pos (List.append_ne_nil_of_left_ne_nil headOnce_summaryOpen.ne_nil _)
  have hbefore : textTo (summaryOpen ++ (s ++ summaryClose)) 0 = some [] := textTo_append [] _
  have hafter : textFrom (summaryOpen ++ (s ++ summaryClose))
      (utf8Len (summaryOpen ++ s) + utf8Len summaryClose) = some [] := by
    have hend := textFrom_append (summaryOpen ++ s ++ summaryClose) []
    rwa [List.append_nil, utf8Len_append _ summaryClose, List.append_assoc] at hend
  have hblock : sliceBytes (summaryOpen ++ (s ++ summaryClose)) (0 + utf8Len summaryOpen)
      (utf8Len (summaryOpen ++ s)) = some s := by
    rw [Nat.zero_add, ← List.append_assoc]
    exact sliceBytes_split summaryOpen s summaryClose
  rw [extractSummary, hopen, hclose]
  dsimp only
  rw [if_pos hpos, hbefore, hafter, hblock]
  simp only [Option.bind_eq_bind, Option.bind_some, stripLeadingScratchpad_digit h]
  rw [List.append_nil, List.nil_append]

theorem getLast?_defused {c : Char} (hc : s.getLast? = some c) : (defused s).getLast? = some c := by
  have hsingle : ∀ a : Char, atControlToken [a] = false := by
    intro a
    rw [atControlToken, List.any_eq_false]
    intro token htoken hstart
    exact absurd (startsWith_iff.1 hstart).length_le
      (Nat.not_le.2 (head_controlTokens token htoken).2)
  rw [defused]
  induction s with
  | nil => cases hc
  | cons a s ih =>
    rw [List.getLast?_cons] at hc
    cases hlast : s.getLast? with
    | none =>
      obtain rfl := List.getLast?_eq_none_iff.1 hlast
      rw [insertAfter, if_neg (ne_true_of_eq_false (hsingle a))]
      exact hc
    | some e =>
      rw [hlast] at hc
      have hrest := ih (hlast.trans hc)
      rw [insertAfter]
      split_ifs
      · rw [List.getLast?_cons, List.getLast?_cons, hrest]
        rfl
      · rw [List.getLast?_cons, hrest]
        rfl

theorem heading_eq : "Summary:\n".toList = ['S', 'u', 'm', 'm', 'a', 'r', 'y', ':', '\n'] :=
  String.toList_ofList

/-- The heading and the body are cleaned apart from each other. -/
theorem cleaned_body (h : BeginsWithDigit s) :
    trim (collapsed (defused ("Summary:\n".toList ++ trim s))) = summaryText s := by
  obtain ⟨c, t, htrim, hdigit⟩ := h
  obtain ⟨hlt, hnewline, -⟩ := digit_plain hdigit
  have hheading : defused ("Summary:\n".toList ++ trim s) =
      "Summary:\n".toList ++ defused (trim s) :=
    insertAfter_append_of_not_mem atControlToken_head (by rw [heading_eq]; decide) _
  obtain ⟨rest, hrest⟩ : ∃ rest, defused (trim s) = c :: rest := by
    refine ⟨insertAfter atControlToken zeroWidthSpace t, ?_⟩
    rw [htrim, defused, insertAfter, if_neg fun hmark => hlt (atControlToken_head c t hmark)]
  have hlines : collapsed ("Summary:\n".toList ++ c :: rest) =
      "Summary:\n".toList ++ collapsed (c :: rest) := by
    rw [heading_eq, collapsed, collapsed]
    simp [keepTwo, hnewline]
  rw [hheading, hrest, hlines, ← hrest]
  refine trim_eq_self ?_ ?_
  · intro a ha
    obtain rfl : a = 'S' := by
      have hhead : ("Summary:\n".toList ++ collapsed (defused (trim s))).head? = some 'S' := by
        rw [List.head?_append, heading_eq]
        rfl
      exact Option.some.inj (ha.symm.trans hhead)
    rfl
  · obtain ⟨e, he⟩ : ∃ e, (trim s).getLast? = some e := by
      rw [htrim, List.getLast?_cons]
      exact ⟨_, rfl⟩
    have hink := last_of_trim_eq_self (trim_trim s) e he
    have hne : e ≠ '\n' := by
      rintro rfl
      cases hink
    have hlast : (collapsed (defused (trim s))).getLast? = some e :=
      getLast?_keepTwo hne (getLast?_defused he)
    intro a ha
    rw [List.getLast?_append, hlast] at ha
    cases ha
    exact hink

end Body

/-! ## Drafts in front of a summary -/

section Drafts

variable {d s rest : Str}

theorem trimStart_append_of_begins (h : BeginsWithDigit s) (rest : Str) :
    ∃ c t, trimStart (s ++ rest) = c :: t ∧ c.isDigit = true := by
  obtain ⟨c, t, htrim, hdigit⟩ := h
  obtain ⟨t', ht'⟩ : ∃ t', trimStart s = c :: t' := by
    obtain ⟨tail, htail⟩ := List.rdropWhile_prefix isWhitespace (trimStart s)
    rw [show (trimStart s).rdropWhile isWhitespace = c :: t from htrim] at htail
    exact ⟨t ++ tail, htail.symm⟩
  refine ⟨c, t' ++ rest, ?_, hdigit⟩
  rw [trimStart] at ht' ⊢
  rw [List.dropWhile_append, ht']
  rfl

/-- A draft that a body quotes behind its first digit does not lead. -/
theorem dropDrafts_summary (h : BeginsWithDigit s) :
    dropDrafts (summaryOpen ++ (s ++ summaryClose)) =
      some (summaryOpen ++ (s ++ summaryClose)) := by
  have hpass : draftPass (summaryOpen ++ (s ++ summaryClose)) = some .stop := by
    cases hanalysis : find analysisOpen (summaryOpen ++ (s ++ summaryClose)) with
    | none => rw [draftPass, hanalysis]
    | some start =>
      obtain ⟨front, back, hsplit, rfl, -⟩ := exists_of_find hanalysis
      obtain ⟨mid, rfl⟩ := apart hsplit mem_controlTokens.1 mem_controlTokens.2.2.1 take_two_ne.1
      rw [List.append_assoc, List.append_cancel_left_eq] at hsplit
      have hopen : find summaryOpen (summaryOpen ++ (s ++ summaryClose)) = some (utf8Len []) :=
        find_self headOnce_summaryOpen _
      have hnotLeading : (trim mid).isEmpty = false := by
        by_contra hempty
        rw [Bool.not_eq_false, List.isEmpty_iff, trim_eq_nil_iff] at hempty
        obtain ⟨c, t, hstart, hdigit⟩ := trimStart_append_of_begins h summaryClose
        obtain ⟨tail, htail⟩ :=
          List.head?_eq_some_iff.1 (head_controlTokens _ mem_controlTokens.2.2.1).1
        rw [hsplit, trimStart, List.dropWhile_append_of_pos hempty, htail, List.cons_append,
          List.dropWhile_cons_of_neg (by decide)] at hstart
        exact (digit_plain hdigit).1 (List.cons.inj hstart).1.symm
      have hleading : isLeading (summaryOpen ++ (s ++ summaryClose))
          (utf8Len ([] ++ (summaryOpen ++ mid))) = some (trim mid).isEmpty :=
        isLeading_behind hopen (by rw [hsplit]; rfl)
      rw [List.nil_append, hnotLeading] at hleading
      rw [draftPass, hanalysis]
      dsimp only
      rw [hleading]
      rfl
  rw [dropDrafts, hpass]

theorem formatCompactSummary_of_dropDrafts {raw : Str} (h : BeginsWithDigit s)
    (hdrop : dropDrafts raw = some (summaryOpen ++ (s ++ summaryClose))) :
    formatCompactSummary raw = some (summaryText s) := by
  rw [formatCompactSummary, hdrop]
  simp only [Option.bind_eq_bind, Option.bind_some, extractSummary_digit h]
  rw [neutralize_eq, collapseBlankLines_eq, cleaned_body h]

/-- A tag that is not in `d` is not in front of what follows `d` behind the tag of the draft. -/
theorem not_infix_draft {token : Str} (htoken : token ∈ controlTokens)
    (hdiffer : token.take 2 ≠ analysisOpen.take 2) (hd : ¬token <:+: d) :
    ¬token <:+: analysisOpen ++ d := by
  intro hin
  obtain hprefix | hlater := infix_behind (headOnce_controlTokens token htoken).ne_nil
    headOnce_analysisOpen (head_eq mem_controlTokens.2.2.1 htoken) hin
  · exact hdiffer ( take_two_of_prefix htoken mem_controlTokens.2.2.1 hprefix)
  · exact hd hlater

/-- What the first pass makes of a text that begins with a draft in front of a summary. -/
theorem draftPass_leading {token tail back : Str} (htoken : token ∈ controlTokens)
    (hopen : find summaryOpen (analysisOpen ++ tail) = some (utf8Len (token ++ back)))  :
    draftPass (analysisOpen ++ tail) = dropDraft (analysisOpen ++ tail) 0 := by
  have hpos : 0 < utf8Len (token ++ back) :=
    utf8Len_pos (List.append_ne_nil_of_left_ne_nil (headOnce_controlTokens token htoken).ne_nil _)
  have hleading : isLeading (analysisOpen ++ tail) 0 = some true := by
    rw [isLeading, hopen]
    exact if_pos hpos
  rw [draftPass, find_self headOnce_analysisOpen]
  dsimp only
  rw [hleading]
  rfl

theorem dropDrafts_closed (hd : ∀ token ∈ controlTokens, ¬token <:+: d) (h : BeginsWithDigit s) :
    dropDrafts (closedDraft d s) = some (summaryOpen ++ (s ++ summaryClose)) := by
  obtain ⟨hmemOpen, -, hmemAnalysis, hmemClose⟩ := mem_controlTokens
  have hfrontOpen : ¬summaryOpen <:+: analysisOpen ++ (d ++ analysisClose) := by
    refine not_infix_draft hmemOpen take_two_ne.1 fun hin => ?_
    obtain hdraft | htag := headOnce_summaryOpen.infix_append (head_eq hmemClose hmemOpen) hin
    · exact hd _ hmemOpen hdraft
    · exact not_infix_closers.1 htag
  have hopen : find summaryOpen (closedDraft d s) =
      some (utf8Len (analysisOpen ++ (d ++ analysisClose))) := by
    have hfind := find_append headOnce_summaryOpen hfrontOpen (s ++ summaryClose)
    simpa only [closedDraft, List.append_assoc] using hfind
  have hclose : find analysisClose (closedDraft d s) = some (utf8Len (analysisOpen ++ d)) := by
    have hfind := find_append headOnce_analysisClose
      (not_infix_draft hmemClose take_two_ne.2.2.1.symm (hd _ hmemClose))
      (summaryOpen ++ (s ++ summaryClose))
    simpa only [closedDraft, List.append_assoc] using hfind
  have hrest : textFrom (closedDraft d s) (0 + utf8Len (analysisOpen ++ d) +
      utf8Len analysisClose) = some (summaryOpen ++ (s ++ summaryClose)) := by
    have hfrom := textFrom_append (analysisOpen ++ d ++ analysisClose)
      (summaryOpen ++ (s ++ summaryClose))
    rw [utf8Len_append _ analysisClose] at hfrom
    simpa only [closedDraft, List.append_assoc, Nat.zero_add] using hfrom
  have hto : textTo (closedDraft d s) 0 = some [] := textTo_append [] _
  have hpass : draftPass (closedDraft d s) =
      some (.again (summaryOpen ++ (s ++ summaryClose))) := by
    rw [closedDraft, draftPass_leading hmemAnalysis hopen, ← closedDraft, dropDraft, hto,
      textFrom_zero]
    simp only [Option.bind_eq_bind, Option.bind_some, hclose, hrest, List.nil_append]
  rw [dropDrafts, hpass]
  exact dropDrafts_summary h

theorem find_summaryOpen_openDraft (hd : ∀ token ∈ controlTokens, ¬token <:+: d) :
    find summaryOpen (openDraft d s) = some (utf8Len (analysisOpen ++ d)) := by
  obtain ⟨hmemOpen, -⟩ := mem_controlTokens
  have hfind := find_append headOnce_summaryOpen
    (not_infix_draft hmemOpen take_two_ne.1 (hd _ hmemOpen)) (s ++ summaryClose)
  simpa only [openDraft, List.append_assoc] using hfind

/-- The closing tag of a draft that is in front of a summary is one of the draft or of the body. -/
theorem not_infix_openDraft (hd : ∀ token ∈ controlTokens, ¬token <:+: d)
    (hs : ¬analysisClose <:+: s) :
    ¬analysisClose <:+: analysisOpen ++ (d ++ (summaryOpen ++ s)) := by
  obtain ⟨hmemOpen, -, -, hmemClose⟩ := mem_controlTokens
  refine not_infix_draft hmemClose take_two_ne.2.2.1.symm fun hin => ?_
  have hhead : (summaryOpen ++ s).head? = analysisClose.head? := by
    rw [List.head?_append, (head_controlTokens _ hmemOpen).1, (head_controlTokens _ hmemClose).1]
    rfl
  obtain hdraft | hbody := headOnce_analysisClose.infix_append hhead hin
  · exact hd _ hmemClose hdraft
  · obtain hprefix | hlater := infix_behind headOnce_analysisClose.ne_nil headOnce_summaryOpen
      (head_eq hmemOpen hmemClose) hbody
    · exact take_two_ne.2.2.2 ( take_two_of_prefix hmemClose hmemOpen hprefix)
    · exact hs hlater

theorem dropDrafts_open (hd : ∀ token ∈ controlTokens, ¬token <:+: d)
    (hs : ¬analysisClose <:+: s) :
    dropDrafts (openDraft d s) = some (summaryOpen ++ (s ++ summaryClose)) := by
  obtain ⟨hmemOpen, hmemEnd, hmemAnalysis, hmemClose⟩ := mem_controlTokens
  have hopen := find_summaryOpen_openDraft (s := s) hd
  have hclose : find analysisClose (openDraft d s) = none := by
    refine (find_eq_none_iff headOnce_analysisClose.ne_nil).2 fun hin => ?_
    have hsplit : openDraft d s =
        (analysisOpen ++ (d ++ (summaryOpen ++ s))) ++ summaryClose := by
      simp only [openDraft, List.append_assoc]
    rw [hsplit] at hin
    obtain hfront | htag := headOnce_analysisClose.infix_append (head_eq hmemEnd hmemClose) hin
    · exact not_infix_openDraft hd hs hfront
    · exact not_infix_closers.2 htag
  have hrest : textFrom (openDraft d s) (0 + utf8Len (analysisOpen ++ d)) =
      some (summaryOpen ++ (s ++ summaryClose)) := by
    have hfrom := textFrom_append (analysisOpen ++ d) (summaryOpen ++ (s ++ summaryClose))
    simpa only [openDraft, List.append_assoc, Nat.zero_add] using hfrom
  have hto : textTo (openDraft d s) 0 = some [] := textTo_append [] _
  have hpass : draftPass (openDraft d s) = some (.last (summaryOpen ++ (s ++ summaryClose))) := by
    rw [openDraft, draftPass_leading hmemAnalysis hopen, ← openDraft, dropDraft, hto, textFrom_zero]
    simp only [Option.bind_eq_bind, Option.bind_some, hclose, hopen, hrest, Option.map_some,
      Option.getD_some, List.nil_append]
  rw [dropDrafts, hpass]

/-- Where the body quotes the closing tag, the text up to it goes with the draft. -/
theorem dropDrafts_open_quoted (hd : ∀ token ∈ controlTokens, ¬token <:+: d)
    (hs : analysisClose <:+: s) : ∃ front back, s = front ++ (analysisClose ++ back) ∧
      dropDrafts (openDraft d s) = dropDrafts (back ++ summaryClose) := by
  obtain ⟨hmemOpen, hmemEnd, hmemAnalysis, hmemClose⟩ := mem_controlTokens
  obtain ⟨⟨front, back⟩, hsplit⟩ : ∃ parts, splitOnce analysisClose s = some parts := by
    by_contra hnone
    rw [← Option.ne_none_iff_exists', not_not, splitOnce_eq_none_iff
      headOnce_analysisClose.ne_nil] at hnone
    exact hnone hs
  have hfront := not_infix_of_splitOnce headOnce_analysisClose.ne_nil hsplit
  obtain rfl := eq_of_splitOnce hsplit
  refine ⟨front, back, rfl, ?_⟩
  have hopen := find_summaryOpen_openDraft (s := front ++ (analysisClose ++ back)) hd
  have hclose : find analysisClose (openDraft d (front ++ (analysisClose ++ back))) =
      some (utf8Len (analysisOpen ++ (d ++ (summaryOpen ++ front)))) := by
    have hfind := find_append headOnce_analysisClose
      (not_infix_openDraft hd hfront) (back ++ summaryClose)
    simpa only [openDraft, List.append_assoc] using hfind
  have hrest : textFrom (openDraft d (front ++ (analysisClose ++ back)))
      (0 + utf8Len (analysisOpen ++ (d ++ (summaryOpen ++ front))) + utf8Len analysisClose) =
        some (back ++ summaryClose) := by
    have hfrom := textFrom_append (analysisOpen ++ (d ++ (summaryOpen ++ front)) ++ analysisClose)
      (back ++ summaryClose)
    rw [utf8Len_append _ analysisClose] at hfrom
    simpa only [openDraft, List.append_assoc, Nat.zero_add] using hfrom
  have hto : textTo (openDraft d (front ++ (analysisClose ++ back))) 0 = some [] :=
    textTo_append [] _
  have hpass : draftPass (openDraft d (front ++ (analysisClose ++ back))) =
      some (.again (back ++ summaryClose)) := by
    rw [openDraft, draftPass_leading hmemAnalysis hopen, ← openDraft, dropDraft, hto, textFrom_zero]
    simp only [Option.bind_eq_bind, Option.bind_some, hclose, hrest, List.nil_append]
  rw [dropDrafts, hpass]

theorem ink_summaryText (s : Str) : ink (summaryText s) = 8 + ink s := by
  have hbody : ink (collapsed (defused (trim s))) = ink s := by
    rw [collapsed, ink_keepTwo, ink_defused, ink_trim]
  exact (ink_append _ _).trans (congrArg₂ (· + ·) ink_spelled.1 hbody)

/-- Cleaning ends without slicing off a boundary, leaves no control token, and changes a cleaned
text no more. A body that begins with a digit is kept behind a closed draft, and behind an open one
exactly when it does not quote the closing tag of a draft. -/
theorem cleaning_keeps_body_iff (raw d s : Str) (hd : ∀ token ∈ controlTokens, ¬token <:+: d)
    (hs : BeginsWithDigit s) :
    (∃ out, formatCompactSummary raw = some out ∧ (∀ token ∈ controlTokens, ¬token <:+: out) ∧
      formatCompactSummary out = some out) ∧
    formatCompactSummary (closedDraft d s) = some (summaryText s) ∧
    (formatCompactSummary (openDraft d s) = some (summaryText s) ↔ ¬analysisClose <:+: s) := by
  refine ⟨formatCompactSummary_stable raw,
    formatCompactSummary_of_dropDrafts hs (dropDrafts_closed hd hs), fun hkept hquoted => ?_,
    fun hnot => formatCompactSummary_of_dropDrafts hs (dropDrafts_open hd hnot)⟩
  obtain ⟨front, back, rfl, hdrop⟩ := dropDrafts_open_quoted hd hquoted
  obtain ⟨rest, hrest, hle⟩ := dropDrafts_ink (back ++ summaryClose)
  obtain ⟨result, hresult, hle'⟩ := extractSummary_ink rest
  have hformat : formatCompactSummary (openDraft d (front ++ (analysisClose ++ back))) =
      some (trim (collapsed (defused result))) := by
    rw [formatCompactSummary, hdrop, hrest, ← neutralize_eq, ← collapseBlankLines_eq]
    simp only [Option.bind_eq_bind, Option.bind_some, hresult]
  rw [hformat, Option.some.injEq] at hkept
  -- the kept body would have more ink than what is left of the text
  have hink := congrArg ink hkept
  obtain ⟨-, -, hclose⟩ := ink_spelled
  rw [ink_cleaned, ink_summaryText] at hink
  rw [ink_append, hclose.1] at hle
  rw [ink_append, ink_append, hclose.2] at hink
  omega

theorem cleaning_keeps_body_one :
    formatCompactSummary (openDraft [] "1".toList) = some (summaryText "1".toList) := by
  have hbody : trim "1".toList = ['1'] ∧ ¬analysisClose <:+: "1".toList := by decide +kernel
  obtain ⟨hdigit, hquoted⟩ := hbody
  have hdraft : ∀ token ∈ controlTokens, ¬token <:+: ([] : Str) := fun token htoken hin =>
    (headOnce_controlTokens token htoken).ne_nil (List.infix_nil.1 hin)
  exact (cleaning_keeps_body_iff [] [] "1".toList hdraft ⟨'1', [], hdigit, by decide⟩).2.2.2 hquoted

/-- The body quotes the closing tag of the draft, and all of it up to there is dropped. -/
theorem quoted_close_drops_body :
    formatCompactSummary (openDraft [] "1</analysis>2".toList) =
        some "2<\u200b/summary>".toList ∧
      summaryText "1</analysis>2".toList = "Summary:\n1<\u200b/analysis>2".toList ∧
      formatCompactSummary (openDraft [] "1</analysis>2".toList) ≠
        some (summaryText "1</analysis>2".toList) := by
  decide +kernel

end Drafts

end GrokBuild.Compaction
