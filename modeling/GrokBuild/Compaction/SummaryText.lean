import GrokBuild.Text.Search

/-!
# Cleaning a compaction summary

The raw output of the compaction model becomes the text that replaces the conversation. Drafts in
front of the summary are dropped, the summary is taken out of its tags, and the control tokens that
are left are defused.
-/

namespace GrokBuild.Compaction

open GrokBuild.Text

/-! ## The cleaning -/

def summaryOpen : Str := "<summary>".toList

def summaryClose : Str := "</summary>".toList

def analysisOpen : Str := "<analysis>".toList

def analysisClose : Str := "</analysis>".toList

def summaryRequestOpen : Str := "<summary_request>".toList

def summaryRequestClose : Str := "</summary_request>".toList

/-- In the order in which they are replaced. -/
def controlTokens : List Str :=
  [summaryClose, summaryOpen, analysisClose, analysisOpen, summaryRequestClose, summaryRequestOpen]

def zeroWidthSpace : Char := '\u200b'

/-- What one pass of the loop over the drafts makes of the text. -/
inductive Pass where
  | stop
  | again (rest : Str)
  | last (rest : Str)

/-- Whether the draft at `start` comes before the first summary or right behind its tag. -/
@[grind] def isLeading (result : Str) (start : ℕ) : Option Bool :=
  match find summaryOpen result with
  | some sp =>
    if start < sp then some true
    else (sliceBytes result (sp + utf8Len summaryOpen) start).map fun s => (trim s).isEmpty
  | none => (textTo result start).map fun s => (trim s).isEmpty

/-- Deletes the draft at `start`; one that is not closed ends at the next summary or at the end. -/
@[grind] def dropDraft (result : Str) (start : ℕ) : Option Pass := do
  let front ← textTo result start
  let behind ← textFrom result start
  match find analysisClose behind with
  | some rel =>
    let rest ← textFrom result (start + rel + utf8Len analysisClose)
    some (.again (front ++ rest))
  | none =>
    let dropTo := ((find summaryOpen behind).map (start + ·)).getD (utf8Len result)
    let rest ← textFrom result dropTo
    some (.last (front ++ rest))

@[grind] def draftPass (result : Str) : Option Pass :=
  match find analysisOpen result with
  | some start =>
    (isLeading result start).bind fun leading =>
      if leading then dropDraft result start else some .stop
  | none => some .stop

/-- The characters that stand for a heading, a list or an emphasis. -/
def isDecoration (c : Char) : Bool :=
  c == '#' || c == '*' || c == '-' || c == '>' || c == ' ' || c == '\t'

@[grind] def stripLeadingScratchpad (inner : Str) : Option Str := do
  let s := trim inner
  let s ← match ((s.dropWhile isDecoration).head?.any Char.isDigit, rfind analysisClose s) with
    | (false, some pos) => (textFrom s (pos + utf8Len analysisClose)).map trimStart
    | _ => some s
  some (((stripPrefix s summaryOpen).map trimStart).getD s)

/-- Takes the summary out of its outer tags. -/
@[grind] def extractSummary (result : Str) : Option Str :=
  match find summaryOpen result, rfind summaryClose result with
  | some start, some stop =>
    if stop > start then do
      let before ← textTo result start
      let after ← textFrom result (stop + utf8Len summaryClose)
      let block ← sliceBytes result (start + utf8Len summaryOpen) stop
      let inner ← stripLeadingScratchpad (trim block)
      some (before ++ ("Summary:\n".toList ++ (inner ++ after)))
    else some result
  | _, _ => some result

/-- The token with a zero-width space behind its first character. -/
def defusedToken : Str → Str
  | [] => []
  | c :: rest => c :: zeroWidthSpace :: rest

def neutralizeCompactionControlTokens (text : Str) : Str :=
  controlTokens.foldl (fun s token => replaceAll token (defusedToken token) s) text

example : defusedToken summaryRequestClose = "<\u200b/summary_request>".toList := by decide +kernel

theorem length_replaceAll_lt {needle new : Str} (hlt : new.length < needle.length) {s : Str}
    (hin : needle <:+: s) : (replaceAll needle new s).length < s.length := by
  have hne : needle ≠ [] := List.length_pos_iff.1 (Nat.zero_lt_of_lt hlt)
  have hall : (replaceAll needle new s).length ≤ s.length ∧
      (needle <:+: s → (replaceAll needle new s).length < s.length) := replaceAll_induct
    (P := fun s out => out.length ≤ s.length ∧ (needle <:+: s → out.length < s.length)) hne
    ⟨Nat.le_refl _, fun h => absurd (List.infix_nil.1 h) hne⟩
    (fun s out h => by
      rw [List.length_append, List.length_append]
      exact ⟨by omega, fun _ => by omega⟩)
    (fun c s out hnot h => by
      refine ⟨Nat.succ_le_succ h.1, fun hin => Nat.succ_lt_succ (h.2 ?_)⟩
      obtain hstart | hrest := List.infix_cons_iff.1 hin
      · exact absurd (startsWith_iff.2 hstart) (ne_true_of_eq_false hnot)
      · exact hrest) s
  exact hall.2 hin

def threeNewlines : Str := ['\n', '\n', '\n']

/-- `while result.contains("\n\n\n")`, which ends because each pass shortens the text. -/
def collapseBlankLines (result : Str) : Str :=
  if (find threeNewlines result).isSome then
    collapseBlankLines (replaceAll threeNewlines ['\n', '\n'] result)
  else result
termination_by result.length
decreasing_by
  next h =>
  refine length_replaceAll_lt (by decide) ?_
  by_contra hnot
  rw [(find_eq_none_iff (by decide)).2 hnot] at h
  cases h

/-! ## One pass -/

section Pass

variable {result front back s : Str} {start : ℕ}

theorem spelled_controlTokens : ∀ token ∈ controlTokens,
    HeadOnce token ∧ (token.head? = some '<' ∧ 2 ≤ token.length) ∧ '\n' ∉ token := by
  decide +kernel

theorem headOnce_controlTokens (token : Str) (h : token ∈ controlTokens) : HeadOnce token :=
  (spelled_controlTokens token h).1

theorem head_controlTokens (token : Str) (h : token ∈ controlTokens) :
    token.head? = some '<' ∧ 2 ≤ token.length := (spelled_controlTokens token h).2.1

theorem mem_controlTokens : summaryOpen ∈ controlTokens ∧ summaryClose ∈ controlTokens ∧
    analysisOpen ∈ controlTokens ∧ analysisClose ∈ controlTokens := by simp [controlTokens]

/-- The tokens that are searched for differ in their second character. -/
theorem take_two_ne : summaryOpen.take 2 ≠ analysisOpen.take 2 ∧
    summaryOpen.take 2 ≠ summaryClose.take 2 ∧ analysisOpen.take 2 ≠ analysisClose.take 2 ∧
    analysisClose.take 2 ≠ summaryOpen.take 2 := by decide +kernel

theorem not_infix_closers : ¬summaryOpen <:+: analysisClose ∧ ¬analysisClose <:+: summaryClose := by
  decide +kernel

theorem headOnce_summaryOpen : HeadOnce summaryOpen :=
  headOnce_controlTokens _ mem_controlTokens.1

theorem headOnce_summaryClose : HeadOnce summaryClose :=
  headOnce_controlTokens _ mem_controlTokens.2.1

theorem headOnce_analysisOpen : HeadOnce analysisOpen :=
  headOnce_controlTokens _ mem_controlTokens.2.2.1

theorem headOnce_analysisClose : HeadOnce analysisClose :=
  headOnce_controlTokens _ mem_controlTokens.2.2.2

theorem head_eq {token token' : Str} (h : token ∈ controlTokens) (h' : token' ∈ controlTokens) :
    token.head? = token'.head? :=
  (head_controlTokens token h).1.trans (head_controlTokens token' h').1.symm

/-- Where a token begins another text, both begin with the same two characters. -/
theorem take_two_of_prefix {token token' : Str} (h : token ∈ controlTokens)
    (h' : token' ∈ controlTokens) ( hprefix : token <+: token' ++ back) :
    token.take 2 = token'.take 2 := by
  rw [List.prefix_iff_eq_take.1 hprefix, List.take_take,
    Nat.min_eq_left (head_controlTokens token h).2,
    List.take_append_of_le_length (head_controlTokens token' h').2]

/-- Tokens that differ in their second character do not overlap. -/
theorem apart {token token' mid : Str} (hsplit : token ++ mid = front ++ (token' ++ back))
    (h : token ∈ controlTokens) (h' : token' ∈ controlTokens)
    (hdiffer : token.take 2 ≠ token'.take 2) : ∃ front', front = token ++ front' :=
  tags_apart (headOnce_controlTokens token h) (head_eq h' h)
    (fun hprefix => hdiffer ( take_two_of_prefix h h' hprefix)) hsplit

theorem isLeading_behind {mid : Str} (hopen : find summaryOpen result = some (utf8Len front))
    (hresult : result = front ++ (summaryOpen ++ (mid ++ back))) :
    isLeading result (utf8Len (front ++ (summaryOpen ++ mid))) = some (trim mid).isEmpty := by
  have hle : ¬utf8Len (front ++ (summaryOpen ++ mid)) < utf8Len front := by
    rw [utf8Len_append]
    omega
  rw [isLeading, hopen]
  dsimp only
  rw [if_neg hle, hresult, ← List.append_assoc, ← List.append_assoc, ← List.append_assoc,
    ← utf8Len_append, sliceBytes_split]
  rfl

/-- The test for a leading draft never slices off a boundary. -/
theorem isLeading_isSome (hresult : result = front ++ (analysisOpen ++ back)) :
    (isLeading result (utf8Len front)).isSome = true := by
  cases hopen : find summaryOpen result with
  | none =>
    rw [isLeading, hopen]
    dsimp only
    rw [hresult, textTo_append]
    rfl
  | some sp =>
    obtain ⟨front', back', hresult', rfl, -⟩ := exists_of_find hopen
    by_cases hlt : utf8Len front < utf8Len front'
    · rw [isLeading, hopen]
      dsimp only
      rw [if_pos hlt]
      rfl
    · have hsplit : ∃ mid, front = front' ++ mid ∧
          summaryOpen ++ back' = mid ++ (analysisOpen ++ back) := by
        rw [hresult'] at hresult
        obtain ⟨mid, rfl, hmid⟩ | ⟨mid, rfl, hmid⟩ := List.append_eq_append_iff.1 hresult
        · exact ⟨mid, rfl, hmid⟩
        · have hnil : mid = [] := by
            by_contra hne
            have hpos := utf8Len_pos hne
            rw [utf8Len_append] at hlt
            omega
          rw [hnil, List.nil_append] at hmid
          exact ⟨[], by rw [hnil, List.append_nil, List.append_nil], hmid.symm⟩
      obtain ⟨mid, rfl, hmid⟩ := hsplit
      obtain ⟨mid', rfl⟩ := apart hmid mem_controlTokens.1 mem_controlTokens.2.2.1 take_two_ne.1
      rw [isLeading_behind hopen (by rw [hresult, List.append_assoc, List.append_assoc])]
      rfl

/-- What is deleted begins with the tag of a draft. -/
theorem dropDraft_cases (hresult : result = front ++ (analysisOpen ++ back)) :
    ∃ mid rest, back = mid ++ rest ∧
      (dropDraft result (utf8Len front) = some (.again (front ++ rest)) ∨
        dropDraft result (utf8Len front) = some (.last (front ++ rest))) := by
  have hto : textTo result (utf8Len front) = some front := by rw [hresult, textTo_append]
  have hfrom : textFrom result (utf8Len front) = some (analysisOpen ++ back) := by
    rw [hresult, textFrom_append]
  cases hclose : find analysisClose (analysisOpen ++ back) with
  | some rel =>
    obtain ⟨mid, rest, hsplit, rfl, -⟩ := exists_of_find hclose
    obtain ⟨mid', rfl⟩ := apart hsplit mem_controlTokens.2.2.1 mem_controlTokens.2.2.2 take_two_ne.2.2.1
    have hbehind : result = front ++ (analysisOpen ++ mid') ++ analysisClose ++ rest := by
      rw [hresult, hsplit]
      simp only [List.append_assoc]
    have hrest : textFrom result (utf8Len front + utf8Len (analysisOpen ++ mid') +
        utf8Len analysisClose) = some rest := by
      rw [← utf8Len_append, ← utf8Len_append, hbehind, textFrom_append]
    refine ⟨mid' ++ analysisClose, rest, ?_, Or.inl ?_⟩
    · rw [List.append_assoc] at hsplit
      rw [List.append_assoc]
      exact List.append_cancel_left hsplit
    · simp only [dropDraft, hto, hfrom, hclose, hrest, Option.bind_eq_bind, Option.bind_some]
  | none =>
    cases hopen : find summaryOpen (analysisOpen ++ back) with
    | some rel =>
      obtain ⟨mid, rest, hsplit, rfl, -⟩ := exists_of_find hopen
      obtain ⟨mid', rfl⟩ := apart hsplit mem_controlTokens.2.2.1 mem_controlTokens.1
        take_two_ne.1.symm
      have hrest : textFrom result (utf8Len front + utf8Len (analysisOpen ++ mid')) =
          some (summaryOpen ++ rest) := by
        rw [← utf8Len_append, hresult, hsplit, ← List.append_assoc, textFrom_append]
      refine ⟨mid', summaryOpen ++ rest, ?_, Or.inr ?_⟩
      · rw [List.append_assoc] at hsplit
        exact List.append_cancel_left hsplit
      · simp only [dropDraft, hto, hfrom, hclose, hopen, hrest, Option.bind_eq_bind,
          Option.bind_some, Option.map_some, Option.getD_some]
    | none =>
      have hrest : textFrom result (utf8Len result) = some [] := by
        have hend := textFrom_append result []
        rwa [List.append_nil] at hend
      refine ⟨back, [], (List.append_nil _).symm, Or.inr ?_⟩
      simp only [dropDraft, hto, hfrom, hclose, hopen, hrest, Option.bind_eq_bind,
        Option.bind_some, Option.map_none, Option.getD_none]

/-- A pass stops, or deletes a piece that begins with the tag of a draft. -/
theorem draftPass_cases (result : Str) : draftPass result = some .stop ∨
    ∃ front mid rest, result = front ++ (analysisOpen ++ (mid ++ rest)) ∧
      (draftPass result = some (.again (front ++ rest)) ∨
        draftPass result = some (.last (front ++ rest))) := by
  cases hopen : find analysisOpen result with
  | none => exact Or.inl (by rw [draftPass, hopen])
  | some start =>
    obtain ⟨front, back, hresult, rfl, -⟩ := exists_of_find hopen
    obtain ⟨leading, hleading⟩ := Option.isSome_iff_exists.1 (isLeading_isSome hresult)
    rw [draftPass, hopen]
    dsimp only
    rw [hleading, Option.bind_some]
    cases leading with
    | false => exact Or.inl rfl
    | true =>
      obtain ⟨mid, rest, rfl, hdrop⟩ := dropDraft_cases hresult
      exact Or.inr ⟨front, mid, rest, hresult, hdrop⟩

theorem length_of_again {rest : Str} (h : draftPass result = some (.again rest)) :
    rest.length < result.length := by
  obtain hstop | ⟨front, mid, rest', rfl, hagain | hlast⟩ := draftPass_cases result
  · rw [hstop] at h
    cases h
  · rw [hagain] at h
    cases h
    have hpos := (head_controlTokens _ mem_controlTokens.2.2.1).2
    rw [List.length_append, List.length_append, List.length_append, List.length_append]
    omega
  · rw [hlast] at h
    cases h

end Pass

/-! ## The whole text -/

/-- The loop over the drafts. -/
def dropDrafts (result : Str) : Option Str :=
  match _ : draftPass result with
  | none => none
  | some .stop => some result
  | some (.again rest) => dropDrafts rest
  | some (.last rest) => some rest
termination_by result.length
decreasing_by exact length_of_again ‹_›

def formatCompactSummary (summary : Str) : Option Str := do
  let result ← dropDrafts summary
  let result ← extractSummary result
  some (trim (collapseBlankLines (neutralizeCompactionControlTokens result)))

end GrokBuild.Compaction
