import GrokBuild.Compaction.SummaryText

/-!
# What a cleaned summary keeps

Defusing marks the places of the control tokens, collapsing cuts runs of newlines down to two, and
neither takes anything else away. Only the loop over the drafts deletes text, and it deletes the
body of a summary behind a draft that is left open when the body quotes the closing tag.
-/

namespace GrokBuild.Compaction

open GrokBuild.Text

/-! ## Defused tokens -/

section Defused

/-- Whether a control token begins here. -/
def atControlToken (s : Str) : Bool := controlTokens.any (startsWith s)

/-- The text with a zero-width space in every control token. -/
def defused (s : Str) : Str := insertAfter atControlToken zeroWidthSpace s

def IsTag (token : Str) : Prop :=
  token.head? = some '<' ∧ '<' ∉ token.tail ∧ zeroWidthSpace ∉ token.tail ∧ token.tail ≠ []

instance (token : Str) : Decidable (IsTag token) := inferInstanceAs (Decidable (_ ∧ _))

theorem isTag_controlTokens : ∀ token ∈ controlTokens, IsTag token := by decide +kernel

theorem IsTag.exists_cons {token : Str} (h : IsTag token) : ∃ rest, token = '<' :: rest ∧
    '<' ∉ rest ∧ zeroWidthSpace ∉ rest ∧ rest ≠ [] := by
  obtain ⟨hhead, honce, hspace, hne⟩ := h
  obtain ⟨rest, rfl⟩ := List.head?_eq_some_iff.1 hhead
  exact ⟨rest, rfl, honce, hspace, hne⟩

/-- The tokens are replaced one after the other, and each pass adds its own places. -/
theorem foldl_replaceAll {tokens : List Str} (htokens : ∀ token ∈ tokens, IsTag token)
    (mark : Str → Bool) (hmark : ∀ a u, mark (a :: u) → a = '<') (s : Str) :
    tokens.foldl (fun s token => replaceAll token (defusedToken token) s)
        (insertAfter mark zeroWidthSpace s) =
      insertAfter (fun u => mark u || tokens.any (startsWith u)) zeroWidthSpace s := by
  induction tokens generalizing mark with
  | nil =>
    have hsame : (fun u => mark u || ([] : List Str).any (startsWith u)) = mark := by
      funext u
      rw [List.any_nil, Bool.or_false]
    rw [hsame]
    rfl
  | cons token tokens ih =>
    obtain ⟨htoken, hlater⟩ := List.forall_mem_cons.1 htokens
    obtain ⟨rest, rfl, honce, hspace, hne⟩ := htoken.exists_cons
    have hmark' : ∀ a u, (mark (a :: u) || startsWith (a :: u) ('<' :: rest)) = true → a = '<' := by
      intro a u h
      obtain hold | hnew := Bool.or_eq_true_iff.1 h
      · exact hmark a u hold
      · exact startsWith_head rfl a u hnew
    have hassoc : (fun u => mark u || (('<' :: rest) :: tokens).any (startsWith u)) =
        fun u => (mark u || startsWith u ('<' :: rest)) || tokens.any (startsWith u) := by
      funext u
      rw [List.any_cons, Bool.or_assoc]
    rw [List.foldl_cons, defusedToken, replaceAll_insert '<' zeroWidthSpace honce,
      insertAfter_insertAfter hmark honce hspace hne (by decide), hassoc]
    exact ih hlater _ hmark'

theorem neutralize_eq (s : Str) : neutralizeCompactionControlTokens s = defused s := by
  have hstart : insertAfter (fun _ => false) zeroWidthSpace s = s :=
    insertAfter_eq_self fun _ _ => rfl
  have hall := foldl_replaceAll isTag_controlTokens (fun _ => false)
    (fun _ _ h => by cases h) s
  rw [hstart] at hall
  rw [neutralizeCompactionControlTokens, hall, defused]
  congr 1

theorem atControlToken_head (a : Char) (u : Str) (h : atControlToken (a :: u) = true) :
    a = '<' := by
  obtain ⟨token, htoken, hstart⟩ := List.any_eq_true.1 h
  obtain ⟨rest, rfl, -⟩ := (isTag_controlTokens token htoken).exists_cons
  exact startsWith_head rfl a u hstart

theorem not_infix_defused {token : Str} (htoken : token ∈ controlTokens) (s : Str) :
    ¬token <:+: defused s := by
  obtain ⟨rest, rfl, honce, hspace, hne⟩ := (isTag_controlTokens token htoken).exists_cons
  exact not_infix_insertAfter atControlToken_head honce hspace hne (by decide)
    (fun u hu => List.any_eq_true.2 ⟨_, htoken, hu⟩) s

theorem defused_eq_self {s : Str} (h : ∀ token ∈ controlTokens, ¬token <:+: s) : defused s = s := by
  refine insertAfter_eq_self fun u hu => ?_
  rw [atControlToken, List.any_eq_false]
  intro token htoken hstart
  exact h token htoken ((startsWith_iff.1 hstart).isInfix.trans hu.isInfix)

end Defused

/-! ## Collapsed blank lines -/

section Collapsed

/-- Drops each newline behind two others; `k` newlines stand in front of the text. -/
def keepTwo : ℕ → Str → Str
  | _, [] => []
  | k, c :: s =>
    if c = '\n' then if k < 2 then c :: keepTwo (k + 1) s else keepTwo k s else c :: keepTwo 0 s

/-- The text with its runs of newlines cut down to two. -/
def collapsed (s : Str) : Str := keepTwo 0 s

variable {k : ℕ} {s : Str} {c : Char}

theorem keepTwo_newline_lt (hk : k < 2) : keepTwo k ('\n' :: s) = '\n' :: keepTwo (k + 1) s := by
  rw [keepTwo, if_pos rfl, if_pos hk]

theorem keepTwo_newline_two : keepTwo 2 ('\n' :: s) = keepTwo 2 s := by
  rw [keepTwo, if_pos rfl, if_neg (by decide)]

theorem keepTwo_other (hc : c ≠ '\n') : keepTwo k (c :: s) = c :: keepTwo 0 s := by
  rw [keepTwo, if_neg hc]

/-- After two newlines it makes no difference whether there was a third. -/
theorem keepTwo_two_newlines (hk : k ≤ 2) :
    keepTwo k ('\n' :: '\n' :: s) = List.replicate (2 - k) '\n' ++ keepTwo 2 s := by
  obtain rfl | rfl | rfl : k = 0 ∨ k = 1 ∨ k = 2 := by omega
  · rw [keepTwo_newline_lt (by decide), keepTwo_newline_lt (by decide)]
    rfl
  · rw [keepTwo_newline_lt (by decide), keepTwo_newline_two]
    rfl
  · rw [keepTwo_newline_two, keepTwo_newline_two]
    rfl

theorem keepTwo_replaceAll (hk : k ≤ 2) (s : Str) :
    keepTwo k (replaceAll threeNewlines ['\n', '\n'] s) = keepTwo k s := by
  refine replaceAll_induct (P := fun s out => ∀ k ≤ 2, keepTwo k out = keepTwo k s) (by decide)
    (fun _ _ => rfl) ?_ ?_ s k hk
  · intro s out ih k hk
    have hthree : keepTwo k (threeNewlines ++ s) = keepTwo k ('\n' :: '\n' :: s) := by
      rw [keepTwo_two_newlines hk]
      show keepTwo k ('\n' :: '\n' :: '\n' :: s) = _
      rw [keepTwo_two_newlines hk, keepTwo_newline_two]
    rw [hthree, keepTwo_two_newlines hk, ← ih 2 (Nat.le_refl 2)]
    exact keepTwo_two_newlines hk
  · intro c s out _ ih k hk
    by_cases hc : c = '\n'
    · rw [hc]
      by_cases hlt : k < 2
      · rw [keepTwo_newline_lt hlt, keepTwo_newline_lt hlt, ih (k + 1) hlt]
      · obtain rfl : k = 2 := by omega
        rw [keepTwo_newline_two, keepTwo_newline_two, ih 2 (Nat.le_refl 2)]
    · rw [keepTwo_other hc, keepTwo_other hc, ih 0 (Nat.zero_le 2)]

theorem keepTwo_eq_self (hk : k ≤ 2) (h : ¬threeNewlines <:+: List.replicate k '\n' ++ s) :
    keepTwo k s = s := by
  induction s generalizing k with
  | nil => rfl
  | cons c s ih =>
    by_cases hc : c = '\n'
    · rw [hc] at h ⊢
      have hmove : List.replicate k '\n' ++ '\n' :: s = List.replicate (k + 1) '\n' ++ s := by
        rw [List.replicate_succ', List.append_assoc]
        rfl
      rw [hmove] at h
      by_cases hlt : k < 2
      · rw [keepTwo_newline_lt hlt, ih hlt h]
      · obtain rfl : k = 2 := by omega
        exact absurd (List.prefix_append threeNewlines s).isInfix h
    · rw [keepTwo_other hc, ih (Nat.zero_le 2) fun hin => h ?_]
      exact hin.trans ((List.suffix_cons c s).trans (List.suffix_append _ _)).isInfix

theorem not_infix_of_find_none (h : ¬(find threeNewlines s).isSome = true) :
    ¬threeNewlines <:+: s := by
  rw [Bool.not_eq_true, Option.isSome_eq_false_iff, Option.isNone_iff_eq_none,
    find_eq_none_iff (by decide)] at h
  exact h

theorem collapseBlankLines_eq (s : Str) : collapseBlankLines s = collapsed s := by
  induction s using collapseBlankLines.induct with
  | case1 s hin ih =>
    rw [collapseBlankLines, if_pos hin, ih, collapsed, keepTwo_replaceAll (Nat.zero_le 2),
      collapsed]
  | case2 s hin =>
    rw [collapseBlankLines, if_neg hin, collapsed,
      keepTwo_eq_self (Nat.zero_le 2) (not_infix_of_find_none hin)]

theorem not_infix_collapsed (s : Str) : ¬threeNewlines <:+: collapsed s := by
  rw [← collapseBlankLines_eq]
  induction s using collapseBlankLines.induct with
  | case1 s hin ih => rwa [collapseBlankLines, if_pos hin]
  | case2 s hin =>
    rw [collapseBlankLines, if_neg hin]
    exact not_infix_of_find_none hin

theorem prefix_of_keepTwo {token : Str} (htoken : '\n' ∉ token) (h : token <+: keepTwo 0 s) :
    token <+: s := by
  induction token generalizing s with
  | nil => exact List.nil_prefix
  | cons e token ih =>
    rw [List.mem_cons, not_or] at htoken
    cases s with
    | nil => exact h
    | cons c s =>
      by_cases hc : c = '\n'
      · rw [hc, keepTwo_newline_lt (by decide), List.cons_prefix_cons] at h
        exact absurd h.1.symm htoken.1
      · rw [keepTwo_other hc, List.cons_prefix_cons] at h
        rw [List.cons_prefix_cons]
        exact ⟨h.1, ih htoken.2 h.2⟩

/-- Dropping newlines makes no token that was not there. -/
theorem infix_of_keepTwo {token : Str} (htoken : '\n' ∉ token) (hne : token ≠ [])
    (h : token <:+: keepTwo k s) : token <:+: s := by
  have hnewline : ∀ x : Str, ¬token <+: '\n' :: x := by
    obtain ⟨e, rest, rfl⟩ := List.exists_cons_of_ne_nil hne
    intro x hprefix
    exact htoken ((List.cons_prefix_cons.1 hprefix).1 ▸ List.mem_cons_self)
  induction s generalizing k with
  | nil => exact h
  | cons c s ih =>
    by_cases hc : c = '\n'
    · rw [hc, keepTwo, if_pos rfl] at h
      split_ifs at h with hlt
      · obtain hprefix | hlater := List.infix_cons_iff.1 h
        · exact absurd hprefix (hnewline _)
        · exact List.infix_cons (ih hlater)
      · exact List.infix_cons (ih h)
    · rw [keepTwo_other hc, List.infix_cons_iff] at h
      obtain hprefix | hlater := h
      · rw [← keepTwo_other (k := 0) hc] at hprefix
        exact (prefix_of_keepTwo htoken hprefix).isInfix
      · exact List.infix_cons (ih hlater)

theorem getLast?_keepTwo (hc : c ≠ '\n') (h : s.getLast? = some c) :
    (keepTwo k s).getLast? = some c := by
  induction s generalizing k with
  | nil => cases h
  | cons d s ih =>
    rw [List.getLast?_cons] at h
    cases hlast : s.getLast? with
    | none =>
      obtain rfl := List.getLast?_eq_none_iff.1 hlast
      obtain rfl : d = c := Option.some.inj h
      rw [keepTwo_other hc]
      rfl
    | some e =>
      rw [hlast] at h
      obtain rfl : e = c := Option.some.inj h
      rw [keepTwo]
      split_ifs
      · rw [List.getLast?_cons, ih hlast]
        rfl
      · exact ih hlast
      · rw [List.getLast?_cons, ih hlast]
        rfl

end Collapsed

/-! ## What is deleted -/

section Ink

/-- A character that is neither blank nor put in to defuse a token. -/
def isInk (c : Char) : Bool := !isWhitespace c && c != zeroWidthSpace

def ink (s : Str) : ℕ := s.countP isInk

variable {s t : Str}

theorem ink_append (s t : Str) : ink (s ++ t) = ink s + ink t := List.countP_append

theorem ink_le_of_infix (h : s <:+: t) : ink s ≤ ink t := h.sublist.countP_le

theorem ink_of_blank (h : ∀ c ∈ s, isWhitespace c = true) : ink s = 0 := by
  refine List.countP_eq_zero.2 fun c hc => ?_
  rw [isInk, h c hc]
  exact Bool.false_ne_true

theorem ink_trim (s : Str) : ink (trim s) = ink s := by
  have hstart : ink (trimStart s) = ink s := by
    have hblank : ink (s.takeWhile isWhitespace) = 0 :=
      ink_of_blank fun c hc => List.mem_takeWhile_imp hc
    calc ink (trimStart s) = ink (s.takeWhile isWhitespace) + ink (trimStart s) := by
          rw [hblank, Nat.zero_add]
      _ = ink s := by rw [← ink_append, trimStart, List.takeWhile_append_dropWhile]
  have hblank : ink ((trimStart s).rtakeWhile isWhitespace) = 0 :=
    ink_of_blank fun c hc => List.mem_rtakeWhile_imp hc
  calc ink (trim s) = ink (trim s) + ink ((trimStart s).rtakeWhile isWhitespace) := by
        rw [hblank, Nat.add_zero]
    _ = ink (trimStart s) := by
        rw [← ink_append, trim, trimEndMatches, List.rdropWhile_append_rtakeWhile]
    _ = ink s := hstart

theorem ink_cons_eq (c : Char) (h : ink s = ink t) : ink (c :: s) = ink (c :: t) := by
  rw [ink, ink] at h
  rw [ink, ink, List.countP_cons, List.countP_cons, h]

theorem ink_cons_of_not {c : Char} (hc : isInk c = false) (s : Str) : ink (c :: s) = ink s :=
  List.countP_cons_of_neg (ne_true_of_eq_false hc)

theorem ink_defused (s : Str) : ink (defused s) = ink s := by
  rw [defused]
  induction s with
  | nil => rfl
  | cons c s ih =>
    rw [insertAfter]
    split_ifs
    · refine ink_cons_eq c ?_
      rw [ink_cons_of_not (by decide), ih]
    · exact ink_cons_eq c ih

theorem ink_keepTwo (k : ℕ) (s : Str) : ink (keepTwo k s) = ink s := by
  induction s generalizing k with
  | nil => rfl
  | cons c s ih =>
    rw [keepTwo]
    split_ifs with hc hk
    · exact ink_cons_eq c (ih (k + 1))
    · rw [hc, ink_cons_of_not (by decide)]
      exact ih k
    · exact ink_cons_eq c (ih 0)

theorem ink_spelled : ink "Summary:\n".toList = 8 ∧ ink summaryOpen = 9 ∧ ink summaryClose = 10 ∧
    ink analysisClose = 11 := by decide +kernel

theorem dropDrafts_ink (result : Str) : ∃ rest, dropDrafts result = some rest ∧
    ink rest ≤ ink result := by
  induction result using dropDrafts.induct with
  | case1 result hpass =>
    obtain hstop | ⟨_, _, _, _, hagain | hlast⟩ := draftPass_cases result
    · rw [hstop] at hpass
      cases hpass
    · rw [hagain] at hpass
      cases hpass
    · rw [hlast] at hpass
      cases hpass
  | case2 result hpass =>
    refine ⟨result, ?_, Nat.le_refl _⟩
    rw [dropDrafts, hpass]
  | case3 result rest hpass ih =>
    obtain ⟨out, hout, hle⟩ := ih
    refine ⟨out, ?_, hle.trans ?_⟩
    · rw [dropDrafts, hpass]
      exact hout
    · obtain hstop | ⟨front, mid, rest', rfl, hagain | hlast⟩ := draftPass_cases result
      · rw [hstop] at hpass
        cases hpass
      · rw [hagain] at hpass
        cases hpass
        simp only [ink_append]
        omega
      · rw [hlast] at hpass
        cases hpass
  | case4 result rest hpass =>
    refine ⟨rest, ?_, ?_⟩
    · rw [dropDrafts, hpass]
    · obtain hstop | ⟨front, mid, rest', rfl, hagain | hlast⟩ := draftPass_cases result
      · rw [hstop] at hpass
        cases hpass
      · rw [hagain] at hpass
        cases hpass
      · rw [hlast] at hpass
        cases hpass
        simp only [ink_append]
        omega

/-- What is taken out of a block is a piece of it. -/
theorem stripLeadingScratchpad_infix (inner : Str) :
    ∃ out, stripLeadingScratchpad inner = some out ∧ out <:+: inner := by
  have hunwrap : ∀ s, s <:+: inner →
      ((stripPrefix s summaryOpen).map trimStart).getD s <:+: inner := by
    intro s hs
    rw [stripPrefix]
    split_ifs
    · exact ((List.dropWhile_suffix _).trans (List.drop_suffix _ _)).isInfix.trans hs
    · exact hs
  rw [stripLeadingScratchpad]
  dsimp only
  split
  · next pos heq =>
    obtain ⟨front, back, hsplit, rfl⟩ := exists_of_rfind (Prod.mk.inj heq).2
    have hback : back <:+: trim inner := by
      rw [hsplit, ← List.append_assoc]
      exact (List.suffix_append _ _).isInfix
    have hfrom : textFrom (trim inner) (utf8Len front + utf8Len analysisClose) = some back := by
      rw [← utf8Len_append, hsplit, ← List.append_assoc, textFrom_append]
    rw [hfrom]
    have hinner := hback.trans ( trim_infix inner)
    exact ⟨_, rfl, hunwrap _ ((List.dropWhile_suffix _).isInfix.trans hinner)⟩
  · exact ⟨_, rfl, hunwrap _ ( trim_infix inner)⟩

/-- Taking the summary out of its tags never slices off a boundary. -/
theorem extractSummary_ink (result : Str) : ∃ out, extractSummary result = some out ∧
    ink out ≤ ink result := by
  rw [extractSummary]
  split
  · next start stop hopen hclose =>
    split_ifs with hlt
    · obtain ⟨before, behind, hresult, rfl, -⟩ := exists_of_find hopen
      obtain ⟨upTo, after, hresult', rfl⟩ := exists_of_rfind hclose
      have hsplit : ∃ mid, upTo = before ++ mid ∧
          summaryOpen ++ behind = mid ++ (summaryClose ++ after) := by
        rw [hresult] at hresult'
        obtain ⟨mid, rfl, hmid⟩ | ⟨mid, rfl, hmid⟩ := List.append_eq_append_iff.1 hresult'
        · exact ⟨mid, rfl, hmid⟩
        · rw [utf8Len_append] at hlt
          omega
      obtain ⟨mid, rfl, hmid⟩ := hsplit
      obtain ⟨block, rfl⟩ := apart hmid mem_controlTokens.1 mem_controlTokens.2.1 take_two_ne.2.1
      obtain ⟨inner, hinner, hinfix⟩ := stripLeadingScratchpad_infix (trim block)
      have hbefore : textTo result (utf8Len before) = some before := by rw [hresult, textTo_append]
      have hafter : textFrom result (utf8Len (before ++ (summaryOpen ++ block)) +
          utf8Len summaryClose) = some after := by
        rw [← utf8Len_append, hresult', ← List.append_assoc, textFrom_append]
      have hblock : sliceBytes result (utf8Len before + utf8Len summaryOpen)
          (utf8Len (before ++ (summaryOpen ++ block))) = some block := by
        have hwhole : result = before ++ summaryOpen ++ block ++ (summaryClose ++ after) := by
          rw [hresult']
          simp only [List.append_assoc]
        rw [hwhole, ← utf8Len_append, ← List.append_assoc before, sliceBytes_split]
      refine ⟨before ++ ("Summary:\n".toList ++ (inner ++ after)), ?_, ?_⟩
      · simp only [hbefore, hafter, hblock, hinner, Option.bind_eq_bind, Option.bind_some]
      · have hle := ( ink_le_of_infix hinfix).trans ( ink_le_of_infix ( trim_infix block))
        rw [hresult']
        simp only [ink_append, ink_spelled.1, ink_spelled.2.1]
        omega
    · exact ⟨result, rfl, Nat.le_refl _⟩
  · exact ⟨result, rfl, Nat.le_refl _⟩

/-- Cleaning always returns, and all it deletes it deletes before the tokens are defused. -/
theorem formatCompactSummary_eq (summary : Str) : ∃ result, ink result ≤ ink summary ∧
    (dropDrafts summary).bind extractSummary = some result ∧
    formatCompactSummary summary = some (trim (collapsed (defused result))) := by
  obtain ⟨rest, hrest, hle⟩ := dropDrafts_ink summary
  obtain ⟨out, hout, hle'⟩ := extractSummary_ink rest
  refine ⟨out, hle'.trans hle, ?_, ?_⟩
  · rw [hrest, Option.bind_some, hout]
  · rw [formatCompactSummary, hrest, ← neutralize_eq, ← collapseBlankLines_eq]
    simp only [Option.bind_eq_bind, Option.bind_some, hout]

theorem ink_cleaned (result : Str) : ink (trim (collapsed (defused result))) = ink result := by
  rw [ink_trim, collapsed, ink_keepTwo, ink_defused]

end Ink

end GrokBuild.Compaction
