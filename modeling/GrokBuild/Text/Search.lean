import GrokBuild.Text.Tags
import GrokBuild.Text.ByteSlices
import GrokBuild.Lib.TokenCuts

/-!
# Searching and replacing

The first and the last place of a needle in a text, by byte position, and what replacing the needle
everywhere makes of the text.
-/

namespace GrokBuild.Text

open GrokBuild.TokenCuts

/-- `&s[..n]`, or none where that panics. -/
def textTo (s : Str) (n : ℕ) : Option Str := (splitAtByte n s).map Prod.fst

/-- `&s[n..]`. -/
def textFrom (s : Str) (n : ℕ) : Option Str := (splitAtByte n s).map Prod.snd

/-- `s.find(needle)`. -/
@[grind] def find (needle s : Str) : Option ℕ := (splitOnce needle s).map fun parts => utf8Len parts.1

/-- `s.rfind(needle)`, for a needle that is not empty. -/
@[grind] def rfind (needle : Str) : Str → Option ℕ
  | [] => none
  | c :: s =>
    match rfind needle s with
    | some i => some (c.utf8Size + i)
    | none => if startsWith (c :: s) needle then some 0 else none

def replaceCut (needle : Str) (_ : Option Char) (s : Str) : ℕ :=
  if startsWith s needle then needle.length else 0

/-- `s.replace(needle, new)`, for a needle that is not empty. -/
def replaceAll (needle new s : Str) : Str :=
  render (fun _ => new) (pieces (replaceCut needle) none s)

/-- Puts `z` behind the first character of each place that `mark` tells. -/
@[grind] def insertAfter (mark : Str → Bool) (z : Char) : Str → Str
  | [] => []
  | c :: s => if mark (c :: s) then c :: z :: insertAfter mark z s else c :: insertAfter mark z s

variable {needle new front mid back s t : Str} {c z : Char} {i : ℕ}

theorem startsWith_iff : startsWith s t = true ↔ t <+: s := List.isPrefixOf_iff_prefix

section Slices

theorem textTo_append (front back : Str) : textTo (front ++ back) (utf8Len front) = some front := by
  rw [textTo, splitAtByte_eq_some_iff.2 ⟨rfl, rfl⟩]
  rfl

theorem textFrom_append (front back : Str) :
    textFrom (front ++ back) (utf8Len front) = some back := by
  rw [textFrom, splitAtByte_eq_some_iff.2 ⟨rfl, rfl⟩]
  rfl

theorem textFrom_zero (s : Str) : textFrom s 0 = some s := textFrom_append [] s

end Slices

section Trim

theorem trim_trim (s : Str) : trim (trim s) = trim s := by
  have hstart : trim (trimStart s) = trim s := by
    have happend := trim_append_of_left (x := s.takeWhile isWhitespace)
      (trim_eq_nil_iff.2 fun c hc => List.mem_takeWhile_imp hc) (trimStart s)
    rwa [trimStart, List.takeWhile_append_dropWhile, eq_comm] at happend
  have hend : trim (trimEndMatches isWhitespace (trimStart s)) = trim (trimStart s) := by
    have happend := trim_append_of_right (trimEndMatches isWhitespace (trimStart s))
      (y := (trimStart s).rtakeWhile isWhitespace)
      (trim_eq_nil_iff.2 fun c hc => List.mem_rtakeWhile_imp hc)
    rwa [trimEndMatches, List.rdropWhile_append_rtakeWhile, eq_comm] at happend
  exact hend.trans hstart

theorem trim_infix (s : Str) : trim s <:+: s :=
  (List.rdropWhile_prefix _ _).isInfix.trans (List.dropWhile_suffix _).isInfix

end Trim

section Find

theorem exists_of_find (h : find needle s = some i) :
    ∃ front back, s = front ++ (needle ++ back) ∧ utf8Len front = i ∧
      splitOnce needle s = some (front, back) := by
  obtain ⟨⟨front, back⟩, hsplit, hlen⟩ := Option.map_eq_some_iff.1 h
  exact ⟨front, back, eq_of_splitOnce hsplit, hlen, hsplit⟩

theorem find_eq_none_iff (hne : needle ≠ []) : find needle s = none ↔ ¬needle <:+: s := by
  rw [find, Option.map_eq_none_iff, splitOnce_eq_none_iff hne]

theorem find_append (h : HeadOnce needle) (hfront : ¬needle <:+: front) (back : Str) :
    find needle (front ++ (needle ++ back)) = some (utf8Len front) := by
  rw [find, splitOnce_append h hfront]
  rfl

theorem find_self (h : HeadOnce needle) (back : Str) : find needle (needle ++ back) = some 0 := by
  have hnil : ¬needle <:+: [] := fun hin => h.ne_nil (List.infix_nil.1 hin)
  exact find_append h hnil back

theorem exists_of_rfind (h : rfind needle s = some i) :
    ∃ front back, s = front ++ (needle ++ back) ∧ utf8Len front = i := by
  induction s generalizing i with
  | nil => cases h
  | cons c s ih =>
    rw [rfind] at h
    cases hlast : rfind needle s with
    | some j =>
      obtain ⟨front, back, rfl, hlen⟩ := ih hlast
      rw [hlast] at h
      refine ⟨c :: front, back, rfl, ?_⟩
      rw [utf8Len_cons, hlen]
      exact Option.some.inj h
    | none =>
      rw [hlast] at h
      obtain ⟨hstart, hzero⟩ := Option.ite_none_right_eq_some.1 h
      obtain ⟨back, hback⟩ := startsWith_iff.1 hstart
      exact ⟨[], back, hback.symm, Option.some.inj hzero⟩

theorem rfind_eq_none (h : ¬needle <:+: s) : rfind needle s = none := by
  induction s with
  | nil => rfl
  | cons c s ih =>
    rw [List.infix_cons_iff, not_or] at h
    rw [rfind, ih h.2]
    exact if_neg fun hstart => h.1 (startsWith_iff.1 hstart)

/-- A tag at the end is the last one. -/
theorem rfind_append (h : HeadOnce needle) (front : Str) :
    rfind needle (front ++ needle) = some (utf8Len front) := by
  induction front with
  | nil =>
    obtain ⟨c, rest, rfl, honce⟩ := h
    have hrest : ¬(c :: rest) <:+: rest := fun hin => honce (hin.subset List.mem_cons_self)
    rw [List.nil_append, rfind, rfind_eq_none hrest]
    exact if_pos (startsWith_iff.2 (List.prefix_refl _))
  | cons d front ih =>
    rw [List.cons_append, rfind, ih, utf8Len_cons]

/-- Nothing in front of the first tag holds it. -/
theorem not_infix_of_splitOnce (hne : needle ≠ []) (h : splitOnce needle s = some (front, back)) :
    ¬needle <:+: front := by
  induction s generalizing front with
  | nil =>
    rw [splitOnce, if_neg hne] at h
    cases h
  | cons c s ih =>
    rw [splitOnce] at h
    by_cases hstart : startsWith (c :: s) needle = true
    · rw [if_pos hstart, Option.some.injEq, Prod.mk.injEq] at h
      rw [← h.1]
      exact fun hin => hne (List.infix_nil.1 hin)
    · rw [if_neg hstart] at h
      obtain ⟨⟨front', back'⟩, hsplit, heq⟩ := Option.map_eq_some_iff.1 h
      obtain ⟨rfl, rfl⟩ := Prod.mk.inj heq
      rw [List.infix_cons_iff, not_or]
      refine ⟨fun hprefix => hstart (startsWith_iff.2 ?_), ih hsplit⟩
      rw [eq_of_splitOnce hsplit, ← List.cons_append]
      exact hprefix.trans (List.prefix_append _ _)

/-- A tag in a text behind another one with its head is at the start or behind that one. -/
theorem infix_behind {tag tag' : Str} (htag : tag ≠ []) (htag' : HeadOnce tag')
    (hhead : tag'.head? = tag.head?) (hin : tag <:+: tag' ++ back) :
    tag <+: tag' ++ back ∨ tag <:+: back := by
  obtain ⟨c, rest, rfl, honce⟩ := htag'
  obtain ⟨e, tail, rfl⟩ := List.exists_cons_of_ne_nil htag
  obtain rfl : c = e := Option.some.inj hhead
  have hrest : ∀ x : Str, c ∉ x → (c :: tail) <:+: x ++ back → (c :: tail) <:+: back := by
    intro x
    induction x with
    | nil => exact fun _ h => h
    | cons a x ih =>
      intro hnot h
      rw [List.mem_cons, not_or] at hnot
      obtain hprefix | hlater := List.infix_cons_iff.1 h
      · exact absurd (List.cons_prefix_cons.1 hprefix).1 hnot.1
      · exact ih hnot.2 hlater
  obtain hprefix | hlater := List.infix_cons_iff.1 hin
  · exact Or.inl hprefix
  · exact Or.inr (hrest rest honce hlater)

/-- Two different tags with one head do not overlap. -/
theorem tags_apart {tag tag' : Str} (htag : HeadOnce tag) (hhead : tag'.head? = tag.head?)
    (hnot : ¬tag <+: tag' ++ back) (h : tag ++ mid = front ++ (tag' ++ back)) :
    ∃ front', front = tag ++ front' := by
  have hprefix : tag <+: front ++ (tag' ++ back) := ⟨mid, h⟩
  have hhead' : (tag' ++ back).head? = tag.head? := by
    obtain ⟨c, rest, rfl, -⟩ := htag
    obtain ⟨tail, htail⟩ := List.head?_eq_some_iff.1 hhead
    rw [htail]
    rfl
  obtain rfl | hfront := htag.prefix_append hhead' hprefix
  · exact absurd hprefix hnot
  · exact hfront.imp fun _ => Eq.symm

end Find

section Replace

theorem pieces_replaceCut_of_startsWith (prev : Option Char) (hne : needle ≠ [])
    (h : startsWith s needle = true) : ∃ prev', pieces (replaceCut needle) prev s =
      .token needle :: pieces (replaceCut needle) prev' (s.drop needle.length) := by
  have hcut : replaceCut needle prev s = needle.length := if_pos h
  obtain ⟨tail, rfl⟩ := startsWith_iff.1 h
  have hs : needle ++ tail ≠ [] := List.append_ne_nil_of_left_ne_nil hne _
  refine ⟨needle.getLast?, ?_⟩
  rw [pieces_token hs (by rwa [hcut, Ne, List.length_eq_zero_iff]), hcut, List.take_left]

theorem pieces_replaceCut_of_not {prev : Option Char} (h : startsWith (c :: s) needle = false) :
    pieces (replaceCut needle) prev (c :: s) = .kept c :: pieces (replaceCut needle) (some c) s :=
  pieces_kept (if_neg (ne_true_of_eq_false h))

/-- What is proved of the rest of the text for each place where the needle is and where it is not
holds of the whole. -/
theorem replaceAll_induct {P : Str → Str → Prop} (hne : needle ≠ []) (hnil : P [] [])
    (hfound : ∀ s out, P s out → P (needle ++ s) (new ++ out))
    (hkept : ∀ c s out, startsWith (c :: s) needle = false → P s out → P (c :: s) (c :: out))
    (s : Str) : P s (replaceAll needle new s) := by
  have hall : ∀ (n : ℕ) (prev : Option Char) (s : Str), s.length ≤ n →
      P s (render (fun _ => new) (pieces (replaceCut needle) prev s)) := by
    intro n
    induction n with
    | zero =>
      intro prev s hlen
      rw [List.eq_nil_of_length_eq_zero (Nat.le_zero.1 hlen), pieces]
      exact hnil
    | succ n ih =>
      intro prev s hlen
      cases s with
      | nil =>
        rw [pieces]
        exact hnil
      | cons c s =>
        cases hstart : startsWith (c :: s) needle with
        | false =>
          rw [pieces_replaceCut_of_not hstart]
          exact hkept c s _ hstart (ih _ s (Nat.le_of_succ_le_succ hlen))
        | true =>
          obtain ⟨prev', hpieces⟩ := pieces_replaceCut_of_startsWith prev hne hstart
          obtain ⟨tail, htail⟩ := startsWith_iff.1 hstart
          rw [hpieces, ← htail, List.drop_left, render]
          refine hfound tail _ (ih _ tail ?_)
          rw [← htail, List.length_append] at hlen
          have hpos := List.length_pos_iff.2 hne
          omega
  exact hall s.length none s (Nat.le_refl _)

theorem insertAfter_append_of_not_mem {mark : Str → Bool} (hmark : ∀ a u, mark (a :: u) → a = c)
    (hfront : c ∉ front) (s : Str) :
    insertAfter mark z (front ++ s) = front ++ insertAfter mark z s := by
  induction front with
  | nil => rfl
  | cons a front ih =>
    rw [List.mem_cons, not_or] at hfront
    rw [List.cons_append, insertAfter, if_neg fun h => hfront.1 (hmark a _ h).symm, ih hfront.2]
    rfl

theorem startsWith_head {tag rest : Str} (htag : tag = c :: rest) :
    ∀ a u, startsWith (a :: u) tag = true → a = c := by
  intro a u h
  obtain ⟨tail, htail⟩ := startsWith_iff.1 h
  rw [htag] at htail
  exact (List.cons.inj htail).1.symm

/-- Replacing a tag by itself with a character put behind its head marks each of its places. -/
theorem replaceAll_insert (c z : Char) {rest : Str} (honce : c ∉ rest) (s : Str) :
    replaceAll (c :: rest) (c :: z :: rest) s = insertAfter (startsWith · (c :: rest)) z s := by
  refine replaceAll_induct (P := fun s out => out = insertAfter (startsWith · (c :: rest)) z s)
    (List.cons_ne_nil _ _) rfl ?_ ?_ s
  · rintro s out rfl
    have hstart : startsWith (c :: (rest ++ s)) (c :: rest) = true :=
      startsWith_iff.2 (List.prefix_append _ _)
    have hrest : insertAfter (startsWith · (c :: rest)) z (rest ++ s) =
        rest ++ insertAfter (startsWith · (c :: rest)) z s :=
      insertAfter_append_of_not_mem (startsWith_head rfl) honce s
    rw [List.cons_append, List.cons_append, List.cons_append]
    exact (congrArg (c :: z :: ·) hrest).symm.trans (if_pos hstart).symm
  · rintro a s out hnot rfl
    rw [insertAfter, if_neg (ne_true_of_eq_false hnot)]

variable {mark : Str → Bool}

/-- Marking leaves a run without the head of the tags where it is. -/
theorem startsWith_insertAfter_of_not_mem (hmark : ∀ a u, mark (a :: u) → a = c)
    (hc : c ∉ t) (hz : z ∉ t) (s : Str) :
    startsWith (insertAfter mark z s) t = startsWith s t := by
  induction t generalizing s with
  | nil =>
    rw [startsWith, startsWith, List.isPrefixOf_nil_left, List.isPrefixOf_nil_left]
  | cons e t ih =>
    rw [List.mem_cons, not_or] at hc hz
    cases s with
    | nil => rfl
    | cons d s =>
      rw [insertAfter]
      split_ifs with hd
      · have hne : (e == d) = false := by
          rw [hmark d s hd]
          exact beq_eq_false_iff_ne.2 (Ne.symm hc.1)
        rw [startsWith, startsWith, List.isPrefixOf_cons_cons, List.isPrefixOf_cons_cons, hne]
        rfl
      · have hrest := ih hc.2 hz.2 s
        rw [startsWith, startsWith] at hrest
        rw [startsWith, startsWith, List.isPrefixOf_cons_cons, List.isPrefixOf_cons_cons, hrest]

/-- A tag stands at a place of the marked text when it stands there unmarked. -/
theorem startsWith_insertAfter (hmark : ∀ a u, mark (a :: u) → a = c) {rest : Str}
    (hc : c ∉ rest) (hz : z ∉ rest) (hrest : rest ≠ []) (a : Char) (s : Str) :
    startsWith (insertAfter mark z (a :: s)) (c :: rest) =
      (startsWith (a :: s) (c :: rest) && !mark (a :: s)) := by
  rw [insertAfter]
  split_ifs with hm
  · obtain ⟨e, rest, rfl⟩ := List.exists_cons_of_ne_nil hrest
    have hne : (e == z) = false := beq_eq_false_iff_ne.2 fun h => hz (h ▸ List.mem_cons_self)
    rw [hm, startsWith, List.isPrefixOf_cons_cons, List.isPrefixOf_cons_cons, hne]
    simp
  · have htail := startsWith_insertAfter_of_not_mem hmark hc hz s
    rw [startsWith, startsWith] at htail
    rw [eq_false_of_ne_true hm, startsWith, startsWith, List.isPrefixOf_cons_cons,
      List.isPrefixOf_cons_cons, htail]
    simp

/-- Marking a further tag marks what the text was marked for and the places of that tag. -/
theorem insertAfter_insertAfter (hmark : ∀ a u, mark (a :: u) → a = c) {rest : Str}
    (hc : c ∉ rest) (hz : z ∉ rest) (hrest : rest ≠ []) (hcz : c ≠ z) (s : Str) :
    insertAfter (startsWith · (c :: rest)) z (insertAfter mark z s) =
      insertAfter (fun u => mark u || startsWith u (c :: rest)) z s := by
  induction s with
  | nil => rfl
  | cons a s ih =>
    have hplace := startsWith_insertAfter (z := z) hmark hc hz hrest a s
    rw [insertAfter] at hplace ⊢
    rw [insertAfter]
    cases hm : mark (a :: s) with
    | true =>
      rw [hm, if_pos rfl, Bool.not_true, Bool.and_false] at hplace
      have hzplace : ¬startsWith (z :: insertAfter mark z s) (c :: rest) = true := fun h =>
        hcz (startsWith_head rfl _ _ h).symm
      rw [if_pos rfl, insertAfter, hplace, if_neg Bool.false_ne_true, insertAfter, if_neg hzplace,
        ih, Bool.true_or, if_pos rfl]
    | false =>
      rw [hm, if_neg Bool.false_ne_true, Bool.not_false, Bool.and_true] at hplace
      rw [if_neg Bool.false_ne_true, insertAfter, hplace, ih, Bool.false_or]

/-- A text in which no place is to be marked stays as it is. -/
theorem insertAfter_eq_self (h : ∀ u, u <:+ s → mark u = false) : insertAfter mark z s = s := by
  induction s with
  | nil => rfl
  | cons a s ih =>
    rw [insertAfter, if_neg (ne_true_of_eq_false (h _ List.suffix_rfl)),
      ih fun u hu => h u (hu.trans (List.suffix_cons a s))]

/-- No marked tag is left in the marked text. -/
theorem not_infix_insertAfter (hmark : ∀ a u, mark (a :: u) → a = c) {rest : Str}
    (hc : c ∉ rest) (hz : z ∉ rest) (hrest : rest ≠ []) (hcz : c ≠ z)
    (hall : ∀ u, startsWith u (c :: rest) = true → mark u = true) (s : Str) :
    ¬(c :: rest) <:+: insertAfter mark z s := by
  induction s with
  | nil => exact fun h => List.cons_ne_nil _ _ (List.infix_nil.1 h)
  | cons a s ih =>
    have hplace := startsWith_insertAfter (z := z) hmark hc hz hrest a s
    have hnot : startsWith (insertAfter mark z (a :: s)) (c :: rest) = false := by
      rw [hplace]
      cases hstart : startsWith (a :: s) (c :: rest) with
      | false => rfl
      | true => rw [hall _ hstart]; rfl
    have hhere : ¬(c :: rest) <+: insertAfter mark z (a :: s) := fun h =>
      ne_true_of_eq_false hnot (startsWith_iff.2 h)
    rw [insertAfter] at hhere ⊢
    split_ifs at hhere ⊢ with hm
    · rw [List.infix_cons_iff, List.infix_cons_iff, not_or, not_or]
      refine ⟨hhere, fun h => ?_, ih⟩
      exact hcz (List.cons_prefix_cons.1 h).1
    · rw [List.infix_cons_iff, not_or]
      exact ⟨hhere, ih⟩

end Replace

end GrokBuild.Text
