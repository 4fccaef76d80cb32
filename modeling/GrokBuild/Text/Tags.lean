import GrokBuild.Text.Slices

/-!
# Finding a tag

A tag whose first character occurs only once in it, such as one in angle brackets, never overlaps
itself, so it is found where it was put if it does not occur in front of that.
-/

namespace GrokBuild.Text

variable {sep front back s t : Str} {c : Char}

/-- The first character of the tag does not come again in it. -/
def HeadOnce (tag : Str) : Prop := ∃ c rest, tag = c :: rest ∧ c ∉ rest

instance (tag : Str) : Decidable (HeadOnce tag) :=
  match tag with
  | [] => isFalse fun ⟨_, _, h, _⟩ => nomatch h
  | c :: rest =>
    if h : c ∈ rest then isFalse fun ⟨_, _, heq, hnot⟩ => by
      obtain ⟨rfl, rfl⟩ := List.cons.inj heq
      exact hnot h
    else isTrue ⟨c, rest, rfl, h⟩

theorem HeadOnce.ne_nil (h : HeadOnce sep) : sep ≠ [] := by
  obtain ⟨c, rest, rfl, -⟩ := h
  exact List.cons_ne_nil _ _

/-- A tag across the border of two texts would have its head again inside it, if the second text
starts with that. -/
theorem HeadOnce.prefix_append (h : HeadOnce sep) (hback : back.head? = sep.head?)
    (hin : sep <+: front ++ back) : front = [] ∨ sep <+: front := by
  obtain ⟨c, rest, rfl, honce⟩ := h
  obtain ⟨b, hb⟩ := hin
  obtain ⟨x, rfl, -⟩ | ⟨x, hsplit, rfl⟩ := List.append_eq_append_iff.mp hb
  · exact .inr (List.prefix_append _ _)
  · cases front with
    | nil => exact .inl rfl
    | cons d front =>
      cases x with
      | nil =>
        rw [hsplit, List.append_nil]
        exact .inr (List.prefix_refl _)
      | cons e x =>
        obtain ⟨-, rfl⟩ := List.cons.inj hsplit
        obtain rfl : e = c := by simpa using hback
        exact absurd (List.mem_append_right _ List.mem_cons_self) honce

theorem HeadOnce.infix_append (h : HeadOnce sep) (hback : back.head? = sep.head?)
    (hin : sep <:+: front ++ back) : sep <:+: front ∨ sep <:+: back := by
  induction front with
  | nil => exact .inr hin
  | cons d front ih =>
    rw [List.cons_append] at hin
    obtain hprefix | hrest := List.infix_cons_iff.mp hin
    · rw [← List.cons_append] at hprefix
      obtain hnil | hprefix := h.prefix_append hback hprefix
      · cases hnil
      · exact .inl hprefix.isInfix
    · exact (ih hrest).imp_left List.infix_cons

/-- A tag is found behind a text in which it does not occur. -/
theorem splitOnce_append (h : HeadOnce sep) (hfront : ¬ sep <:+: front) :
    splitOnce sep (front ++ (sep ++ back)) = some (front, back) := by
  have hhead : (sep ++ back).head? = sep.head? := by
    obtain ⟨c, rest, rfl, -⟩ := h
    rfl
  induction front with
  | nil =>
    obtain ⟨c, rest, rfl, -⟩ := h
    rw [List.nil_append, List.cons_append, splitOnce, ← List.cons_append, if_pos]
    · rw [List.drop_left]
    · exact List.isPrefixOf_iff_prefix.mpr (List.prefix_append _ _)
  | cons d front ih =>
    have hrest : ¬ sep <:+: front := fun hin => hfront (List.infix_cons hin)
    rw [List.cons_append, splitOnce, if_neg]
    · rw [ih hrest]
      rfl
    · intro hstart
      have hprefix := List.isPrefixOf_iff_prefix.mp hstart
      rw [← List.cons_append] at hprefix
      obtain hnil | hprefix := h.prefix_append hhead hprefix
      · cases hnil
      · exact hfront hprefix.isInfix

theorem splitOnce_eq_none_iff (hsep : sep ≠ []) : splitOnce sep s = none ↔ ¬ sep <:+: s := by
  induction s with
  | nil =>
    rw [splitOnce, if_neg hsep]
    exact iff_of_true rfl fun hin => hsep (List.infix_nil.mp hin)
  | cons d s ih =>
    rw [splitOnce]
    split_ifs with hprefix
    · refine iff_of_false nofun fun hnot => hnot ?_
      exact (List.isPrefixOf_iff_prefix.mp hprefix).isInfix
    · rw [Option.map_eq_none_iff, ih, List.infix_cons_iff, not_or]
      refine ⟨fun hnot => ⟨fun hp => hprefix (List.isPrefixOf_iff_prefix.mpr hp), hnot⟩, And.right⟩

/-- A split is at the first of the tags. -/
theorem eq_of_splitOnce (h : splitOnce sep s = some (front, back)) :
    s = front ++ (sep ++ back) := by
  induction s generalizing front with
  | nil =>
    rw [splitOnce] at h
    split_ifs at h with hsep
    obtain ⟨rfl, rfl⟩ := Prod.mk.inj (Option.some.inj h)
    rw [hsep]
    rfl
  | cons d s ih =>
    rw [splitOnce] at h
    split_ifs at h with hprefix
    · obtain ⟨rfl, rfl⟩ := Prod.mk.inj (Option.some.inj h)
      obtain ⟨rest, hrest⟩ := List.isPrefixOf_iff_prefix.mp hprefix
      rw [← hrest, List.drop_left]
      rfl
    · rw [Option.map_eq_some_iff] at h
      obtain ⟨⟨front', back'⟩, hsplit, heq⟩ := h
      obtain ⟨rfl, rfl⟩ := Prod.mk.inj heq
      rw [ih hsplit]
      rfl

end GrokBuild.Text
