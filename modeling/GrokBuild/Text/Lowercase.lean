import GrokBuild.Text.Str

/-!
# Lower-casing a text

`str::to_lowercase` character by character. Only a capital sigma looks at the text around it; a
lowering in which each of them took either form is as good for comparisons with ASCII texts.
-/

namespace GrokBuild.Text

def IsAscii (s : Str) : Prop := ∀ c ∈ s, c.toNat < 128

/-- The Unicode tables that `to_lowercase` reads. -/
structure Lowercase where
  map : Char → Str
  finalSigma : Str → Str → Bool
  ascii : ∀ c, c.toNat < 128 → map c = [c.toLower]
  blank : ∀ c, isWhitespace c = true → map c = [c]
  ne_nil : ∀ c, map c ≠ []
  other : ∀ c, 128 ≤ c.toNat → ∀ d ∈ map c, d ≠ '/' ∧ d ≠ '.' ∧ d ≠ 'w'
  not_blank : ∀ c, isWhitespace c = false → ∀ d ∈ map c, isWhitespace d = false

namespace Lowercase

variable (L : Lowercase)

/-- The lowering of one character with what stands before and behind it. -/
def lowerChar (before : Str) (c : Char) (after : Str) : Str :=
  if c = 'Σ' then if L.finalSigma before after then ['ς'] else ['σ'] else L.map c

def lowerFrom (before : Str) : Str → Str
  | [] => []
  | c :: s => L.lowerChar before c s ++ lowerFrom (before ++ [c]) s

def lower (s : Str) : Str := L.lowerFrom [] s

/-- A sigma in either form. -/
def OneLower (c : Char) (t : Str) : Prop :=
  if c = 'Σ' then t = ['ς'] ∨ t = ['σ'] else t = L.map c

/-- Character by character one text is the other in lower case. -/
inductive Lowers : Str → Str → Prop
  | nil : Lowers [] []
  | cons {c : Char} {t u v : Str} : L.OneLower c u → Lowers t v → Lowers (c :: t) (u ++ v)

end Lowercase

variable {L : Lowercase} {c : Char} {s t u v x y : Str}

namespace Lowercase

theorem lowers_lower (s : Str) : L.Lowers s (L.lower s) := by
  have hfrom : ∀ before, L.Lowers s (L.lowerFrom before s) := by
    induction s with
    | nil => exact fun _ => .nil
    | cons c s ih =>
      intro before
      refine .cons ?_ (ih _)
      unfold OneLower lowerChar
      split_ifs
      · exact .inl rfl
      · exact .inr rfl
      · rfl
  exact hfrom []

theorem OneLower.ne_nil (h : L.OneLower c u) : u ≠ [] := by
  unfold OneLower at h
  split_ifs at h
  · obtain rfl | rfl := h
    · exact List.cons_ne_nil _ _
    · exact List.cons_ne_nil _ _
  · exact h ▸ L.ne_nil c

theorem OneLower.ascii (h : L.OneLower c u) (hc : c.toNat < 128) : u = [c.toLower] := by
  have hsigma : c ≠ 'Σ' := by
    rintro rfl
    exact absurd hc (by decide)
  rw [OneLower, if_neg hsigma] at h
  rw [h, L.ascii c hc]

theorem OneLower.blank (h : L.OneLower c u) (hc : isWhitespace c = true) : u = [c] := by
  have hsigma : c ≠ 'Σ' := by
    rintro rfl
    exact absurd hc (by decide)
  rw [OneLower, if_neg hsigma] at h
  rw [h, L.blank c hc]

theorem OneLower.not_blank (h : L.OneLower c u) (hc : isWhitespace c = false) :
    ∀ d ∈ u, isWhitespace d = false := by
  unfold OneLower at h
  split_ifs at h
  · obtain rfl | rfl := h
    · exact List.forall_mem_singleton.mpr (by decide)
    · exact List.forall_mem_singleton.mpr (by decide)
  · exact h ▸ L.not_blank c hc

/-- Nothing but an ASCII character becomes a separator. -/
theorem OneLower.other (h : L.OneLower c u) (hc : 128 ≤ c.toNat) :
    ∀ d ∈ u, d ≠ '/' ∧ d ≠ '.' ∧ d ≠ 'w' := by
  unfold OneLower at h
  split_ifs at h
  · obtain rfl | rfl := h
    · exact List.forall_mem_singleton.mpr (by decide)
    · exact List.forall_mem_singleton.mpr (by decide)
  · exact h ▸ L.other c hc

/-! ## Lowerings of a whole text -/

theorem Lowers.of_single (h : L.Lowers [c] t) : L.OneLower c t := by
  obtain _ | ⟨hc, hnil⟩ := h
  cases hnil
  rw [List.append_nil]
  exact hc

theorem Lowers.uncons (h : L.Lowers (c :: s) t) :
    ∃ u v, t = u ++ v ∧ L.OneLower c u ∧ L.Lowers s v := by
  obtain _ | ⟨hc, hrest⟩ := h
  exact ⟨_, _, rfl, hc, hrest⟩

theorem Lowers.append (hx : L.Lowers x u) (hy : L.Lowers y v) : L.Lowers (x ++ y) (u ++ v) := by
  induction hx with
  | nil => exact hy
  | cons hc _ ih =>
    rw [List.cons_append, List.append_assoc]
    exact .cons hc ih

theorem Lowers.split (h : L.Lowers (x ++ y) t) :
    ∃ u v, t = u ++ v ∧ L.Lowers x u ∧ L.Lowers y v := by
  induction x generalizing t with
  | nil => exact ⟨[], t, rfl, .nil, h⟩
  | cons c x ih =>
    obtain _ | ⟨hc, hrest⟩ := h
    obtain ⟨u, v, rfl, hu, hv⟩ := ih hrest
    exact ⟨_, v, (List.append_assoc _ _ _).symm, .cons hc hu, hv⟩

theorem Lowers.eq_nil_iff (h : L.Lowers s t) : t = [] ↔ s = [] := by
  cases h with
  | nil => exact Iff.rfl
  | cons hc _ =>
    exact iff_of_false (List.append_ne_nil_of_left_ne_nil hc.ne_nil _) (List.cons_ne_nil _ _)

/-- An ASCII lowering is the only one. -/
theorem Lowers.unique (h : L.Lowers s t) (hascii : IsAscii t) (h' : L.Lowers s u) : u = t := by
  induction h generalizing u with
  | nil => exact h'.eq_nil_iff.mpr rfl
  | cons hc _ ih =>
    obtain _ | ⟨hc', hrest⟩ := h'
    obtain ⟨hfirst, hlast⟩ := List.forall_mem_append.mp hascii
    rw [ih hlast hrest]
    congr 1
    unfold OneLower at hc hc'
    split_ifs at hc hc'
    · obtain rfl | rfl := hc
      · exact absurd (hfirst _ List.mem_cons_self) (by decide)
      · exact absurd (hfirst _ List.mem_cons_self) (by decide)
    · rw [hc, hc']

theorem lower_eq_self (h : ∀ c ∈ s, c.toNat < 128 ∧ c.toLower = c) : L.lower s = s := by
  have hself : L.Lowers s s := by
    induction s with
    | nil => exact .nil
    | cons c s ih =>
      obtain ⟨⟨hascii, hlower⟩, hrest⟩ := List.forall_mem_cons.mp h
      have hc : L.OneLower c [c] := by
        have hsigma : c ≠ 'Σ' := by
          rintro rfl
          exact absurd hascii (by decide)
        rw [OneLower, if_neg hsigma, L.ascii c hascii, hlower]
      exact .cons hc (ih hrest)
  exact hself.unique (fun c hc => (h c hc).1) (lowers_lower s)

/-- A separator and a `w` come from ASCII characters. -/
theorem Lowers.of_cons {d : Char} (h : L.Lowers s (d :: t)) (hd : d = '/' ∨ d = '.' ∨ d = 'w') :
    ∃ c s', s = c :: s' ∧ c.toLower = d ∧ L.Lowers s' t := by
  cases s with
  | nil => exact absurd (h.eq_nil_iff.mpr rfl) (List.cons_ne_nil _ _)
  | cons c s =>
    obtain ⟨u, v, htext, hc, hrest⟩ := h.uncons
    by_cases hcode : c.toNat < 128
    · rw [hc.ascii hcode, List.singleton_append, List.cons_eq_cons] at htext
      exact ⟨c, s, rfl, htext.1.symm, htext.2 ▸ hrest⟩
    · obtain ⟨e, w, rfl⟩ := List.exists_cons_of_ne_nil hc.ne_nil
      have hother := hc.other (Nat.le_of_not_lt hcode) e List.mem_cons_self
      rw [List.cons_append, List.cons_eq_cons] at htext
      rw [← htext.1] at hother
      obtain hd | hd | hd := hd
      · exact absurd hd hother.1
      · exact absurd hd hother.2.1
      · exact absurd hd hother.2.2

/-! ## Cutting a text at characters without case -/

/-- A character class that lowering neither leaves nor enters. -/
structure CaseBlind (L : Lowercase) (p : Char → Bool) : Prop where
  keeps : ∀ {c u}, L.OneLower c u → p c = true → u = [c]
  avoids : ∀ {c u}, L.OneLower c u → p c = false → ∀ d ∈ u, p d = false

variable {p : Char → Bool}

theorem caseBlind_isWhitespace (L : Lowercase) : CaseBlind L isWhitespace :=
  ⟨OneLower.blank, OneLower.not_blank⟩

theorem toLower_eq_separator {d : Char} (hd : d = '/' ∨ d = '.') (hc : c.toNat < 128) :
    c.toLower = d ↔ c = d := by
  have hall : ∀ n < 128, ((Char.ofNat n).toLower = '/' ↔ Char.ofNat n = '/') ∧
      ((Char.ofNat n).toLower = '.' ↔ Char.ofNat n = '.') := by decide
  have hthis := hall c.toNat hc
  rw [Char.ofNat_toNat] at hthis
  obtain rfl | rfl := hd
  · exact hthis.1
  · exact hthis.2

theorem caseBlind_separator (L : Lowercase) {d : Char} (hd : d = '/' ∨ d = '.') :
    CaseBlind L (· == d) := by
  have hsmall : d.toNat < 128 := by
    obtain rfl | rfl := hd
    · decide
    · decide
  constructor
  · intro c u hc heq
    obtain rfl := beq_iff_eq.mp heq
    rw [hc.ascii hsmall, (toLower_eq_separator hd hsmall).mpr rfl]
  · intro c u hc hne e he
    have hne : c ≠ d := beq_eq_false_iff_ne.mp hne
    rw [beq_eq_false_iff_ne]
    by_cases hcode : c.toNat < 128
    · rw [hc.ascii hcode, List.mem_singleton] at he
      rw [he]
      exact fun h => hne ((toLower_eq_separator hd hcode).mp h)
    · have hother := hc.other (Nat.le_of_not_lt hcode) e he
      obtain rfl | rfl := hd
      · exact hother.1
      · exact hother.2.1

theorem Lowers.dropWhile (h : CaseBlind L p) (hs : L.Lowers s t) :
    L.Lowers (s.dropWhile p) (t.dropWhile p) := by
  induction hs with
  | nil => exact .nil
  | @cons c _ u v hc hrest ih =>
    by_cases hp : p c = true
    · rw [h.keeps hc hp, List.dropWhile_cons_of_pos hp, List.singleton_append,
        List.dropWhile_cons_of_pos hp]
      exact ih
    · have hnot := h.avoids hc (eq_false_of_ne_true hp)
      obtain ⟨d, w, rfl⟩ := List.exists_cons_of_ne_nil hc.ne_nil
      have hd : ¬ p d = true := by
        rw [hnot d List.mem_cons_self]
        exact Bool.false_ne_true
      rw [List.dropWhile_cons_of_neg hp, List.cons_append, List.dropWhile_cons_of_neg hd,
        ← List.cons_append]
      exact .cons hc hrest

theorem Lowers.trimEndMatches (h : CaseBlind L p) (hs : L.Lowers s t) :
    L.Lowers (trimEndMatches p s) (trimEndMatches p t) := by
  unfold Text.trimEndMatches
  induction s using List.reverseRecOn generalizing t with
  | nil =>
    rw [hs.eq_nil_iff.mpr rfl]
    exact .nil
  | append_singleton s c ih =>
    obtain ⟨u, v, rfl, hu, hv⟩ := hs.split
    have hc := hv.of_single
    by_cases hp : p c = true
    · rw [h.keeps hc hp, List.rdropWhile_concat_pos p s c hp, List.rdropWhile_concat_pos p u c hp]
      exact ih hu
    · have hnot := h.avoids hc (eq_false_of_ne_true hp)
      obtain ⟨w, d, rfl⟩ := (List.eq_nil_or_concat' v).resolve_left hc.ne_nil
      have hd : ¬ p d = true := by
        rw [hnot d (List.mem_append_right _ List.mem_cons_self)]
        exact Bool.false_ne_true
      rw [List.rdropWhile_concat_neg p s c hp, ← List.append_assoc,
        List.rdropWhile_concat_neg p (u ++ w) d hd, List.append_assoc]
      exact hu.append hv

/-- Up to the first separator. -/
theorem Lowers.takeUntil (h : CaseBlind L p) (hs : L.Lowers s t) :
    L.Lowers (s.takeWhile fun c => !p c) (t.takeWhile fun c => !p c) ∧
      L.Lowers (s.dropWhile fun c => !p c) (t.dropWhile fun c => !p c) := by
  induction hs with
  | nil => exact ⟨.nil, .nil⟩
  | @cons c s' u v hc hrest ih =>
    cases hp : p c with
    | true =>
      simp only [h.keeps hc hp, List.singleton_append, List.takeWhile_cons, List.dropWhile_cons, hp,
        Bool.not_true, Bool.false_eq_true, if_false]
      exact ⟨.nil, .cons (h.keeps hc hp ▸ hc) hrest⟩
    | false =>
      have hall : ∀ d ∈ u, (!p d) = true := fun d hd => by rw [h.avoids hc hp d hd]; rfl
      rw [List.takeWhile_append_of_pos hall, List.dropWhile_append_of_pos hall]
      simp only [List.takeWhile_cons, List.dropWhile_cons, hp, Bool.not_false, if_true]
      exact ⟨.cons hc ih.1, ih.2⟩

theorem Lowers.trim (hs : L.Lowers s t) : L.Lowers (trim s) (trim t) :=
  Lowers.trimEndMatches (caseBlind_isWhitespace L) (hs.dropWhile (caseBlind_isWhitespace L))

end Lowercase

end GrokBuild.Text
