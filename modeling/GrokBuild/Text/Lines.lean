import GrokBuild.Text.Str
import Mathlib.Data.List.Basic
import Mathlib.Tactic.Common

/-!
# Lines of a text

`str::lines` and `str::split_inclusive`, the way a list of lines is joined again, and when
splitting and joining give the text back. Nothing here knows what the text is for.
-/

namespace GrokBuild.Text

/-- `str::split_inclusive('\n')`: each piece keeps its terminator. -/
@[grind] def splitInclusive : Str → List Str
  | [] => []
  | c :: s =>
    if c = '\n' then [c] :: splitInclusive s
    else
      match splitInclusive s with
      | [] => [[c]]
      | piece :: pieces => (c :: piece) :: pieces

@[grind] def chompCr (line : Str) : Str := (stripSuffix line ['\r']).getD line

/-- `str::lines` on one piece: a final `\n` or `\r\n` goes, a bare final `\r` stays. -/
@[grind] def chompLine (piece : Str) : Str :=
  match stripSuffix piece ['\n'] with
  | none => piece
  | some line => chompCr line

@[grind] def lines (s : Str) : List Str := (splitInclusive s).map chompLine

@[grind] def endsNl (s : Str) : Bool := s.getLast? == some '\n'

/-- `lines.join("\n")`. -/
@[grind] def joinLines (ls : List Str) : Str := ['\n'].intercalate ls

/-- Every line with its own terminator. -/
@[grind] def unlines (ls : List Str) : Str := ls.flatMap (· ++ ['\n'])

/-- Lines joined, with a final newline if `nl` and the text is not empty. -/
@[grind] def rebuild (ls : List Str) (nl : Bool) : Str :=
  let output := joinLines ls
  if nl && !output.isEmpty then output ++ ['\n'] else output

/-- `s.contains("\r\n")`. -/
@[grind] def hasCrlf : Str → Bool
  | [] => false
  | c :: s => (c == '\r' && s.head? == some '\n') || hasCrlf s

/-- A carriage return followed by something other than a line feed. -/
@[grind] def hasLoneCr : Str → Bool
  | [] => false
  | c :: s => (c == '\r' && s.head? != none && s.head? != some '\n') || hasLoneCr s

section Pieces

variable {x s : Str}

theorem endsWith_singleton (s : Str) (c : Char) :
    endsWith s [c] = true ↔ s.getLast? = some c := by
  unfold endsWith
  rw [List.isSuffixOf_iff_suffix, List.getLast?_eq_some_iff]
  constructor
  · rintro ⟨t, rfl⟩
    exact ⟨t, rfl⟩
  · rintro ⟨t, rfl⟩
    exact ⟨t, rfl⟩

theorem stripSuffix_append (x : Str) (c : Char) : stripSuffix (x ++ [c]) [c] = some x := by
  unfold stripSuffix
  rw [if_pos ((endsWith_singleton _ _).mpr (by simp))]
  simp

theorem stripSuffix_of_getLast_ne {c : Char} (h : x.getLast? ≠ some c) :
    stripSuffix x [c] = none := by
  unfold stripSuffix
  rw [if_neg fun hs => h ((endsWith_singleton _ _).mp hs)]

theorem chompCr_append (x : Str) : chompCr (x ++ ['\r']) = x := by
  simp [chompCr, stripSuffix_append]

theorem chompCr_of_ne (h : x.getLast? ≠ some '\r') : chompCr x = x := by
  simp [chompCr, stripSuffix_of_getLast_ne h]

theorem chompCr_eq_self_iff : chompCr x = x ↔ x.getLast? ≠ some '\r' := by
  constructor
  · intro h hx
    obtain ⟨y, rfl⟩ := List.getLast?_eq_some_iff.mp hx
    rw [chompCr_append] at h
    simpa using congrArg List.length h
  · exact chompCr_of_ne

theorem mem_of_mem_chompCr {c : Char} (h : c ∈ chompCr x) : c ∈ x := by
  by_cases hx : x.getLast? = some '\r'
  · obtain ⟨y, rfl⟩ := List.getLast?_eq_some_iff.mp hx
    rw [chompCr_append] at h
    exact List.mem_append_left _ h
  · rwa [chompCr_of_ne hx] at h

theorem chompLine_terminated (x : Str) : chompLine (x ++ ['\n']) = chompCr x := by
  simp [chompLine, stripSuffix_append]

theorem chompLine_unterminated (h : '\n' ∉ x) : chompLine x = x := by
  have hl : x.getLast? ≠ some '\n' := fun hx => h (List.mem_of_getLast? hx)
  simp [chompLine, stripSuffix_of_getLast_ne hl]

theorem splitInclusive_line (h : '\n' ∉ x) :
    splitInclusive (x ++ '\n' :: s) = (x ++ ['\n']) :: splitInclusive s := by
  induction x with
  | nil => simp [splitInclusive]
  | cons c x ih =>
    simp only [List.mem_cons, not_or] at h
    have hc : c ≠ '\n' := fun hc => h.1 hc.symm
    simp [splitInclusive, hc, ih h.2]

theorem splitInclusive_last (h : '\n' ∉ x) (hx : x ≠ []) : splitInclusive x = [x] := by
  induction x with
  | nil => contradiction
  | cons c x ih =>
    simp only [List.mem_cons, not_or] at h
    have hc : c ≠ '\n' := fun hc => h.1 hc.symm
    by_cases hn : x = []
    · simp [splitInclusive, hc, hn]
    · simp [splitInclusive, hc, ih h.2 hn]

theorem lines_line (h : '\n' ∉ x) : lines (x ++ '\n' :: s) = chompCr x :: lines s := by
  simp [lines, splitInclusive_line h, chompLine_terminated]

theorem lines_last (h : '\n' ∉ x) (hx : x ≠ []) : lines x = [x] := by
  simp [lines, splitInclusive_last h hx, chompLine_unterminated h]

@[simp] theorem lines_nil : lines [] = [] := rfl

/-- Induction over the lines of a text: it is empty, or a last line without terminator, or
a terminated line before a text. -/
theorem line_induction {P : Str → Prop} (nil : P []) (last : ∀ x, '\n' ∉ x → x ≠ [] → P x)
    (line : ∀ x s, '\n' ∉ x → P s → P (x ++ '\n' :: s)) (s : Str) : P s := by
  -- carry the part of the current line already read
  have key : ∀ (s x : Str), '\n' ∉ x → P (x ++ s) := by
    intro s
    induction s with
    | nil =>
      intro x hx
      rw [List.append_nil]
      by_cases hn : x = []
      · rw [hn]
        exact nil
      · exact last x hx hn
    | cons c s ih =>
      intro x hx
      by_cases hc : c = '\n'
      · rw [hc]
        exact line x s hx (ih [] (by simp))
      · have hxc : '\n' ∉ x ++ [c] := by simp [hx, Ne.symm hc]
        simpa using ih (x ++ [c]) hxc
  exact key s [] (by simp)

theorem endsNl_append_of_ne_nil (x : Str) (hs : s ≠ []) : endsNl (x ++ s) = endsNl s := by
  simp [endsNl, List.getLast?_append_of_ne_nil _ hs]

theorem endsNl_line (x s : Str) : endsNl (x ++ '\n' :: s) = (s.isEmpty || endsNl s) := by
  cases s with
  | nil => simp [endsNl]
  | cons c s =>
    have h := endsNl_append_of_ne_nil (x ++ ['\n']) (List.cons_ne_nil c s)
    simpa using h

theorem endsNl_of_not_mem (h : '\n' ∉ x) : endsNl x = false := by
  unfold endsNl
  rw [beq_eq_false_iff_ne]
  intro hx
  exact h (List.mem_of_getLast? hx)

end Pieces

/-! ## Joining lines again -/

section Join

variable {s : Str}

@[simp] theorem unlines_nil : unlines [] = [] := rfl

@[simp] theorem unlines_cons (l : Str) (ls : List Str) :
    unlines (l :: ls) = l ++ '\n' :: unlines ls := by
  simp [unlines]

theorem unlines_append (ls ls' : List Str) : unlines (ls ++ ls') = unlines ls ++ unlines ls' := by
  simp [unlines]

@[simp] theorem joinLines_nil : joinLines [] = [] := rfl

/-- Joining puts a terminator on every line but the last. -/
theorem joinLines_concat (ls : List Str) (x : Str) : joinLines (ls ++ [x]) = unlines ls ++ x := by
  unfold joinLines
  induction ls with
  | nil => simp [List.intercalate]
  | cons l ls ih =>
    cases ls with
    | nil => simp [List.intercalate]
    | cons l' ls =>
      rw [List.cons_append, List.intercalate_cons_of_ne_nil (by simp), ih]
      simp

theorem joinLines_eq_nil_iff (ls : List Str) : joinLines ls = [] ↔ ls = [] ∨ ls = [[]] := by
  rcases List.eq_nil_or_concat ls with rfl | ⟨ys, x, rfl⟩
  · simp
  · rw [List.concat_eq_append, joinLines_concat]
    cases ys with
    | nil => simp
    | cons y ys => simp

theorem rebuild_false (ls : List Str) : rebuild ls false = joinLines ls := rfl

theorem rebuild_true_of_empty {ls : List Str} (h : joinLines ls = []) : rebuild ls true = [] := by
  simp [rebuild, h]

theorem rebuild_true {ls : List Str} (h : joinLines ls ≠ []) : rebuild ls true = unlines ls := by
  have hne : ls ≠ [] := by
    intro hn
    exact h ((joinLines_eq_nil_iff ls).mpr (Or.inl hn))
  obtain ⟨ys, x, rfl⟩ := List.eq_nil_or_concat ls |>.resolve_left hne
  simp only [List.concat_eq_append] at h ⊢
  have hout : rebuild (ys ++ [x]) true = joinLines (ys ++ [x]) ++ ['\n'] := by
    simp [rebuild, h]
  rw [hout, joinLines_concat, unlines_append]
  simp

theorem lines_unlines_append {ls : List Str} (h : ∀ l ∈ ls, '\n' ∉ l) (s : Str) :
    lines (unlines ls ++ s) = ls.map chompCr ++ lines s := by
  induction ls with
  | nil => simp
  | cons l ls ih =>
    have hl : '\n' ∉ l := h l (by simp)
    rw [unlines_cons, List.append_assoc, List.cons_append, lines_line hl,
      ih fun l' hl' => h l' (by simp [hl'])]
    simp

theorem endsNl_unlines_append (ls : List Str) (h : ls ≠ []) (s : Str) :
    endsNl (unlines ls ++ s) = (s.isEmpty || endsNl s) := by
  obtain ⟨ys, x, rfl⟩ := List.eq_nil_or_concat ls |>.resolve_left h
  rw [List.concat_eq_append, unlines_append]
  have hx := endsNl_line (unlines ys ++ x) s
  simpa using hx

theorem newline_not_mem_of_mem_lines {l : Str} (h : l ∈ lines s) : '\n' ∉ l := by
  induction s using line_induction with
  | nil => simp at h
  | last x hx hn =>
    rw [lines_last hx hn, List.mem_singleton] at h
    rwa [h]
  | line x s hx ih =>
    rw [lines_line hx, List.mem_cons] at h
    rcases h with rfl | h
    · exact fun hm => hx (mem_of_mem_chompCr hm)
    · exact ih h

/-- The lines of a text joined again, with its own final newline. -/
@[grind] def normalize (s : Str) : Str := rebuild (lines s) (endsNl s)

theorem ne_nil_of_endsNl (h : endsNl s = true) : s ≠ [] := by
  rintro rfl
  simp [endsNl] at h

theorem lines_ne_nil (h : s ≠ []) : lines s ≠ [] := by
  induction s using line_induction with
  | nil => contradiction
  | last x hx hn => simp [lines_last hx hn]
  | line x s hx ih => simp [lines_line hx]

theorem hasCrlf_of_not_mem {x : Str} (h : '\n' ∉ x) : hasCrlf x = false := by
  induction x with
  | nil => rfl
  | cons c x ih =>
    simp only [List.mem_cons, not_or] at h
    cases x with
    | nil => simp [hasCrlf]
    | cons d x =>
      have hd : d ≠ '\n' := by
        intro hd
        exact h.2 (by simp [hd])
      have := ih h.2
      simp only [hasCrlf, List.head?_cons] at this ⊢
      simp [this, hd]

theorem hasCrlf_line {x : Str} (h : '\n' ∉ x) (s : Str) :
    hasCrlf (x ++ '\n' :: s) = (x.getLast? == some '\r' || hasCrlf s) := by
  induction x with
  | nil => simp [hasCrlf]
  | cons c x ih =>
    simp only [List.mem_cons, not_or] at h
    rw [List.cons_append, hasCrlf, ih h.2]
    cases x with
    | nil => simp
    | cons d x =>
      have hd : d ≠ '\n' := by
        intro hd
        exact h.2 (by simp [hd])
      simp [hd, List.getLast?_cons_cons]

theorem hasCrlf_append_right (x : Str) (h : hasCrlf s = true) : hasCrlf (x ++ s) = true := by
  induction x with
  | nil => exact h
  | cons c x ih => simp [hasCrlf, ih]

theorem hasCrlf_append_left (s : Str) {x : Str} (h : hasCrlf x = true) :
    hasCrlf (x ++ s) = true := by
  induction x with
  | nil => simp [hasCrlf] at h
  | cons c x ih =>
    rw [List.cons_append, hasCrlf]
    rw [hasCrlf, Bool.or_eq_true] at h
    rcases h with h | h
    · cases x with
      | nil => simp at h
      | cons d x => simpa using Or.inl h
    · simp [ih h]

theorem first_newline_unique {x y s t : Str} (hx : '\n' ∉ x) (hy : '\n' ∉ y)
    (h : x ++ '\n' :: s = y ++ '\n' :: t) : x = y ∧ s = t := by
  have hp := congrArg splitInclusive h
  rw [splitInclusive_line hx, splitInclusive_line hy] at hp
  have hxy : x = y := List.append_cancel_right (List.cons.inj hp).1
  rw [hxy] at h
  exact ⟨hxy, (List.cons.inj (List.append_cancel_left h)).2⟩

theorem unlines_lines_iff (h : endsNl s = true) :
    unlines (lines s) = s ↔ hasCrlf s = false := by
  induction s using line_induction with
  | nil => simp [endsNl] at h
  | last x hx hn =>
    rw [endsNl_of_not_mem hx] at h
    contradiction
  | line x s hx ih =>
    rw [lines_line hx, hasCrlf_line hx, unlines_cons]
    have hsplit : chompCr x ++ '\n' :: unlines (lines s) = x ++ '\n' :: s ↔
        chompCr x = x ∧ unlines (lines s) = s := by
      constructor
      · intro he
        exact first_newline_unique (fun hm => hx (mem_of_mem_chompCr hm)) hx he
      · rintro ⟨h1, h2⟩
        rw [h1, h2]
    rw [hsplit, chompCr_eq_self_iff]
    by_cases hs : s = []
    · simp [hs, hasCrlf]
    · rw [endsNl_line] at h
      simp only [List.isEmpty_iff, Bool.or_eq_true, hs, false_or] at h
      rw [ih h]
      simp

theorem joinLines_lines_iff (h : endsNl s = false) :
    joinLines (lines s) = s ↔ hasCrlf s = false := by
  induction s using line_induction with
  | nil => simp [hasCrlf]
  | last x hx hn =>
    rw [lines_last hx hn, hasCrlf_of_not_mem hx]
    simp [joinLines, List.intercalate]
  | line x s hx ih =>
    rw [endsNl_line, Bool.or_eq_false_iff, List.isEmpty_eq_false_iff] at h
    obtain ⟨ys, y, hys⟩ : ∃ ys y, lines s = ys ++ [y] := by
      have hne : lines s ≠ [] := lines_ne_nil h.1
      obtain ⟨ys, y, hys⟩ := List.eq_nil_or_concat (lines s) |>.resolve_left hne
      exact ⟨ys, y, by rw [hys, List.concat_eq_append]⟩
    have ih' := ih h.2
    rw [hys, joinLines_concat] at ih'
    rw [lines_line hx, hys, ← List.cons_append, joinLines_concat, unlines_cons, hasCrlf_line hx,
      List.append_assoc, List.cons_append]
    have hsplit : chompCr x ++ '\n' :: (unlines ys ++ y) = x ++ '\n' :: s ↔
        chompCr x = x ∧ unlines ys ++ y = s := by
      constructor
      · intro he
        exact first_newline_unique (fun hm => hx (mem_of_mem_chompCr hm)) hx he
      · rintro ⟨h1, h2⟩
        rw [h1, h2]
    rw [hsplit, chompCr_eq_self_iff, ih']
    simp

/-- Splitting into lines and joining them again gives the text back, except that `\r\n`
turns into `\n` and a single empty line is lost. -/
theorem normalize_eq_self_iff (s : Str) :
    normalize s = s ↔ hasCrlf s = false ∧ s ≠ ['\n'] := by
  unfold normalize
  cases h : endsNl s with
  | false =>
    rw [rebuild_false, joinLines_lines_iff h]
    constructor
    · intro hc
      refine ⟨hc, ?_⟩
      rintro rfl
      simp [endsNl] at h
    · exact And.left
  | true =>
    by_cases he : joinLines (lines s) = []
    · rw [rebuild_true_of_empty he]
      constructor
      · intro hs
        rw [← hs] at h
        simp [endsNl] at h
      · intro ⟨hc, hn⟩
        -- a terminated text whose only line is empty is a newline
        have hl := (unlines_lines_iff h).mpr hc
        have hone := ((joinLines_eq_nil_iff _).mp he).resolve_left (lines_ne_nil (ne_nil_of_endsNl h))
        rw [hone] at hl
        exact absurd hl.symm hn
    · rw [rebuild_true he, unlines_lines_iff h]
      constructor
      · intro hc
        refine ⟨hc, ?_⟩
        rintro rfl
        exact he rfl
      · exact And.left

/-- No terminated line ends in `\r\r\n`, so one pass of `lines` removes every `\r\n`. -/
@[grind] def ChompsOnce (s : Str) : Prop :=
  ∀ p ∈ splitInclusive s, endsNl p = true → (chompLine p).getLast? ≠ some '\r'

theorem chompsOnce_line {x : Str} (hx : '\n' ∉ x) (s : Str) :
    ChompsOnce (x ++ '\n' :: s) ↔ (chompCr x).getLast? ≠ some '\r' ∧ ChompsOnce s := by
  unfold ChompsOnce
  rw [splitInclusive_line hx, List.forall_mem_cons, chompLine_terminated]
  simp [endsNl]

/-- The lines of a text are terminated lines and at most one last line without terminator. -/
theorem lines_shape (h : ChompsOnce s) :
    ∃ ys x, lines s = ys ++ lines x ∧ '\n' ∉ x ∧ (∀ y ∈ ys, '\n' ∉ y ∧ chompCr y = y) ∧
      endsNl s = (x.isEmpty && !ys.isEmpty) := by
  induction s using line_induction with
  | nil => exact ⟨[], [], by simp [endsNl]⟩
  | last x hx hn =>
    refine ⟨[], x, rfl, hx, by simp, ?_⟩
    rw [endsNl_of_not_mem hx]
    simp
  | line x s hx ih =>
    rw [chompsOnce_line hx] at h
    obtain ⟨ys, y, hl, hy, hys, he⟩ := ih h.2
    refine ⟨chompCr x :: ys, y, by rw [lines_line hx, hl, List.cons_append], hy, ?_, ?_⟩
    · intro z hz
      rcases List.mem_cons.mp hz with rfl | hz
      · exact ⟨fun hm => hx (mem_of_mem_chompCr hm), chompCr_of_ne h.1⟩
      · exact hys z hz
    · rw [endsNl_line, he]
      by_cases hs : s = []
      · have hnil : ys ++ lines y = [] := by rw [← hl, hs]; rfl
        have hyn : y = [] := by
          by_contra hne
          exact lines_ne_nil hne (List.append_eq_nil_iff.mp hnil).2
        simp [hs, hyn]
      · have hne := lines_ne_nil hs
        rw [hl] at hne
        by_cases hyn : y = []
        · have : ys ≠ [] := by simpa [hyn] using hne
          simp [hs, hyn, this]
        · rw [List.isEmpty_eq_false_iff.mpr hs, List.isEmpty_eq_false_iff.mpr hyn]
          rfl

/-- Unless a single empty line is lost, the normalized text has the same lines. -/
theorem lines_normalize (h : ChompsOnce s) (hone : ¬(endsNl s = true ∧ lines s = [[]])) :
    lines (normalize s) = lines s ∧ endsNl (normalize s) = endsNl s := by
  obtain ⟨ys, x, hl, hx, hys, he⟩ := lines_shape h
  have hmap : ys.map chompCr = ys := by
    rw [List.map_congr_left fun y hy => (hys y hy).2, List.map_id']
  have hback : lines (unlines ys ++ x) = lines s := by
    rw [lines_unlines_append fun y hy => (hys y hy).1, hmap, hl]
  have hnorm : normalize s = unlines ys ++ x := by
    unfold normalize
    by_cases hxn : x = []
    · rw [hxn, lines_nil, List.append_nil] at hl
      by_cases hyn : ys = []
      · simp [hl, hyn, hxn, rebuild]
      · have ht : endsNl s = true := by simp [he, hxn, hyn]
        have hj : joinLines (lines s) ≠ [] := by
          intro hj
          rcases (joinLines_eq_nil_iff _).mp hj with h1 | h1
          · exact hyn (hl.symm.trans h1)
          · exact hone ⟨ht, h1⟩
        rw [ht, rebuild_true hj, hl, hxn, List.append_nil]
    · rw [lines_last hx hxn] at hl
      have hf : endsNl s = false := by simp [he, hxn]
      rw [hf, rebuild_false, hl, joinLines_concat]
  rw [hnorm, hback]
  refine ⟨rfl, ?_⟩
  by_cases hyn : ys = []
  · rw [he, hyn, unlines_nil, List.nil_append, endsNl_of_not_mem hx]
    simp
  · rw [endsNl_unlines_append ys hyn, he, endsNl_of_not_mem hx]
    simp [hyn]

/-- How many lines a joined list can have again. -/
theorem length_lines_rebuild {ls : List Str} (h : ∀ l ∈ ls, '\n' ∉ l) (nl : Bool) :
    (endsNl (rebuild ls nl) = false ∧ (lines (rebuild ls nl)).length ≤ ls.length) ∨
    (endsNl (rebuild ls nl) = true ∧
      (lines (rebuild ls nl)).length + (if nl then 0 else 1) ≤ ls.length) := by
  rcases List.eq_nil_or_concat ls with rfl | ⟨ys, x, rfl⟩
  · left
    cases nl <;> simp [rebuild, endsNl]
  · rw [List.concat_eq_append] at h ⊢
    have hys : ∀ y ∈ ys, '\n' ∉ y := fun y hy => h y (List.mem_append_left _ hy)
    have hx : '\n' ∉ x := h x (by simp)
    cases nl with
    | true =>
      by_cases hj : joinLines (ys ++ [x]) = []
      · left
        simp [rebuild_true_of_empty hj, endsNl]
      · right
        have hl := lines_unlines_append h []
        have he := endsNl_unlines_append (ys ++ [x]) (by simp) []
        rw [List.append_nil] at hl he
        rw [rebuild_true hj, hl, he]
        simp
    | false =>
      rw [rebuild_false, joinLines_concat, lines_unlines_append hys]
      by_cases hxn : x = []
      · by_cases hyn : ys = []
        · left
          simp [hxn, hyn, endsNl]
        · right
          rw [endsNl_unlines_append ys hyn]
          simp [hxn]
      · left
        rw [endsNl_append_of_ne_nil _ hxn, endsNl_of_not_mem hx, lines_last hx hxn]
        simp

end Join

end GrokBuild.Text
