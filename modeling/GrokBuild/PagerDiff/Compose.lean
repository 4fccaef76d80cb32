import Mathlib
import GrokBuild.PagerDiff.Stitch

/-!
# Stitching as composition

A later hunk is replayed on the earlier one row by row. What is shown stays a window from the first
text to the text that the rows read so far make of the second one.
-/

namespace GrokBuild.PagerDiff

open Text

variable {F G : List Str} {p q l pos maxLn : ℕ} {a b out rows pre post h : DiffHunk}
  {row r d i : DiffLine}

/-! ## One rendered row -/

theorem renderPos_spec (hpos : renderPos out l = some pos) (hr : out[pos]? = some r) :
    ∃ pre post, out = pre ++ r :: post ∧ pre.length = pos ∧ r.tag ≠ .delete ∧ r.ln = l := by
  obtain ⟨hlt, hfound, -⟩ := List.findIdx?_eq_some_iff_getElem.mp hpos
  obtain ⟨-, rfl⟩ := List.getElem?_eq_some_iff.mp hr
  rw [Bool.and_eq_true, bne_iff_ne, beq_iff_eq] at hfound
  refine ⟨out.take pos, out.drop (pos + 1), ?_, List.length_take_of_le hlt.le, hfound⟩
  rw [List.getElem_cons_drop, List.take_append_drop]

theorem set_middle (x : DiffLine) :
    (pre ++ r :: post).set pre.length x = pre ++ [x] ++ post := by
  rw [List.set_append_right _ _ (le_refl _), Nat.sub_self, List.set_cons_zero, List.append_cons]

theorem insertIdx_middle (x y : DiffLine) :
    (pre ++ [x] ++ post).insertIdx (pre.length + 1) y = pre ++ [x, y] ++ post := by
  induction pre with
  | nil => rfl
  | cons z pre ih =>
    simp only [List.cons_append, List.length_cons, List.insertIdx_succ_cons, ih]

/-- The number of a rendered row counts the rendered rows before it. -/
theorem ln_eq_of_numbered (hnum : Numbered (p + 1) (newNumbers (pre ++ r :: post)))
    (hr : r.tag ≠ .delete) : r.ln = p + 1 + (newRows pre).length := by
  rw [newNumbers_append, numbered_append] at hnum
  obtain ⟨-, hnum⟩ := hnum
  rw [newNumbers_cons_of_ne hr, numbered_cons, length_newNumbers] at hnum
  exact hnum.1

/-- No two rendered rows have one number. -/
theorem ln_ne_of_numbered (hnum : Numbered (p + 1) (newNumbers (pre ++ r :: post)))
    (hr : r.tag ≠ .delete) (hrow : row ∈ pre ++ post) (htag : row.tag ≠ .delete) :
    row.ln ≠ r.ln := by
  have hnodup := hnum.nodup
  rw [newNumbers_append, newNumbers_cons_of_ne hr, List.nodup_middle, List.nodup_cons] at hnodup
  intro heq
  refine hnodup.1 (List.mem_append.mpr ?_)
  rw [← heq]
  obtain hrow | hrow := List.mem_append.mp hrow
  · exact .inl (mem_newNumbers.mpr ⟨row, hrow, htag, rfl⟩)
  · exact .inr (mem_newNumbers.mpr ⟨row, hrow, htag, rfl⟩)

/-! ## Replacing a row -/

/-- The rows `new` take the place of the row `r` that shows line `l`. -/
structure Replaces (l : ℕ) (r : DiffLine) (new : DiffHunk) (text : Str) : Prop where
  old : oldText new = oldText [r]
  newText : newText new = [text]
  newNumbers : newNumbers new = [l]
  plain : ∀ x ∈ new, x.tag ≠ .equal
  running : RunningLn l new

theorem Replaces.newRows_length {new : DiffHunk} {text : Str} (h : Replaces l r new text) :
    (newRows new).length = 1 := by
  rw [← length_newText, h.newText]
  rfl

theorem Replaces.oldRows_length {new : DiffHunk} {text : Str} (h : Replaces l r new text) :
    (oldRows new).length = (oldRows [r]).length := by
  rw [← length_oldText, h.old, length_oldText]

theorem Replaces.length_oldRows {new : DiffHunk} {text : Str} (h : Replaces l r new text) :
    (oldRows (pre ++ new ++ post)).length = (oldRows (pre ++ r :: post)).length := by
  rw [List.append_cons, oldRows_append, oldRows_append, oldRows_append, oldRows_append]
  simp only [List.length_append, h.oldRows_length]

theorem Replaces.length_newRows {new : DiffHunk} {text : Str} (h : Replaces l r new text)
    (hr : r.tag ≠ .delete) :
    (newRows (pre ++ new ++ post)).length = (newRows (pre ++ r :: post)).length := by
  rw [newRows_append, newRows_append, newRows_append, newRows_cons_of_ne hr]
  simp only [List.length_append, List.length_cons, h.newRows_length]
  omega

/-- The pair of a deleted and an inserted row takes the place of an equal row. -/
theorem replaces_equal (hr : r.tag = .equal) (hd : d.tag = .delete) (hi : i.tag = .insert)
    (hdl : d.ln = l) (hl : i.ln = l) (htext : trimmed r.text = trimmed d.text) :
    Replaces l r [d, i] (trimmed i.text) := by
  constructor
  · simp [oldText, oldRows, hr, hd, hi, htext]
  · simp [newText, newRows, hd, hi]
  · simp [newNumbers, newRows, hd, hi, hl]
  · simp [hd, hi]
  · simp [RunningLn, hd, hdl, hl]

theorem replaces_insert (hr : r.tag = .insert) (hi : i.tag = .insert) (hl : i.ln = l) :
    Replaces l r [i] (trimmed i.text) := by
  constructor
  · simp [oldText, oldRows, hr, hi]
  · simp [newText, newRows, hi]
  · simp [newNumbers, newRows, hi, hl]
  · simp [hi]
  · simp [RunningLn, hl]

/-- The new text changes in line `l` alone. -/
theorem ShowsAt.replace {new above below : _} {text line : Str}
    (h : ShowsAt F (above ++ line :: below) p (pre ++ r :: post)) (hr : r.tag ≠ .delete)
    (hnew : Replaces r.ln r new text) (habove : above.length + 1 = r.ln) :
    ShowsAt F (above ++ text :: below) p (pre ++ new ++ post) := by
  obtain ⟨⟨top, rest, htop, hF, hG⟩, hnum⟩ := h
  have hln := ln_eq_of_numbered hnum hr
  have hsplit : newText (pre ++ r :: post) = newText pre ++ trimmed r.text :: newText post := by
    rw [newText_append, newText_cons_of_ne hr]
  have hold : oldText (pre ++ new ++ post) = oldText (pre ++ r :: post) := by
    rw [← List.singleton_append (x := r), oldText_append, oldText_append, oldText_append,
      oldText_append, hnew.old, List.append_assoc]
  have hsame : above = top ++ newText pre ∧
      line :: below = trimmed r.text :: newText post ++ rest := by
    refine List.append_inj ?_ ?_
    · rw [hG, hsplit]
      simp only [List.append_assoc, List.cons_append]
    · rw [List.length_append, length_newText]
      omega
  obtain ⟨rfl, hbelow⟩ := hsame
  rw [List.cons_append, List.cons_eq_cons] at hbelow
  refine ⟨⟨top, rest, htop, ?_, ?_⟩, ?_⟩
  · rw [hold]
    exact hF
  · rw [newText_append, newText_append, hnew.newText, hbelow.2]
    simp only [List.append_assoc, List.cons_append, List.nil_append]
  · rw [newNumbers_append, newNumbers_cons_of_ne hr] at hnum
    rw [newNumbers_append, newNumbers_append, hnew.newNumbers, List.append_assoc]
    exact hnum

/-! ## The numbers of the old text -/

/-- The equal rows have the numbers of their lines. -/
def EqualLo : ℕ → DiffHunk → Prop
  | _, [] => True
  | lo, row :: rows =>
    (row.tag = .equal → row.lo = lo) ∧ EqualLo (if row.tag = .insert then lo else lo + 1) rows

theorem equalLo_append {lo : ℕ} :
    EqualLo lo (pre ++ post) ↔ EqualLo lo pre ∧ EqualLo (lo + (oldRows pre).length) post := by
  induction pre generalizing lo with
  | nil => simp [EqualLo]
  | cons row pre ih =>
    rw [List.cons_append, EqualLo, EqualLo, ih, and_assoc]
    by_cases htag : row.tag = .insert
    · rw [if_pos htag, oldRows_cons_insert htag]
    · rw [if_neg htag, oldRows_cons_of_ne htag, List.length_cons, Nat.add_assoc,
        Nat.add_comm 1]

theorem equalLo_of_numbered {lo : ℕ} (h : Numbered lo (oldNumbers out)) : EqualLo lo out := by
  induction out generalizing lo with
  | nil => trivial
  | cons row out ih =>
    rw [EqualLo]
    by_cases htag : row.tag = .insert
    · rw [oldNumbers, oldRows_cons_insert htag] at h
      rw [if_pos htag, htag]
      exact ⟨(fun hequal => by cases hequal), ih h⟩
    · rw [oldNumbers_cons_of_ne htag, numbered_cons] at h
      rw [if_neg htag]
      exact ⟨fun _ => h.1, ih h.2⟩

theorem equalLo_of_plain {lo : ℕ} (h : ∀ x ∈ out, x.tag ≠ .equal) : EqualLo lo out := by
  induction out generalizing lo with
  | nil => trivial
  | cons x out ih =>
    rw [List.forall_mem_cons] at h
    exact ⟨fun heq => absurd heq h.1, ih h.2⟩

theorem EqualLo.replace {new : DiffHunk} {text : Str} (h : EqualLo (p + 1) (pre ++ r :: post))
    (hnew : Replaces l r new text) : EqualLo (p + 1) (pre ++ new ++ post) := by
  rw [← List.singleton_append, ← List.append_assoc, equalLo_append, equalLo_append] at h
  obtain ⟨⟨hpre, -⟩, hpost⟩ := h
  rw [equalLo_append, equalLo_append]
  refine ⟨⟨hpre, equalLo_of_plain hnew.plain⟩, ?_⟩
  rw [oldRows_append, List.length_append, hnew.oldRows_length, ← List.length_append,
    ← oldRows_append]
  exact hpost

theorem RunningLn.replace {new : DiffHunk} {text : Str} {ln : ℕ}
    (h : RunningLn ln (pre ++ r :: post)) (hr : r.tag ≠ .delete)
    (hnew : Replaces r.ln r new text) : RunningLn ln (pre ++ new ++ post) := by
  rw [runningLn_append, RunningLn, if_neg hr] at h
  obtain ⟨hpre, hln, hpost⟩ := h
  have hrunning := hnew.running
  rw [hln] at hrunning
  rw [runningLn_append, runningLn_append]
  refine ⟨⟨hpre, hrunning⟩, ?_⟩
  rw [newRows_append, List.length_append, hnew.newRows_length]
  exact hpost

/-- Some row behind the coverage belongs to the old side. -/
def OldBehind (maxLn : ℕ) (rows : DiffHunk) : Prop := ∃ r ∈ rows, r.tag ≠ .insert ∧ maxLn < r.ln

theorem oldBehind_equal (hmax : row.ln ≤ maxLn) :
    OldBehind maxLn (row :: rows) ↔ OldBehind maxLn rows := by
  constructor
  · rintro ⟨x, hx, htag, hlt⟩
    obtain rfl | hx := List.mem_cons.mp hx
    · omega
    · exact ⟨x, hx, htag, hlt⟩
  · rintro ⟨x, hx, htag, hlt⟩
    exact ⟨x, List.mem_cons_of_mem _ hx, htag, hlt⟩

theorem oldBehind_pair {after : DiffHunk} (hi : i.tag = .insert) (hmax : d.ln ≤ maxLn) :
    OldBehind maxLn (d :: i :: after) ↔ OldBehind maxLn after := by
  rw [oldBehind_equal hmax]
  constructor
  · rintro ⟨x, hx, htag, hlt⟩
    obtain rfl | hx := List.mem_cons.mp hx
    · exact absurd hi htag
    · exact ⟨x, hx, htag, hlt⟩
  · rintro ⟨x, hx, htag, hlt⟩
    exact ⟨x, List.mem_cons_of_mem _ hx, htag, hlt⟩

/-- What is shown and what the rest of the later hunk is about line up. -/
structure LinesUpFrom (maxLn : ℕ) (out rows : DiffHunk) : Prop where
  edited : ∀ r ∈ out, r.tag = .equal → (∃ d ∈ rows, d.tag = .delete ∧ d.ln = r.ln) → r.lo = r.ln
  behind : OldBehind maxLn rows → (oldRows out).length = (newRows out).length

/-- The rows shown so far, and the text that the later hunk has come to. -/
structure Folding (F G : List Str) (p maxLn : ℕ) (out : DiffHunk) : Prop
    extends ShowsAt F G p out where
  equals : EqualLo (p + 1) out
  coverage : maxLn = p + (newRows out).length

theorem Folding.replace {top rest : List Str} {line text : Str} {new : DiffHunk}
    (h : Folding F (top ++ line :: rest) p maxLn (pre ++ r :: post)) (hr : r.tag ≠ .delete)
    (hnew : Replaces r.ln r new text) (htop : top.length + 1 = r.ln) :
    Folding F (top ++ text :: rest) p maxLn (pre ++ new ++ post) := by
  refine ⟨h.toShowsAt.replace hr hnew htop, h.equals.replace hnew, ?_⟩
  rw [h.coverage, hnew.length_newRows hr]

/-- What a pair in the later hunk asks of the row it takes the place of. -/
theorem linesUpFrom_pair {new after : DiffHunk} {text : Str}
    (hnum : Numbered (p + 1) (newNumbers (pre ++ r :: post))) (hr : r.tag ≠ .delete)
    (hnew : Replaces r.ln r new text) (hd : d.tag = .delete) (hln : d.ln = r.ln)
    (hi : i.tag = .insert) (hmax : r.ln ≤ maxLn) :
    LinesUpFrom maxLn (pre ++ r :: post) (d :: i :: after) ↔
      (r.tag = .equal → r.lo = r.ln) ∧ LinesUpFrom maxLn (pre ++ new ++ post) after := by
  have hother : ∀ x ∈ pre ++ post, x.tag = .equal → x.ln ≠ r.ln := by
    intro x hx htag
    exact ln_ne_of_numbered hnum hr hx (by simp [htag])
  have hnewRows := @Replaces.length_newRows _ pre post _ _ _ hnew hr
  have hbehindIff := @oldBehind_pair _ d _ after hi (hln.trans_le hmax)
  constructor
  · rintro ⟨hedited, hbehind⟩
    rw [hbehindIff] at hbehind
    refine ⟨fun htag => hedited r (by simp) htag ⟨d, by simp, hd, hln⟩, ?_, ?_⟩
    · intro x hx htag ⟨e, he, hedel, heln⟩
      refine hedited x ?_ htag ⟨e, by simp [he], hedel, heln⟩
      rw [List.append_assoc, List.mem_append, List.mem_append] at hx
      obtain hx | hx | hx := hx
      · simp [hx]
      · exact absurd htag (hnew.plain x hx)
      · simp [hx]
    · rw [hnewRows, hnew.length_oldRows]
      exact hbehind
  · rintro ⟨hrow, hedited, hbehind⟩
    rw [← hbehindIff, hnewRows, hnew.length_oldRows] at hbehind
    constructor
    · intro x hx htag ⟨e, he, hedel, heln⟩
      obtain rfl | hx := List.mem_cons.mp (List.perm_middle.mem_iff.mp hx)
      · exact hrow htag
      · obtain rfl | he := List.mem_cons.mp he
        · exact absurd (heln.symm.trans hln) (hother x hx htag)
        · obtain rfl | he := List.mem_cons.mp he
          · rw [hi] at hedel
            cases hedel
          · refine hedited x ?_ htag ⟨e, he, hedel, heln⟩
            rw [List.append_assoc, List.mem_append, List.mem_append]
            obtain hx | hx := List.mem_append.mp hx
            · exact .inl hx
            · exact .inr (.inr hx)
    · exact hbehind

/-- An equal row of the later hunk asks nothing. -/
theorem linesUpFrom_equal (hrow : row.tag = .equal) (hmax : row.ln ≤ maxLn) :
    LinesUpFrom maxLn out (row :: rows) ↔ LinesUpFrom maxLn out rows := by
  constructor
  · rintro ⟨hedited, hbehind⟩
    rw [oldBehind_equal hmax] at hbehind
    exact ⟨fun x hx htag ⟨e, he, hdel, hln⟩ => hedited x hx htag ⟨e, by simp [he], hdel, hln⟩,
      hbehind⟩
  · rintro ⟨hedited, hbehind⟩
    rw [← oldBehind_equal hmax] at hbehind
    refine ⟨?_, hbehind⟩
    intro x hx htag ⟨e, he, hdel, hln⟩
    obtain rfl | he := List.mem_cons.mp he
    · rw [hrow] at hdel
      cases hdel
    · exact hedited x hx htag ⟨e, he, hdel, hln⟩

/-- What stitching the rows makes of the rows shown. -/
structure Stitched (F H : List Str) (p maxLn : ℕ) (out rows h : DiffHunk) : Prop where
  shows : ShowsAt F H p h
  old : Numbered (p + 1) (oldNumbers h) ↔
    Numbered (p + 1) (oldNumbers out) ∧ LinesUpFrom maxLn out rows
  running : RunningLn (p + 1) out → RunningLn (p + 1) h
  rendered : (newRows out).length ≤ (newRows h).length
  oldNone : oldRows h = [] ↔ oldRows out = [] ∧ ¬ OldBehind maxLn rows

theorem linesUpFrom_nil : LinesUpFrom maxLn out [] :=
  ⟨fun _ _ _ ⟨_, he, _⟩ => absurd he List.not_mem_nil, fun ⟨_, hx, _⟩ => absurd hx List.not_mem_nil⟩

theorem spliceTail_eq (hs : spliceTail out maxLn rows = .stitched h) : h = out ++ rows := by
  induction rows generalizing out maxLn with
  | nil =>
    rw [List.append_nil]
    exact (Stitch.stitched.inj hs).symm
  | cons row rows ih =>
    rw [spliceTail] at hs
    split_ifs at hs
    · rw [ih hs, List.append_assoc, List.singleton_append]
    · rw [ih hs, List.append_assoc, List.singleton_append]

/-- Behind the coverage the later hunk is the only source. -/
theorem Folding.tail {top rest : List Str}
    (hfold : Folding F (top ++ oldText rows ++ rest) p maxLn out)
    (hrun : RunningLn (top.length + 1) rows) (hold : Numbered (top.length + 1) (oldNumbers rows))
    (htop : top.length = maxLn) :
    Stitched F (top ++ newText rows ++ rest) p maxLn out rows (out ++ rows) := by
  obtain ⟨⟨⟨above, below, habove, hF, hG⟩, hnum⟩, -, hcov⟩ := hfold
  have hshown : top = above ++ newText out ∧ oldText rows ++ rest = below := by
    rw [List.append_assoc] at hG
    refine List.append_inj hG ?_
    rw [List.length_append, length_newText]
    omega
  obtain ⟨rfl, rfl⟩ := hshown
  rw [htop, hcov] at hrun hold
  refine ⟨⟨⟨above, rest, habove, ?_, ?_⟩, ?_⟩, ?_, fun hout => ?_, ?_, ?_⟩
  · rw [hF, oldText_append]
    simp only [List.append_assoc]
  · rw [newText_append]
    simp only [List.append_assoc]
  · rw [newNumbers_append, numbered_append, length_newNumbers]
    refine ⟨hnum, ?_⟩
    have hrows := hrun.numbered
    rw [Nat.add_right_comm] at hrows
    exact hrows
  · rw [oldNumbers_append, numbered_append, length_oldNumbers]
    refine and_congr_right fun _ => ?_
    constructor
    · intro htail
      refine ⟨?_, ?_⟩
      · intro x hx htag ⟨e, he, _, hln⟩
        have hxln : x.ln ∈ newNumbers out := mem_newNumbers.mpr ⟨x, hx, by simp [htag], rfl⟩
        have hlow := hrun.le he
        have hhigh := (hnum.bounds hxln).2
        rw [length_newNumbers] at hhigh
        omega
      · rintro ⟨x, hx, htag, -⟩
        have hmem : x.lo ∈ oldNumbers rows :=
          List.mem_map_of_mem (List.mem_filter.mpr ⟨hx, bne_iff_ne.mpr htag⟩)
        cases hcase : oldNumbers rows with
        | nil =>
          rw [hcase] at hmem
          cases hmem
        | cons n l =>
          rw [hcase, numbered_cons] at htail hold
          omega
    · rintro ⟨-, hbehind⟩
      by_cases hnone : oldRows rows = []
      · rw [oldNumbers, hnone]
        exact numbered_nil
      · obtain ⟨x, hx⟩ := List.exists_mem_of_ne_nil _ hnone
        obtain ⟨hx, htag⟩ := List.mem_filter.mp hx
        have hlow := hrun.le hx
        rw [hbehind ⟨x, hx, bne_iff_ne.mp htag, by omega⟩]
        rw [Nat.add_right_comm] at hold
        exact hold
  · rw [runningLn_append]
    rw [Nat.add_right_comm] at hrun
    exact ⟨hout, hrun⟩
  · rw [newRows_append, List.length_append]
    exact Nat.le_add_right _ _
  · rw [oldRows_append, List.append_eq_nil_iff]
    refine and_congr_right fun _ => ?_
    constructor
    · rintro hnone ⟨x, hx, htag, -⟩
      have hmem : x ∈ oldRows rows := List.mem_filter.mpr ⟨hx, bne_iff_ne.mpr htag⟩
      rw [hnone] at hmem
      cases hmem
    · intro hbehind
      by_contra hsome
      obtain ⟨x, hx⟩ := List.exists_mem_of_ne_nil _ hsome
      obtain ⟨hx, htag⟩ := List.mem_filter.mp hx
      have hlow := hrun.le hx
      exact hbehind ⟨x, hx, bne_iff_ne.mp htag, by omega⟩

/-- The pair that an equal row gives way to has the number of the intermediate text. -/
theorem numbered_replace_equal (hlo : EqualLo (p + 1) (pre ++ r :: post)) (hr : r.tag = .equal)
    (hd : d.tag = .delete) (hi : i.tag = .insert) (hdlo : d.lo = r.ln) :
    Numbered (p + 1) (oldNumbers (pre ++ [d, i] ++ post)) ↔
      Numbered (p + 1) (oldNumbers (pre ++ r :: post)) ∧ r.lo = r.ln := by
  rw [equalLo_append, EqualLo] at hlo
  have hrlo := hlo.2.1 hr
  have hpair : oldNumbers [d, i] = [d.lo] := by simp [oldNumbers, oldRows, hd, hi]
  rw [oldNumbers_append, oldNumbers_append, hpair, oldNumbers_append,
    oldNumbers_cons_of_ne (by simp [hr]), List.append_assoc, List.singleton_append,
    numbered_append, numbered_cons, numbered_append, numbered_cons, length_oldNumbers, hdlo, hrlo]
  tauto

theorem oldNumbers_replace_insert (hr : r.tag = .insert) (hi : i.tag = .insert) :
    oldNumbers (pre ++ [i] ++ post) = oldNumbers (pre ++ r :: post) := by
  have hnone : oldNumbers [i] = [] := by simp [oldNumbers, oldRows, hi]
  rw [oldNumbers_append, oldNumbers_append, hnone, oldNumbers_append, List.append_nil]
  congr 1
  rw [oldNumbers, oldNumbers, oldRows_cons_insert hr]

/-- What is left of the later hunk behind a pair in the covered range. -/
structure PairRead (top : List Str) (d i : DiffLine) (after : DiffHunk) : Prop where
  lo : d.lo = top.length + 1
  ln : d.ln = top.length + 1
  oldText : oldText (d :: i :: after) = trimmed d.text :: oldText after
  newText : newText (d :: i :: after) = trimmed i.text :: newText after
  running : RunningLn ((top ++ [trimmed i.text]).length + 1) after
  old : Numbered ((top ++ [trimmed i.text]).length + 1) (oldNumbers after)

theorem pairRead {top : List Str} {after : DiffHunk} (hd : d.tag = .delete) (hi : i.tag = .insert)
    (hrun : RunningLn (top.length + 1) (d :: i :: after))
    (hold : Numbered (top.length + 1) (oldNumbers (d :: i :: after))) :
    PairRead top d i after := by
  have hdold : d.tag ≠ .insert := by simp [hd]
  have hinew : i.tag ≠ .delete := by simp [hi]
  have hlen : (top ++ [trimmed i.text]).length = top.length + 1 := by simp
  have hrows : oldRows (d :: i :: after) = d :: oldRows after := by
    rw [oldRows_cons_of_ne hdold, oldRows_cons_insert hi]
  rw [RunningLn, if_pos hd, RunningLn, if_neg hinew] at hrun
  rw [oldNumbers, hrows, List.map_cons, numbered_cons] at hold
  constructor
  · exact hold.1
  · exact hrun.1
  · rw [PagerDiff.oldText, hrows]
    rfl
  · rw [PagerDiff.newText, newRows_cons_delete hd, newRows_cons_of_ne hinew]
    rfl
  · rw [hlen]
    exact hrun.2.2
  · rw [hlen]
    exact hold.2

theorem PairRead.length_le {top : List Str} {after : DiffHunk} (h : PairRead top d i after)
    (hmax : d.ln ≤ maxLn) : (top ++ [trimmed i.text]).length ≤ maxLn := by
  have hln := h.ln
  rw [List.length_append, List.length_singleton]
  omega

theorem Folding.next {top rest : List Str} {after new : DiffHunk}
    (hfold : Folding F (top ++ oldText (d :: i :: after) ++ rest) p maxLn (pre ++ r :: post))
    (hread : PairRead top d i after) (hr : r.tag ≠ .delete) (hln : r.ln = d.ln)
    (hnew : Replaces r.ln r new (trimmed i.text)) :
    Folding F ((top ++ [trimmed i.text]) ++ oldText after ++ rest) p maxLn
      (pre ++ new ++ post) := by
  rw [hread.oldText, List.append_assoc, List.cons_append] at hfold
  rw [List.append_assoc, List.append_assoc, List.singleton_append]
  exact hfold.replace hr hnew (hread.ln.symm.trans hln.symm)

theorem Replaces.oldRows_eq_nil {new : DiffHunk} {text : Str} (h : Replaces l r new text) :
    oldRows (pre ++ new ++ post) = [] ↔ oldRows (pre ++ r :: post) = [] := by
  rw [← List.length_eq_zero_iff, h.length_oldRows, List.length_eq_zero_iff]

theorem stitchRows_stitched {top rest : List Str}
    (hfold : Folding F (top ++ oldText rows ++ rest) p maxLn out)
    (hrun : RunningLn (top.length + 1) rows) (hold : Numbered (top.length + 1) (oldNumbers rows))
    (hhigh : top.length ≤ maxLn) (hs : stitchRows maxLn out rows = .stitched h) :
    Stitched F (top ++ newText rows ++ rest) p maxLn out rows h := by
  fun_induction stitchRows maxLn out rows generalizing top with
  | case1 out =>
    obtain rfl := Stitch.stitched.inj hs
    refine ⟨hfold.toShowsAt, (and_iff_left linesUpFrom_nil).symm, id, le_rfl, ?_⟩
    exact (and_iff_left fun ⟨_, hx, _⟩ => absurd hx List.not_mem_nil).symm
  | case2 out row rows hlt =>
    obtain rfl := spliceTail_eq hs
    have hln : row.ln = top.length + 1 := hrun.1
    exact hfold.tail hrun hold (by omega)
  | case5 out row hmax rows htag shown hshown htext ih =>
    have hln : row.ln = top.length + 1 := hrun.1
    have hne : row.tag ≠ .insert := by simp [htag]
    have hnd : row.tag ≠ .delete := by simp [htag]
    have hrest := hrun.2
    rw [if_neg hnd] at hrest
    rw [oldNumbers_cons_of_ne hne, numbered_cons] at hold
    rw [oldText_cons_of_ne hne] at hfold
    have hlen : (top ++ [trimmed row.text]).length = top.length + 1 := by simp
    obtain ⟨hshows, hiff, hrunning, hrendered, hnone⟩ := ih
      (show Folding F (top ++ [trimmed row.text] ++ oldText rows ++ rest) p maxLn out by
        simpa using hfold) (by rwa [hlen]) (by rw [hlen]; exact hold.2) (by omega) hs
    refine ⟨?_, ?_, hrunning, hrendered, ?_⟩
    · rw [newText_cons_of_ne hnd]
      simpa using hshows
    · rw [linesUpFrom_equal htag (by omega)]
      exact hiff
    · rw [oldBehind_equal (by omega)]
      exact hnone
  | case11 out row hmax next after htag hpair pos hpos shown hshown htext hequal ih =>
    obtain ⟨pre, post, rfl, rfl, hr, hln⟩ := renderPos_spec hpos hshown
    rw [set_middle, insertIdx_middle] at ih hs
    rw [not_or, not_not, not_not] at hpair
    rw [not_not] at htext
    have hread := pairRead htag hpair.1 hrun hold
    have hnew := replaces_equal hequal htag hpair.1 hln.symm (hpair.2.trans hln.symm) htext
    obtain ⟨hshows, hiff, hrunning, hrendered, hnone⟩ := ih (hfold.next hread hr hln hnew)
      hread.running hread.old (hread.length_le (by omega)) hs
    rw [hnew.length_newRows hr] at hrendered
    refine ⟨?_, ?_, fun hout => hrunning (hout.replace hr hnew), hrendered, ?_⟩
    · rw [hread.newText]
      simpa using hshows
    · have hlo := numbered_replace_equal hfold.equals hequal htag hpair.1
        (hread.lo.trans (hread.ln.symm.trans hln.symm))
      rw [hiff, hlo, linesUpFrom_pair hfold.new hr hnew htag hln.symm hpair.1 (by omega), and_assoc]
      simp only [hequal, forall_const]
    · rw [hnone, hnew.oldRows_eq_nil, oldBehind_pair hpair.1 (by omega)]
  | case12 out row hmax next after htag hpair pos hpos shown hshown htext hinsert ih =>
    obtain ⟨pre, post, rfl, rfl, hr, hln⟩ := renderPos_spec hpos hshown
    rw [set_middle] at ih hs
    rw [not_or, not_not, not_not] at hpair
    have hread := pairRead htag hpair.1 hrun hold
    have hnew := replaces_insert hinsert hpair.1 (hpair.2.trans hln.symm)
    obtain ⟨hshows, hiff, hrunning, hrendered, hnone⟩ := ih (hfold.next hread hr hln hnew)
      hread.running hread.old (hread.length_le (by omega)) hs
    rw [hnew.length_newRows hr] at hrendered
    refine ⟨?_, ?_, fun hout => hrunning (hout.replace hr hnew), hrendered, ?_⟩
    · rw [hread.newText]
      simpa using hshows
    · rw [hiff, oldNumbers_replace_insert hinsert hpair.1,
        linesUpFrom_pair hfold.new hr hnew htag hln.symm hpair.1 (by omega), hinsert]
      simp only [reduceCtorEq, false_implies, true_and]
    · rw [hnone, hnew.oldRows_eq_nil, oldBehind_pair hpair.1 (by omega)]
  | _ => cases hs

end GrokBuild.PagerDiff
