import Mathlib
import GrokBuild.PagerDiff.Compose

/-!
# Folded hunks

The hunk that a pair is stitched into shows the right texts under the right new numbers. Its old
numbers are those of the first text only where the two hunks line up, since the rows of the later
hunk keep the numbers of the text between.
-/

namespace GrokBuild.PagerDiff

open Text

variable {F₀ F₁ F₂ : Str} {p q maxLn : ℕ} {a b out rows h : DiffHunk}

/-! ## The arm that is never reached -/

theorem spliceTail_ne_unreachable : spliceTail out maxLn rows ≠ .unreachable := by
  induction rows generalizing out maxLn with
  | nil => exact fun h => by cases h
  | cons row rows ih =>
    rw [spliceTail]
    split_ifs
    · exact fun h => by cases h
    · exact ih
    · exact ih

/-- A position of a rendered row is never that of a deleted one. -/
theorem stitchRows_ne_unreachable : stitchRows maxLn out rows ≠ .unreachable := by
  fun_induction stitchRows maxLn out rows with
  | case2 => exact spliceTail_ne_unreachable
  | case5 _ _ _ _ _ _ _ _ ih => exact ih
  | case11 _ _ _ _ _ _ _ _ _ _ _ _ _ ih => exact ih
  | case12 _ _ _ _ _ _ _ _ _ _ _ _ _ ih => exact ih
  | case13 out row hmax next after htag hpair pos hpos shown hshown htext hdelete =>
    obtain ⟨-, -, -, -, hr, -⟩ := renderPos_spec hpos hshown
    exact absurd hdelete hr
  | _ => exact fun h => by cases h

theorem stitchHunkPair_ne_unreachable (a b : DiffHunk) : stitchHunkPair a b ≠ .unreachable := by
  unfold stitchHunkPair
  split
  · split_ifs
    · exact fun h => by cases h
    · exact stitchRows_ne_unreachable
  · exact fun h => by cases h

/-! ## One pair -/

/-- The old numbers that a pair of hunks carries over are those of the first text: of an equal row
that the later hunk edits, and of what the later hunk has behind the earlier one. -/
structure LinesUp (p : ℕ) (a b : DiffHunk) : Prop
    extends LinesUpFrom (p + (newRows a).length) a b where
  header : oldRows a = [] → p = 0

theorem stitchHunkPair_stitched (ha : WindowAt F₀ F₁ p a) (hb : BuiltAt F₁ F₂ q b)
    (hs : stitchHunkPair a b = .stitched h) :
    newRows a ≠ [] ∧ Stitched (fileLines F₀) (fileLines F₂) p (p + (newRows a).length) a b h := by
  rw [stitchHunkPair] at hs
  split at hs
  · rename_i aMin aMax bMin bMax hrangeA hrangeB
    rw [renderRange_of_numbered ha.new] at hrangeA
    rw [renderRange_of_numbered hb.new] at hrangeB
    obtain ⟨hne, rfl, rfl⟩ := hrangeA
    obtain ⟨-, rfl, -⟩ := hrangeB
    split_ifs at hs with hrange
    obtain ⟨top, rest, rfl, hF, hG⟩ := hb.exists_rest
    have hshows := ha.toShowsAt
    rw [hF] at hshows
    rw [hG]
    refine ⟨hne, stitchRows_stitched ⟨hshows, equalLo_of_numbered ha.old, rfl⟩ hb.running hb.old
      (by omega) hs⟩
  · cases hs

theorem hunkHeader_newStart (hnum : Numbered (p + 1) (newNumbers h)) (hne : newRows h ≠ []) :
    (hunkHeader h).newStart = p + 1 := by
  have hstart : (hunkHeader h).newStart = (newNumbers h).head?.getD 1 := rfl
  rw [hstart, hnum, length_newNumbers]
  obtain ⟨row, rows, hrows⟩ := List.exists_cons_of_ne_nil hne
  rw [hrows]
  rfl

/-- A header names line 1 where the hunk has no row of the old text. -/
theorem hunkHeader_oldStart (hnum : Numbered (p + 1) (oldNumbers h)) :
    (hunkHeader h).oldStart = if oldRows h = [] then 1 else p + 1 := by
  have hstart : (hunkHeader h).oldStart = (oldNumbers h).head?.getD 1 := rfl
  rw [hstart, hnum, length_oldNumbers]
  split_ifs with hnone
  · rw [hnone]
    rfl
  · obtain ⟨row, rows, hrows⟩ := List.exists_cons_of_ne_nil hnone
    rw [hrows]
    rfl

/-- What the stitched hunk is for: one window from the first text to the last, whose header in the
patch of the folded list has its position in both. -/
def Composes (F₀ F₂ : Str) (a b h : DiffHunk) : Prop :=
  ∃ p, WindowAt F₀ F₂ p h ∧ ∃ folded, stitchOverlappingHunks [a, b] = some folded ∧
    ∀ hunk ∈ folded, (hunkHeader hunk).oldStart = p + 1 ∧ (hunkHeader hunk).newStart = p + 1

theorem stitchOverlappingHunks_pair (hs : stitchHunkPair a b = .stitched h) :
    stitchOverlappingHunks [a, b] = some [h] := by
  simp [stitchOverlappingHunks, stitchInto, hs]

/-- The first rendered row says where the window stands. -/
theorem position_unique {F F' G G' : List Str} (h₁ : ShowsAt F G p h) (h₂ : ShowsAt F' G' q h)
    (hne : newRows h ≠ []) : p = q := by
  have hp := hunkHeader_newStart h₁.new hne
  have hq := hunkHeader_newStart h₂.new hne
  omega

theorem composes_iff (ha : WindowAt F₀ F₁ p a) (hb : BuiltAt F₁ F₂ q b)
    (hs : stitchHunkPair a b = .stitched h) : Composes F₀ F₂ a b h ↔ LinesUp p a b := by
  obtain ⟨hne, hshows, hold, -, hrendered, hnone⟩ := stitchHunkPair_stitched ha hb hs
  have hfold := stitchOverlappingHunks_pair hs
  have hrows : newRows h ≠ [] := by
    have hpos := List.length_pos_of_ne_nil hne
    exact List.ne_nil_of_length_pos (hpos.trans_le hrendered)
  -- a hunk of inserted rows alone lines up with nothing behind it
  have hkeeps : LinesUpFrom (p + (newRows a).length) a b → (oldRows h = [] ↔ oldRows a = []) := by
    intro hline
    rw [hnone]
    refine and_iff_left_of_imp fun hempty hbehind => hne ?_
    have hlen := hline.behind hbehind
    rw [hempty] at hlen
    exact List.length_eq_zero_iff.mp hlen.symm
  constructor
  · rintro ⟨r, hwindow, folded, hfolded, hheaders⟩
    obtain rfl : p = r := position_unique hshows hwindow.toShowsAt hrows
    obtain rfl := Option.some.inj (hfold.symm.trans hfolded)
    have hline := (hold.mp hwindow.old).2
    refine ⟨hline, fun hempty => ?_⟩
    have hstart := (hheaders h (List.mem_singleton_self h)).1
    rw [hunkHeader_oldStart hwindow.old, if_pos ((hkeeps hline).mpr hempty)] at hstart
    omega
  · rintro ⟨hline, hheader⟩
    have hnumbered := hold.mpr ⟨ha.old, hline⟩
    refine ⟨p, ⟨hshows, hnumbered⟩, [h], hfold, fun hunk hmem => ?_⟩
    obtain rfl := List.mem_singleton.mp hmem
    refine ⟨?_, hunkHeader_newStart hshows.new hrows⟩
    rw [hunkHeader_oldStart hnumbered]
    split_ifs with hempty
    · rw [hheader ((hkeeps hline).mp hempty)]
    · rfl

/-- For windows on three texts the panic is not reached, and the stitched hunk is the window from
the first text to the last if and only if the two line up. -/
theorem stitch_composes_iff (ha : WindowAt F₀ F₁ p a) (hb : BuiltAt F₁ F₂ q b) :
    stitchHunkPair a b ≠ .unreachable ∧
      ∀ h, stitchHunkPair a b = .stitched h → (Composes F₀ F₂ a b h ↔ LinesUp p a b) :=
  ⟨stitchHunkPair_ne_unreachable a b, fun _ hs => composes_iff ha hb hs⟩

/-- `x` becomes `y`, and then `y` becomes `z`. -/
theorem stitch_composes_iff_double_edit :
    stitchHunkPair [⟨['x', '\n'], 1, 1, .delete⟩, ⟨['y', '\n'], 2, 1, .insert⟩]
        [⟨['y', '\n'], 1, 1, .delete⟩, ⟨['z', '\n'], 2, 1, .insert⟩] ≠ .unreachable ∧
      ∀ h, stitchHunkPair [⟨['x', '\n'], 1, 1, .delete⟩, ⟨['y', '\n'], 2, 1, .insert⟩]
          [⟨['y', '\n'], 1, 1, .delete⟩, ⟨['z', '\n'], 2, 1, .insert⟩] = .stitched h →
        (Composes ['x', '\n'] ['z', '\n']
            [⟨['x', '\n'], 1, 1, .delete⟩, ⟨['y', '\n'], 2, 1, .insert⟩]
            [⟨['y', '\n'], 1, 1, .delete⟩, ⟨['z', '\n'], 2, 1, .insert⟩] h ↔
          LinesUp 0 [⟨['x', '\n'], 1, 1, .delete⟩, ⟨['y', '\n'], 2, 1, .insert⟩]
            [⟨['y', '\n'], 1, 1, .delete⟩, ⟨['z', '\n'], 2, 1, .insert⟩]) :=
  @stitch_composes_iff _ ['y', '\n'] _ _ 0 _ _
    ⟨⟨⟨[], [], rfl, by decide, by decide⟩, by decide⟩, by decide⟩
    ⟨⟨⟨⟨[], [], rfl, by decide, by decide⟩, by decide⟩, by decide⟩, by simp [RunningLn]⟩

/-- A line `n` is inserted above `a`. -/
def insertedAbove : DiffHunk := [⟨['n', '\n'], 1, 1, .insert⟩, ⟨['a', '\n'], 1, 2, .equal⟩]

/-- Then `a` becomes `c`. -/
def editedBelow : DiffHunk :=
  [⟨['n', '\n'], 1, 1, .equal⟩, ⟨['a', '\n'], 2, 2, .delete⟩, ⟨['c', '\n'], 3, 2, .insert⟩]

/-- The deleted row keeps the number 2 of the text between, and so does the header. -/
theorem stitched_numbers_drift :
    WindowAt ['a', '\n'] ['n', '\n', 'a', '\n'] 0 insertedAbove ∧
      BuiltAt ['n', '\n', 'a', '\n'] ['n', '\n', 'c', '\n'] 0 editedBelow ∧
      ∃ h, stitchHunkPair insertedAbove editedBelow = .stitched h ∧
        (hunkHeader h).oldStart = 2 ∧
        ¬ Composes ['a', '\n'] ['n', '\n', 'c', '\n'] insertedAbove editedBelow h := by
  refine ⟨⟨⟨⟨[], [], rfl, by decide, by decide⟩, by decide⟩, by decide⟩,
    ⟨⟨⟨⟨[], [], rfl, by decide, by decide⟩, by decide⟩, by decide⟩,
      by simp [RunningLn, editedBelow]⟩,
    [⟨['n', '\n'], 1, 1, .insert⟩, ⟨['a', '\n'], 2, 2, .delete⟩, ⟨['c', '\n'], 3, 2, .insert⟩],
    by decide, by decide, ?_⟩
  rintro ⟨p, hwindow, -⟩
  have hold : [2] = List.range' (p + 1) 1 := hwindow.old
  have hnew : [1, 2] = List.range' (p + 1) 2 := hwindow.new
  simp only [List.range'_succ, List.cons_eq_cons] at hold hnew
  omega

/-! ## Repeated folds -/

end GrokBuild.PagerDiff
