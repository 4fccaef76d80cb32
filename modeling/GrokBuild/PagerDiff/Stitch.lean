import GrokBuild.Text.Lines
import Mathlib.Data.List.Nodup

/-!
# Folding the hunks of consecutive edits

`xai-grok-pager-diff`: hunks are lists of rows with a line number on either side. Hunks of later
edits of one file are folded into earlier ones by the line numbers of the newer side.
-/

namespace GrokBuild.PagerDiff

open Text

inductive ChangeTag where
  | equal
  | delete
  | insert
deriving DecidableEq

structure DiffLine where
  text : Str
  lo : ℕ
  ln : ℕ
  tag : ChangeTag
deriving DecidableEq

abbrev DiffHunk := List DiffLine

/-- The range of `ln` that the rendered rows cover. -/
def renderRange (hunk : DiffHunk) : Option (ℕ × ℕ) :=
  hunk.foldl (fun range line =>
    if line.tag = .delete then range
    else some (match range with
      | none => (line.ln, line.ln)
      | some (min, max) => (Nat.min min line.ln, Nat.max max line.ln))) none

def renderPos (hunk : DiffHunk) (ln : ℕ) : Option ℕ :=
  hunk.findIdx? fun l => l.tag != .delete && l.ln == ln

def trimmed (text : Str) : Str := trimEndMatches (fun c => c == '\r' || c == '\n') text

/-- What one call comes to. `unreachable` is the source's panic, `separate` its `None`. -/
inductive Stitch where
  | separate
  | stitched (hunk : DiffHunk)
  | unreachable
deriving DecidableEq

/-- The rows of the later hunk past the coverage, taken as they are. -/
def spliceTail : DiffHunk → ℕ → List DiffLine → Stitch
  | out, _, [] => .stitched out
  | out, maxLn, rest :: rows =>
    if rest.tag ≠ .delete then
      if rest.ln ≠ maxLn + 1 then .separate
      else spliceTail (out ++ [rest]) rest.ln rows
    else spliceTail (out ++ [rest]) maxLn rows

def stitchRows (maxLn : ℕ) : DiffHunk → List DiffLine → Stitch
  | out, [] => .stitched out
  | out, row :: rows =>
    if maxLn < row.ln then spliceTail out maxLn (row :: rows)
    else
      match row.tag, rows with
      | .equal, rows =>
        match (renderPos out row.ln).bind fun pos => out[pos]? with
        | none => .separate
        | some shown =>
          if trimmed shown.text ≠ trimmed row.text then .separate
          else stitchRows maxLn out rows
      | .delete, [] => .separate
      | .delete, next :: after =>
        if next.tag ≠ .insert ∨ next.ln ≠ row.ln then .separate
        else
          match renderPos out row.ln with
          | none => .separate
          | some pos =>
            match out[pos]? with
            | none => .separate
            | some shown =>
              if trimmed shown.text ≠ trimmed row.text then .separate
              else
                match shown.tag with
                | .equal => stitchRows maxLn ((out.set pos row).insertIdx (pos + 1) next) after
                | .insert => stitchRows maxLn (out.set pos next) after
                | .delete => .unreachable
      | .insert, _ => .separate

def stitchHunkPair (a b : DiffHunk) : Stitch :=
  match renderRange a, renderRange b with
  | some (aMin, aMax), some (bMin, _) =>
    if bMin < aMin ∨ aMax + 1 < bMin then .separate else stitchRows aMax a b
  | _, _ => .separate

/-- One step of the fold; `none` is the panic. -/
def stitchInto (out : List DiffHunk) (hunk : DiffHunk) : Option (List DiffHunk) :=
  match out.getLast? with
  | none => some (out ++ [hunk])
  | some last =>
    match stitchHunkPair last hunk with
    | .stitched stitched => some (out.dropLast ++ [stitched])
    | .separate => some (out ++ [hunk])
    | .unreachable => none

def stitchOverlappingHunks (hunks : List DiffHunk) : Option (List DiffHunk) :=
  hunks.foldlM stitchInto []

/-! ## The patch -/

def oldRows (hunk : DiffHunk) : List DiffLine := hunk.filter (·.tag != .insert)

def newRows (hunk : DiffHunk) : List DiffLine := hunk.filter (·.tag != .delete)

structure HunkHeader where
  oldStart : ℕ
  oldCount : ℕ
  newStart : ℕ
  newCount : ℕ
deriving DecidableEq

def hunkHeader (hunk : DiffHunk) : HunkHeader where
  oldStart := ((oldRows hunk).map (·.lo)).head?.getD 1
  newStart := ((newRows hunk).map (·.ln)).head?.getD 1
  oldCount := (oldRows hunk).length
  newCount := (newRows hunk).length

def headerText (h : HunkHeader) : Str :=
  "@@ -".toList ++ (toString h.oldStart).toList ++ [','] ++ (toString h.oldCount).toList ++
    " +".toList ++ (toString h.newStart).toList ++ [','] ++ (toString h.newCount).toList ++
    " @@\n".toList

def ChangeTag.mark : ChangeTag → Char
  | .equal => ' '
  | .insert => '+'
  | .delete => '-'

def rowText (line : DiffLine) : Str := line.tag.mark :: trimmed line.text ++ ['\n']

def diffHunksToPatch (path : Str) (hunks : List DiffHunk) : Str :=
  if hunks = [] then []
  else
    "--- a/".toList ++ path ++ ['\n'] ++ ("+++ b/".toList ++ path ++ ['\n']) ++
      hunks.flatMap fun hunk =>
        if hunk = [] then [] else headerText (hunkHeader hunk) ++ hunk.flatMap rowText

/-!
## Windows on two versions of a file

A hunk is a window on two texts if its rows are what the texts have there, under the numbers the
lines have in them. Line terminators do not count.
-/

def fileLines (text : Str) : List Str := (splitInclusive text).map trimmed

def oldText (hunk : DiffHunk) : List Str := (oldRows hunk).map fun line => trimmed line.text

def newText (hunk : DiffHunk) : List Str := (newRows hunk).map fun line => trimmed line.text

def oldNumbers (hunk : DiffHunk) : List ℕ := (oldRows hunk).map (·.lo)

def newNumbers (hunk : DiffHunk) : List ℕ := (newRows hunk).map (·.ln)

/-- Consecutive numbers from `s` on. -/
def Numbered (s : ℕ) (l : List ℕ) : Prop := l = List.range' s l.length
deriving Decidable

/-- The two lists of lines have the same `p` lines above the hunk and the same lines below it. -/
structure ShowsAt (F G : List Str) (p : ℕ) (hunk : DiffHunk) : Prop where
  exists_rest : ∃ above below, above.length = p ∧ F = above ++ oldText hunk ++ below ∧
    G = above ++ newText hunk ++ below
  new : Numbered (p + 1) (newNumbers hunk)

/-- Equal and deleted rows are consecutive lines of the old text, Equal and inserted rows
consecutive lines of the new one. -/
structure WindowAt (F G : Str) (p : ℕ) (hunk : DiffHunk) : Prop
    extends ShowsAt (fileLines F) (fileLines G) p hunk where
  old : Numbered (p + 1) (oldNumbers hunk)

/-- Each row's `ln` is the number of the next line of the new text. -/
def RunningLn : ℕ → DiffHunk → Prop
  | _, [] => True
  | ln, row :: rows => row.ln = ln ∧ RunningLn (if row.tag = .delete then ln else ln + 1) rows

/-- A window as it is built from one edit. -/
structure BuiltAt (F G : Str) (p : ℕ) (hunk : DiffHunk) : Prop
    extends WindowAt F G p hunk where
  running : RunningLn (p + 1) hunk

/-! ## Numbers -/

variable {s m n p : ℕ} {l l' : List ℕ} {a out rows : DiffHunk} {row r : DiffLine}

theorem numbered_nil : Numbered s [] := rfl

theorem numbered_append :
    Numbered s (l ++ l') ↔ Numbered s l ∧ Numbered (s + l.length) l' := by
  unfold Numbered
  rw [List.length_append, ← List.range'_append_1]
  constructor
  · intro h
    exact List.append_inj h (List.length_range').symm
  · rintro ⟨h, h'⟩
    rw [← h, ← h']

theorem numbered_cons : Numbered s (n :: l) ↔ n = s ∧ Numbered (s + 1) l := by
  unfold Numbered
  rw [List.length_cons, List.range'_succ, List.cons_eq_cons]

theorem Numbered.bounds (h : Numbered s l) (hn : n ∈ l) : s ≤ n ∧ n < s + l.length := by
  rw [h, List.mem_range'_1] at hn
  exact hn

theorem Numbered.nodup (h : Numbered s l) : l.Nodup := by
  rw [h]
  exact List.nodup_range'

/-! ## The two sides of a hunk -/

@[simp] theorem oldRows_nil : oldRows [] = [] := rfl

@[simp] theorem newRows_nil : newRows [] = [] := rfl

theorem oldRows_append (h k : DiffHunk) : oldRows (h ++ k) = oldRows h ++ oldRows k :=
  List.filter_append ..

theorem newRows_append (h k : DiffHunk) : newRows (h ++ k) = newRows h ++ newRows k :=
  List.filter_append ..

theorem oldText_append (h k : DiffHunk) : oldText (h ++ k) = oldText h ++ oldText k := by
  rw [oldText, oldRows_append, List.map_append]
  rfl

theorem newText_append (h k : DiffHunk) : newText (h ++ k) = newText h ++ newText k := by
  rw [newText, newRows_append, List.map_append]
  rfl

theorem oldNumbers_append (h k : DiffHunk) :
    oldNumbers (h ++ k) = oldNumbers h ++ oldNumbers k := by
  rw [oldNumbers, oldRows_append, List.map_append]
  rfl

theorem newNumbers_append (h k : DiffHunk) :
    newNumbers (h ++ k) = newNumbers h ++ newNumbers k := by
  rw [newNumbers, newRows_append, List.map_append]
  rfl

theorem length_oldText (h : DiffHunk) : (oldText h).length = (oldRows h).length :=
  List.length_map ..

theorem length_newText (h : DiffHunk) : (newText h).length = (newRows h).length :=
  List.length_map ..

theorem length_oldNumbers (h : DiffHunk) : (oldNumbers h).length = (oldRows h).length :=
  List.length_map ..

theorem length_newNumbers (h : DiffHunk) : (newNumbers h).length = (newRows h).length :=
  List.length_map ..

/-! What one row adds to the sides. -/

theorem oldRows_cons_of_ne (h : row.tag ≠ .insert) : oldRows (row :: rows) = row :: oldRows rows :=
  List.filter_cons_of_pos (bne_iff_ne.mpr h)

theorem oldRows_cons_insert (h : row.tag = .insert) : oldRows (row :: rows) = oldRows rows :=
  List.filter_cons_of_neg (by simp [h])

theorem newRows_cons_of_ne (h : row.tag ≠ .delete) : newRows (row :: rows) = row :: newRows rows :=
  List.filter_cons_of_pos (bne_iff_ne.mpr h)

theorem newRows_cons_delete (h : row.tag = .delete) : newRows (row :: rows) = newRows rows :=
  List.filter_cons_of_neg (by simp [h])

theorem newText_cons_of_ne (h : row.tag ≠ .delete) :
    newText (row :: rows) = trimmed row.text :: newText rows := by
  rw [newText, newRows_cons_of_ne h]
  rfl

theorem newNumbers_cons_of_ne (h : row.tag ≠ .delete) :
    newNumbers (row :: rows) = row.ln :: newNumbers rows := by
  rw [newNumbers, newRows_cons_of_ne h]
  rfl

theorem oldText_cons_of_ne (h : row.tag ≠ .insert) :
    oldText (row :: rows) = trimmed row.text :: oldText rows := by
  rw [oldText, oldRows_cons_of_ne h]
  rfl

theorem oldNumbers_cons_of_ne (h : row.tag ≠ .insert) :
    oldNumbers (row :: rows) = row.lo :: oldNumbers rows := by
  rw [oldNumbers, oldRows_cons_of_ne h]
  rfl

theorem mem_newNumbers : n ∈ newNumbers a ↔ ∃ r ∈ a, r.tag ≠ .delete ∧ r.ln = n := by
  simp [newNumbers, newRows, and_assoc]

theorem RunningLn.le (h : RunningLn n rows) (hr : r ∈ rows) : n ≤ r.ln := by
  induction rows generalizing n with
  | nil => cases hr
  | cons row rows ih =>
    obtain ⟨hrow, hrest⟩ := h
    obtain rfl | hr := List.mem_cons.mp hr
    · exact hrow.ge
    · have hle := ih hrest hr
      split_ifs at hle <;> omega

theorem RunningLn.numbered (h : RunningLn n rows) : Numbered n (newNumbers rows) := by
  induction rows generalizing n with
  | nil => exact numbered_nil
  | cons row rows ih =>
    obtain ⟨hrow, hrest⟩ := h
    by_cases htag : row.tag = .delete
    · rw [if_pos htag] at hrest
      rw [newNumbers, newRows_cons_delete htag]
      exact ih hrest
    · rw [if_neg htag] at hrest
      rw [newNumbers_cons_of_ne htag, numbered_cons]
      exact ⟨hrow, ih hrest⟩

theorem runningLn_append {ln : ℕ} {h k : DiffHunk} :
    RunningLn ln (h ++ k) ↔ RunningLn ln h ∧ RunningLn (ln + (newRows h).length) k := by
  induction h generalizing ln with
  | nil => simp [RunningLn]
  | cons row h ih =>
    rw [List.cons_append, RunningLn, RunningLn, ih, and_assoc]
    by_cases htag : row.tag = .delete
    · rw [if_pos htag, newRows_cons_delete htag]
    · rw [if_neg htag, newRows_cons_of_ne htag, List.length_cons, Nat.add_assoc,
        Nat.add_comm 1]

/-! ## The rendered range -/

/-- The range that the rows so far give, extended by a row. -/
def extendRange (range : Option (ℕ × ℕ)) (ln : ℕ) : Option (ℕ × ℕ) :=
  some (match range with
    | none => (ln, ln)
    | some (min, max) => (Nat.min min ln, Nat.max max ln))

theorem renderRange_eq (hunk : DiffHunk) :
    renderRange hunk = (newNumbers hunk).foldl extendRange none := by
  rw [renderRange]
  generalize none = range
  induction hunk generalizing range with
  | nil => rfl
  | cons row rows ih =>
    rw [List.foldl_cons, ih]
    by_cases htag : row.tag = .delete
    · rw [if_pos htag, newNumbers, newNumbers, newRows_cons_delete htag]
    · rw [if_neg htag, newNumbers, newNumbers, newRows_cons_of_ne htag]
      rfl

theorem foldl_extendRange (k n : ℕ) :
    (List.range' (s + k + 1) n).foldl extendRange (some (s, s + k)) = some (s, s + k + n) := by
  induction n generalizing k with
  | zero => rfl
  | succ n ih =>
    have hmin : Nat.min s (s + k + 1) = s := Nat.min_eq_left (by omega)
    have hmax : Nat.max (s + k) (s + k + 1) = s + (k + 1) := by
      rw [← Nat.add_assoc]
      exact Nat.max_eq_right (by omega)
    rw [List.range'_succ, List.foldl_cons, extendRange, hmin, hmax, ← Nat.add_assoc,
      show s + k + 1 + 1 = s + (k + 1) + 1 by omega,
      show s + k + 1 = s + (k + 1) by omega, ih]
    congr 2
    omega

/-- The range of a window runs from its first rendered row to its last. -/
theorem renderRange_of_numbered (h : Numbered (p + 1) (newNumbers a)) (min max : ℕ) :
    renderRange a = some (min, max) ↔
      newRows a ≠ [] ∧ min = p + 1 ∧ max = p + (newRows a).length := by
  rw [renderRange_eq, h, length_newNumbers]
  cases hrows : newRows a with
  | nil => simp
  | cons row rows =>
    have hfold := foldl_extendRange (s := p + 1) 0 rows.length
    rw [Nat.add_zero] at hfold
    rw [List.length_cons, List.range'_succ, List.foldl_cons, extendRange, hfold, Option.some_inj,
      Prod.mk.injEq]
    constructor
    · rintro ⟨rfl, rfl⟩
      exact ⟨List.cons_ne_nil _ _, rfl, by omega⟩
    · rintro ⟨-, rfl, rfl⟩
      exact ⟨rfl, by omega⟩

end GrokBuild.PagerDiff
