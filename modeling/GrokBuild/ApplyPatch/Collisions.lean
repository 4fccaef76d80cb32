import GrokBuild.ApplyPatch.Apply
import GrokBuild.Lib.StableSort
import GrokBuild.Lib.Substitution

/-!
# When replacements collide

Chunks are searched from a cursor on, so most replacements follow one another. A chunk marked as
the end of the file is looked for there whatever the cursor, and a pure addition goes to the end of
the file or in front of its blank last line; only these two can meet another replacement.
-/

namespace GrokBuild.ApplyPatch

open Text Substitution StableSort

namespace Replacement

def stop (r : Replacement) : ℕ := r.start + r.oldLen

def edit (r : Replacement) : Edit Str := ⟨r.start, r.stop, r.newLines⟩

def Precedes (a b : Replacement) : Prop := a.stop ≤ b.start

end Replacement

/-- The replacements lie within the lines, in order, each behind the one before it, and applying
them replaces all the ranges at once. -/
structure NoCollision (ls : List Str) (rs : List Replacement) : Prop where
  inBounds : ∀ r ∈ rs, r.stop ≤ ls.length
  sorted : rs.Pairwise fun a b => a.start ≤ b.start
  apart : rs.Pairwise Replacement.Precedes
  substituted : applyReplacements ls rs = substitute (rs.map Replacement.edit) ls

def insertionIdx (lines : List Str) : ℕ :=
  if lastIsEmpty lines then lines.length - 1 else lines.length

/-- The cursor behind the context line of a chunk. -/
def contextLine (lines : List Str) (chunk : UpdateFileChunk) (lineIndex : ℕ) : Option ℕ :=
  match chunk.changeContext with
  | none => some lineIndex
  | some ctx => (seekSequence lines [ctx] lineIndex false).map (· + 1)

/-- The loop between two chunks: its cursor, the end of the lines matched so far, and the last
insertion point short of the end of the file. -/
structure Placed where
  lineIndex : ℕ := 0
  reach : ℕ := 0
  point : ℕ := 0

def Placed.push (lines : List Str) (placed : Placed) (lineIndex : ℕ) (r : Replacement) : Placed where
  lineIndex
  reach := if r.oldLen = 0 then placed.reach else r.stop
  point := if r.oldLen = 0 ∧ r.start < lines.length then max placed.point r.start else placed.point

/-- No chunk meets an earlier one: lines matched at the end of the file start behind all the lines
and insertion points before, a match from the cursor does not reach across an earlier addition in
front of the blank last line, and no addition follows a match of that blank line. -/
def Clear (lines : List Str) : Placed → List UpdateFileChunk → Prop
  | _, [] => True
  | placed, chunk :: chunks =>
    match contextLine lines chunk placed.lineIndex with
    | none => True
    | some lineIndex =>
      if chunk.oldLines.isEmpty then
        (lastIsEmpty lines → placed.reach < lines.length) ∧
          Clear lines (placed.push lines lineIndex ⟨insertionIdx lines, 0, chunk.newLines⟩) chunks
      else
        match findChunk lines chunk lineIndex with
        | none => True
        | some r =>
          (if chunk.isEndOfFile then r.oldLen ≠ 0 → placed.reach ≤ r.start ∧ placed.point ≤ r.start
            else r.start < placed.point → r.stop ≤ placed.point) ∧
          Clear lines (placed.push lines r.stop r) chunks

/-! ## Applying disjoint replacements -/

section Apply

variable {ls : List Str} {rs : List Replacement}

theorem removeLines_eq (start n : ℕ) (ls : List Str) :
    removeLines start n ls = ls.take start ++ ls.drop (start + n) := by
  induction n generalizing ls with
  | zero => simp [removeLines]
  | succ n ih =>
    rw [removeLines, ih]
    split
    · rename_i h
      have hlen : (ls.take start).length = start := by
        rw [List.length_take]
        omega
      rw [List.eraseIdx_eq_take_drop_succ, List.take_left' hlen, List.drop_append, hlen, List.drop_drop,
        List.drop_eq_nil_of_le (by omega), List.nil_append]
      congr 2
      omega
    · rename_i h
      rw [List.drop_eq_nil_of_le (by omega), List.drop_eq_nil_of_le (by omega)]

theorem insertIdx_eq {i : ℕ} (line : Str) (h : i ≤ ls.length) :
    ls.insertIdx i line = ls.take i ++ line :: ls.drop i := by
  induction ls generalizing i with
  | nil =>
    have hi : i = 0 := Nat.le_zero.mp h
    simp [hi]
  | cons first ls ih =>
    cases i with
    | zero => rfl
    | succ i => simp [ih (Nat.le_of_succ_le_succ h)]

theorem insertLines_eq {start : ℕ} (segment : List Str) (h : start ≤ ls.length) :
    insertLines start segment ls = ls.take start ++ segment ++ ls.drop start := by
  induction segment generalizing ls start with
  | nil => simp [insertLines]
  | cons line segment ih =>
    have hlen : (ls.take start).length = start := by
      rw [List.length_take]
      omega
    rw [insertLines, ih (by rw [List.length_insertIdx_of_le_length h]; omega),
      insertIdx_eq line h]
    have htake : (ls.take start).take (start + 1) = ls.take start :=
      List.take_of_length_le (by omega)
    have hdrop : (ls.take start).drop (start + 1) = [] := List.drop_eq_nil_of_le (by omega)
    simp [List.take_append, List.drop_append, hlen, htake, hdrop]

/-- One replacement is one splice. -/
theorem replace_eq_splice {r : Replacement} (h : r.start ≤ ls.length) :
    insertLines r.start r.newLines (removeLines r.start r.oldLen ls) = r.edit.splice ls := by
  have hlen : (ls.take r.start).length = r.start := by
    rw [List.length_take]
    omega
  rw [removeLines_eq, insertLines_eq _ (by rw [List.length_append, hlen]; omega),
    List.take_left' hlen, List.drop_left' hlen]
  rfl

theorem fits_edit (hb : ∀ r ∈ rs, r.stop ≤ ls.length) :
    ∀ e ∈ rs.map Replacement.edit, e.Fits ls.length := by
  intro e he
  obtain ⟨r, hr, rfl⟩ := List.mem_map.mp he
  exact ⟨Nat.le_add_right _ _, hb r hr⟩

theorem applyReplacements_eq_substitute (hb : ∀ r ∈ rs, r.stop ≤ ls.length)
    (ha : rs.Pairwise Replacement.Precedes) :
    applyReplacements ls rs = substitute (rs.map Replacement.edit) ls := by
  have hbefore (rs : List Replacement) (ha : rs.Pairwise Replacement.Precedes) :
      (rs.map Replacement.edit).Pairwise Edit.Before := List.pairwise_map.mpr ha
  rw [← foldr_splice_eq_substitute (hbefore rs ha) (fits_edit hb), applyReplacements,
    List.foldl_reverse]
  induction rs with
  | nil => rfl
  | cons r rs ih =>
    obtain ⟨hfirst, hrest⟩ := List.pairwise_cons.mp ha
    have hr := hb r List.mem_cons_self
    have hb' : ∀ r' ∈ rs, r'.stop ≤ ls.length := fun r' h => hb r' (List.mem_cons_of_mem _ h)
    have hweave := foldr_splice_eq_weave (p := r.stop) (hbefore rs hrest) (fits_edit hb')
      (List.forall_mem_map.mpr hfirst) hr
    rw [List.foldr_cons, ih hb' hrest, List.map_cons, List.foldr_cons]
    apply replace_eq_splice
    -- the lines in front of the later replacements are still there
    rw [hweave, List.length_append, List.length_take]
    have : r.start ≤ r.stop := Nat.le_add_right _ _
    omega

theorem noCollision_iff : NoCollision ls rs ↔
    (∀ r ∈ rs, r.stop ≤ ls.length) ∧ rs.Pairwise Replacement.Precedes := by
  constructor
  · intro h
    exact ⟨h.inBounds, h.apart⟩
  · rintro ⟨hb, ha⟩
    refine ⟨hb, ha.imp ?_, ha, applyReplacements_eq_substitute hb ha⟩
    intro a b hab
    exact (Nat.le_add_right _ _).trans hab

end Apply

/-! ## Where the search ends -/

section Search

variable {lines pattern : List Str} {chunk : UpdateFileChunk} {start lineIndex i : ℕ} {eof : Bool}
  {r : Replacement}

theorem bounds_of_seekPass {norm : Str → Str} (h : seekPass norm lines pattern start = some i) :
    start ≤ i ∧ i < lines.length - pattern.length + 1 := by
  have hmem := List.mem_range'_1.mp (List.mem_of_find?_eq_some h)
  omega

theorem bounds_of_seekSequence (hne : pattern ≠ [])
    (h : seekSequence lines pattern start eof = some i) :
    i + pattern.length ≤ lines.length ∧
      (if eof then i + pattern.length = lines.length else start ≤ i) := by
  unfold seekSequence at h
  rw [if_neg (by simpa using hne)] at h
  split at h
  · cases h
  · rename_i hlen
    have hb : (if eof then lines.length - pattern.length else start) ≤ i ∧
        i < lines.length - pattern.length + 1 := by
      simp only [Option.or_eq_some_iff] at h
      obtain h | ⟨-, h | ⟨-, h | ⟨-, h⟩⟩⟩ := h
      · exact bounds_of_seekPass h
      · exact bounds_of_seekPass h
      · exact bounds_of_seekPass h
      · exact bounds_of_seekPass h
    cases eof with
    | true =>
      simp only [if_true] at hb ⊢
      omega
    | false =>
      simp only [Bool.false_eq_true, if_false] at hb ⊢
      omega

theorem contextLine_bounds (h : contextLine lines chunk lineIndex = some i)
    (hle : lineIndex ≤ lines.length) : lineIndex ≤ i ∧ i ≤ lines.length := by
  unfold contextLine at h
  split at h
  · cases h
    exact ⟨le_rfl, hle⟩
  · rename_i ctx _
    obtain ⟨idx, hidx, rfl⟩ := Option.map_eq_some_iff.mp h
    obtain ⟨hbound, hstart⟩ := bounds_of_seekSequence (List.cons_ne_nil ctx []) hidx
    simp only [List.length_singleton, Bool.false_eq_true, if_false] at hbound hstart
    omega

/-- A replacement stands within the lines: at the end for a chunk marked so, else from the cursor
on, and at the cursor when nothing is left of the pattern. -/
theorem findChunk_bounds (hne : chunk.oldLines ≠ []) (hle : lineIndex ≤ lines.length)
    (h : findChunk lines chunk lineIndex = some r) :
    r.stop ≤ lines.length ∧ (r.oldLen = 0 → r.start = lineIndex) ∧
      (r.oldLen ≠ 0 → if chunk.isEndOfFile then r.stop = lines.length else lineIndex ≤ r.start) := by
  have hplace (pattern : List Str) (i : ℕ) (hne : pattern ≠ [])
      (h : seekSequence lines pattern lineIndex chunk.isEndOfFile = some i) (new : List Str) :
      let r : Replacement := ⟨i, pattern.length, new⟩
      r.stop ≤ lines.length ∧ (r.oldLen = 0 → r.start = lineIndex) ∧
        (r.oldLen ≠ 0 → if chunk.isEndOfFile then r.stop = lines.length else lineIndex ≤ r.start) := by
    obtain ⟨hbound, hplace⟩ := bounds_of_seekSequence hne h
    refine ⟨hbound, fun h0 => absurd (List.eq_nil_of_length_eq_zero h0) hne, fun _ => hplace⟩
  unfold findChunk at h
  split at h
  · rename_i i hi
    cases h
    exact hplace chunk.oldLines i hne hi chunk.newLines
  · split at h
    · obtain ⟨i, hi, rfl⟩ := Option.map_eq_some_iff.mp h
      by_cases hnil : chunk.oldLines.dropLast = []
      · rw [hnil] at hi ⊢
        have hcursor : lineIndex = i := Option.some_inj.mp hi
        subst hcursor
        refine ⟨hle, fun _ => rfl, fun h0 => absurd rfl h0⟩
      · exact hplace chunk.oldLines.dropLast i hnil hi _
    · cases h

end Search

/-! ## The loop -/

/-- What the loop knows of the replacements made so far. -/
structure Summary (lines : List Str) (made : List Replacement) (placed : Placed) : Prop where
  inBounds : ∀ r ∈ made, r.stop ≤ lines.length
  cursor : placed.lineIndex ≤ lines.length
  reach_le : placed.reach ≤ placed.lineIndex
  matched : ∀ r ∈ made, r.oldLen ≠ 0 → r.stop ≤ placed.reach
  reached : placed.reach = 0 ∨ ∃ r ∈ made, r.oldLen ≠ 0 ∧ r.stop = placed.reach
  inserted : ∀ r ∈ made, r.oldLen = 0 → r.start = lines.length ∨ r.start = placed.point ∨
    r.start ≤ placed.point ∧ r.start ≤ placed.lineIndex
  pointed : placed.point = 0 ∨
    placed.point < lines.length ∧ ∃ r ∈ made, r.oldLen = 0 ∧ r.start = placed.point
  point_le : placed.point ≤ placed.lineIndex ∨ placed.point + 1 = lines.length

/-- Where a replacement can be put when the cursor is at `lineIndex`. -/
structure Placement (lines : List Str) (lineIndex : ℕ) (r : Replacement) : Prop where
  inBounds : r.stop ≤ lines.length
  matched : r.oldLen ≠ 0 → r.stop = lines.length ∨ lineIndex ≤ r.start
  inserted : r.oldLen = 0 → r.start = lineIndex ∨ lines.length ≤ r.start + 1

abbrev Compatible : Replacement → Replacement → Prop :=
  InOrder (fun a b => a.start ≤ b.start) Replacement.Precedes

section Loop

variable {lines : List Str} {made : List Replacement} {placed : Placed} {lineIndex : ℕ}
  {r : Replacement}

theorem Summary.push (hs : Summary lines made placed) (hp : Placement lines lineIndex r)
    (hle : placed.lineIndex ≤ lineIndex) {cursor : ℕ} (hcursor : lineIndex ≤ cursor)
    (hbound : cursor ≤ lines.length) (hstop : r.oldLen ≠ 0 → cursor = r.stop) :
    Summary lines (made ++ [r]) (placed.push lines cursor r) := by
  have hrstop : r.stop = r.start + r.oldLen := rfl
  have hpushed : (placed.push lines cursor r).lineIndex = cursor := rfl
  have hreach := hs.reach_le
  have hrbound := hp.inBounds
  have hmem : ∀ {P : Replacement → Prop}, (∀ a ∈ made, P a) → P r → ∀ a ∈ made ++ [r], P a := by
    intro P hmade hr a ha
    rcases List.mem_append.mp ha with ha | ha
    · exact hmade a ha
    · rwa [List.mem_singleton.mp ha]
  have hfirst : ∀ a ∈ made, a ∈ made ++ [r] := fun a ha => List.mem_append_left _ ha
  have hlast : r ∈ made ++ [r] := List.mem_append_right _ List.mem_cons_self
  by_cases hlen : r.oldLen = 0
  · have hreach' : (placed.push lines cursor r).reach = placed.reach := if_pos hlen
    have hplace := hp.inserted hlen
    have hpoint' : r.start < lines.length ∧
          (placed.push lines cursor r).point = max placed.point r.start ∨
        lines.length ≤ r.start ∧ (placed.push lines cursor r).point = placed.point := by
      rcases lt_or_ge r.start lines.length with h | h
      · exact Or.inl ⟨h, if_pos ⟨hlen, h⟩⟩
      · exact Or.inr ⟨h, if_neg fun hlt => by omega⟩
    refine ⟨hmem hs.inBounds hrbound, hbound, by rw [hreach', hpushed]; omega, ?_, ?_, ?_, ?_, ?_⟩
    · rw [hreach']
      exact hmem hs.matched fun h => absurd hlen h
    · rw [hreach']
      refine hs.reached.imp_right fun ⟨a, ha, h⟩ => ⟨a, hfirst a ha, h⟩
    · intro a ha h0
      rw [hpushed]
      have hpoint := hs.point_le
      rcases List.mem_append.mp ha with ha | ha
      · obtain hend | hlast | hbefore := hs.inserted a ha h0
        · exact Or.inl hend
        · right
          omega
        · right
          right
          omega
      · rw [List.mem_singleton.mp ha]
        omega
    · by_cases hmax : placed.point < r.start ∧ r.start < lines.length
      · refine Or.inr ⟨by omega, r, hlast, hlen, by omega⟩
      · have hsame : (placed.push lines cursor r).point = placed.point := by omega
        rw [hsame]
        exact hs.pointed.imp_right fun ⟨hlt, a, ha, h⟩ => ⟨hlt, a, hfirst a ha, h⟩
    · have hpoint := hs.point_le
      rw [hpushed]
      omega
  · have hreach' : (placed.push lines cursor r).reach = r.stop := if_neg hlen
    have hpoint' : (placed.push lines cursor r).point = placed.point := if_neg fun h => hlen h.1
    have hcur := hstop hlen
    have hplace := hp.matched hlen
    refine ⟨hmem hs.inBounds hrbound, hbound, by rw [hreach', hpushed, hcur], ?_, ?_, ?_, ?_, ?_⟩
    · rw [hreach']
      exact hmem (fun a ha h => by have := hs.matched a ha h; omega) fun _ => le_rfl
    · rw [hreach']
      exact Or.inr ⟨r, hlast, hlen, rfl⟩
    · rw [hpoint', hpushed]
      refine hmem (fun a ha h => ?_) fun h => absurd h hlen
      have := hs.inserted a ha h
      omega
    · rw [hpoint']
      exact hs.pointed.imp_right fun ⟨hlt, a, ha, h⟩ => ⟨hlt, a, hfirst a ha, h⟩
    · have := hs.point_le
      rw [hpoint', hpushed]
      omega

/-- A replacement is compatible with those made exactly when it starts behind the lines matched and
does not reach across an insertion point. -/
theorem Summary.compatible_iff (hs : Summary lines made placed) (hp : Placement lines lineIndex r)
    (hle : placed.lineIndex ≤ lineIndex) : (∀ a ∈ made, Compatible a r) ↔
      placed.reach ≤ r.start ∧ (r.start < placed.point → r.stop ≤ placed.point) := by
  have hrstop : r.stop = r.start + r.oldLen := rfl
  have hreach := hs.reach_le
  have hrbound := hp.inBounds
  constructor
  · intro h
    constructor
    · obtain h0 | ⟨a, ha, hlen, hstop⟩ := hs.reached
      · omega
      · obtain ⟨hfront, hbehind⟩ := h a ha
        have hastop : a.stop = a.start + a.oldLen := rfl
        have habound := hs.inBounds a ha
        by_cases hstart : a.start ≤ r.start
        · rw [← hstop]
          exact hfront hstart
        · -- nothing but the end of the file is in front of lines already matched
          have hbefore : r.stop ≤ a.start := hbehind hstart
          by_cases hr : r.oldLen = 0
          · have := hp.inserted hr
            omega
          · have := hp.matched hr
            omega
    · intro hlt
      obtain h0 | ⟨-, a, ha, -, hstart⟩ := hs.pointed
      · omega
      · rw [← hstart] at hlt ⊢
        exact (h a ha).2 (by omega)
  · rintro ⟨hreached, hpoint⟩ a ha
    have hastop : a.stop = a.start + a.oldLen := rfl
    have habound := hs.inBounds a ha
    by_cases hlen : a.oldLen = 0
    · constructor
      · intro hstart
        show a.stop ≤ r.start
        omega
      · intro hstart
        show r.stop ≤ a.start
        obtain hend | hlast | ⟨hle_point, hle_cursor⟩ := hs.inserted a ha hlen
        · omega
        · rw [hlast]
          exact hpoint (by omega)
        · by_cases hr : r.oldLen = 0
          · omega
          · obtain hstop | hstart' := hp.matched hr
            · have := hpoint (by omega)
              obtain h0 | ⟨hlt, -⟩ := hs.pointed
              · omega
              · omega
            · omega
    · have hmatched := hs.matched a ha hlen
      constructor
      · intro _
        show a.stop ≤ r.start
        omega
      · intro hstart
        omega

theorem bind_eq_ok {ε α β : Type} {x : Except ε α} {f : α → Except ε β} {b : β}
    (h : x >>= f = .ok b) : ∃ a, x = .ok a ∧ f a = .ok b := by
  cases x with
  | error e => cases h
  | ok a => exact ⟨a, rfl, h⟩

theorem computeFrom_cons {path : PathBuf} {chunk : UpdateFileChunk} {chunks : List UpdateFileChunk}
    {rs : List Replacement} (h : computeFrom lines path lineIndex (chunk :: chunks) = .ok rs) :
    ∃ i, contextLine lines chunk lineIndex = some i ∧
      ((chunk.oldLines = [] ∧ ∃ rest, computeFrom lines path i chunks = .ok rest ∧
          rs = ⟨insertionIdx lines, 0, chunk.newLines⟩ :: rest) ∨
        (chunk.oldLines ≠ [] ∧ ∃ r rest, findChunk lines chunk i = some r ∧
          computeFrom lines path r.stop chunks = .ok rest ∧ rs = r :: rest)) := by
  obtain ⟨i, hcontext, h⟩ : ∃ i, contextLine lines chunk lineIndex = some i ∧
      (if chunk.oldLines.isEmpty then
        computeFrom lines path i chunks >>= fun rest =>
          .ok (⟨insertionIdx lines, 0, chunk.newLines⟩ :: rest)
      else
        match findChunk lines chunk i with
        | none => .error (linesNotFound chunk.oldLines path)
        | some r => computeFrom lines path r.stop chunks >>= fun rest => .ok (r :: rest)) = .ok rs := by
    unfold contextLine
    rw [computeFrom] at h
    cases hctx : chunk.changeContext with
    | none =>
      rw [hctx] at h
      exact ⟨lineIndex, rfl, h⟩
    | some ctx =>
      rw [hctx] at h
      cases hidx : seekSequence lines [ctx] lineIndex false with
      | none =>
        simp only [hidx] at h
        cases h
      | some idx =>
        simp only [hidx] at h
        exact ⟨idx + 1, by simp only [hidx, Option.map_some], h⟩
  refine ⟨i, hcontext, ?_⟩
  by_cases hnil : chunk.oldLines = []
  · rw [if_pos (by simp [hnil])] at h
    obtain ⟨rest, hrest, h⟩ := bind_eq_ok h
    exact Or.inl ⟨hnil, rest, hrest, (Except.ok.inj h).symm⟩
  · rw [if_neg (by simpa using hnil)] at h
    cases hr : findChunk lines chunk i with
    | none =>
      simp only [hr] at h
      cases h
    | some r =>
      simp only [hr] at h
      obtain ⟨rest, hrest, h⟩ := bind_eq_ok h
      exact Or.inr ⟨hnil, r, rest, rfl, hrest, (Except.ok.inj h).symm⟩

/-- One turn of the loop: the place of the replacement, and what the condition says of it. -/
theorem Summary.turn (hs : Summary lines made placed) {path : PathBuf} {chunk : UpdateFileChunk}
    {chunks : List UpdateFileChunk} {rs : List Replacement}
    (h : computeFrom lines path placed.lineIndex (chunk :: chunks) = .ok rs) :
    ∃ i cursor r rest, rs = r :: rest ∧ Placement lines i r ∧ placed.lineIndex ≤ i ∧ i ≤ cursor ∧
      cursor ≤ lines.length ∧ (r.oldLen ≠ 0 → cursor = r.stop) ∧
      computeFrom lines path cursor chunks = .ok rest ∧
      (Clear lines placed (chunk :: chunks) ↔
        (placed.reach ≤ r.start ∧ (r.start < placed.point → r.stop ≤ placed.point)) ∧
          Clear lines (placed.push lines cursor r) chunks) := by
  have hreach := hs.reach_le
  obtain ⟨i, hi, hcase⟩ := computeFrom_cons h
  obtain ⟨hle, hbound⟩ := contextLine_bounds hi hs.cursor
  obtain ⟨hnil, rest, hrest, rfl⟩ | ⟨hne, r, rest, hr, hrest, rfl⟩ := hcase
  · have hidx : insertionIdx lines ≤ lines.length ∧ lines.length ≤ insertionIdx lines + 1 ∧
        ((lastIsEmpty lines → placed.reach < lines.length) ↔ placed.reach ≤ insertionIdx lines) := by
      unfold insertionIdx
      cases hlast : lastIsEmpty lines with
      | true =>
        have hpos : 0 < lines.length := by
          apply List.length_pos_of_ne_nil
          rintro rfl
          cases hlast
        simp only [if_true, true_implies]
        omega
      | false =>
        simp only [Bool.false_eq_true, if_false, false_implies, true_iff]
        omega
    refine ⟨i, i, _, rest, rfl, ⟨hidx.1, fun h0 => absurd rfl h0, fun _ => Or.inr hidx.2.1⟩, hle, le_rfl,
      hbound, fun h0 => absurd rfl h0, hrest, ?_⟩
    have hpoint : insertionIdx lines < placed.point →
        (⟨insertionIdx lines, 0, chunk.newLines⟩ : Replacement).stop ≤ placed.point := le_of_lt
    simp only [Clear, hi, hnil, List.isEmpty_nil, if_true, hidx.2.2]
    rw [and_iff_left hpoint]
  · obtain ⟨hstop, hempty, hmatched⟩ := findChunk_bounds hne hbound hr
    have hrstop : r.stop = r.start + r.oldLen := rfl
    have hplaced : Placement lines i r := by
      refine ⟨hstop, fun h0 => ?_, fun h0 => Or.inl (hempty h0)⟩
      have hkind := hmatched h0
      split at hkind
      · exact Or.inl hkind
      · exact Or.inr hkind
    have hcursor : i ≤ r.stop := by
      by_cases h0 : r.oldLen = 0
      · have := hempty h0
        omega
      · obtain hend | hstart := hplaced.matched h0
        · omega
        · omega
    refine ⟨i, r.stop, r, rest, rfl, hplaced, hle, hcursor, hstop, fun _ => rfl, hrest, ?_⟩
    have hisEmpty : chunk.oldLines.isEmpty = false := by simpa using hne
    simp only [Clear, hi, hisEmpty, Bool.false_eq_true, if_false, hr]
    apply and_congr_left
    intro _
    have hpointed := hs.pointed
    by_cases h0 : r.oldLen = 0
    · have := hempty h0
      cases chunk.isEndOfFile with
      | true =>
        simp only [if_true, h0, ne_eq, not_true, false_implies, true_iff]
        omega
      | false =>
        simp only [Bool.false_eq_true, if_false]
        omega
    · have hkind := hmatched h0
      cases heof : chunk.isEndOfFile with
      | true =>
        rw [heof, if_pos rfl] at hkind
        simp only [if_true, ne_eq, h0, not_false_eq_true, true_implies]
        omega
      | false =>
        rw [heof, if_neg Bool.false_ne_true] at hkind
        simp only [Bool.false_eq_true, if_false]
        omega

/-- From any state of the loop, the replacements still to come are compatible with those made and
with one another exactly when the condition holds there. -/
theorem Summary.compatible_iff_clear {path : PathBuf} {chunks : List UpdateFileChunk}
    {rs : List Replacement} (hs : Summary lines made placed)
    (h : computeFrom lines path placed.lineIndex chunks = .ok rs) :
    (∀ r ∈ rs, r.stop ≤ lines.length) ∧
      ((∀ a ∈ made, ∀ r ∈ rs, Compatible a r) ∧ rs.Pairwise Compatible ↔ Clear lines placed chunks) := by
  induction chunks generalizing made placed rs with
  | nil =>
    cases h
    simp [Clear]
  | cons chunk chunks ih =>
    obtain ⟨i, cursor, r, rest, rfl, hplaced, hle, hcursor, hbound, hstop, hrest, hclear⟩ := hs.turn h
    obtain ⟨hbounds, hiff⟩ := ih (hs.push hplaced hle hcursor hbound hstop) hrest
    constructor
    · exact List.forall_mem_cons.mpr ⟨hplaced.inBounds, hbounds⟩
    · rw [hclear, ← hs.compatible_iff hplaced hle, ← hiff, List.pairwise_cons]
      simp only [List.forall_mem_cons, List.forall_mem_append, List.mem_singleton, forall_eq, forall_and]
      tauto

end Loop

/-- The replacements of a successful search collide exactly when two chunks meet. -/
theorem computeReplacements_noCollision_iff (originalLines : List Str) (path : PathBuf)
    (chunks : List UpdateFileChunk) (replacements : List Replacement)
    (h : computeReplacements originalLines path chunks = .ok replacements) :
    NoCollision originalLines replacements ↔ Clear originalLines {} chunks := by
  unfold computeReplacements at h
  obtain ⟨rs, hrs, hsorted⟩ : ∃ rs, computeFrom originalLines path 0 chunks = .ok rs ∧
      rs.insertionSort (fun a b => a.start ≤ b.start) = replacements := by
    cases hrs : computeFrom originalLines path 0 chunks with
    | error e =>
      rw [hrs] at h
      cases h
    | ok rs =>
      rw [hrs] at h
      exact ⟨rs, rfl, Except.ok.inj h⟩
  have hstart : Summary originalLines [] {} := by
    refine ⟨by simp, Nat.zero_le _, le_rfl, by simp, Or.inl rfl, by simp, Or.inl rfl, Or.inl le_rfl⟩
  obtain ⟨hbounds, hiff⟩ := hstart.compatible_iff_clear hrs
  have : Std.Total fun a b : Replacement => a.start ≤ b.start := ⟨fun a b => le_total _ _⟩
  have : IsTrans Replacement fun a b => a.start ≤ b.start := ⟨fun a b c => le_trans⟩
  rw [noCollision_iff, ← hsorted, pairwise_insertionSort_iff, ← hiff]
  simp only [List.mem_insertionSort, List.not_mem_nil, false_implies, implies_true, true_and, and_iff_right_iff_imp]
  intro _
  exact hbounds

/-- Two chunks that both end the file: the second replaces a line of the first, and its own new
line is removed again. -/
theorem end_of_file_chunks_overlap :
    ∃ replacements, computeReplacements ["a".toList, "b".toList, "c".toList] ⟨false, ["f".toList]⟩
        [{ oldLines := ["b".toList, "c".toList], newLines := ["x".toList], isEndOfFile := true },
          { oldLines := ["c".toList], newLines := ["y".toList], isEndOfFile := true }] = .ok replacements ∧
      ¬ NoCollision ["a".toList, "b".toList, "c".toList] replacements ∧
      applyReplacements ["a".toList, "b".toList, "c".toList] replacements = ["a".toList, "x".toList] := by
  refine ⟨[⟨1, 2, ["x".toList]⟩, ⟨2, 1, ["y".toList]⟩], by decide +kernel, ?_, by decide +kernel⟩
  intro h
  have hapart := (List.pairwise_cons.mp h.apart).1 ⟨2, 1, ["y".toList]⟩ List.mem_cons_self
  revert hapart
  unfold Replacement.Precedes Replacement.stop
  decide

/-- A match, an addition at the end and a match of the last line stay apart. -/
theorem end_of_file_chunk_after_addition :
    NoCollision ["a".toList, "b".toList, "c".toList]
      [⟨0, 1, ["x".toList]⟩, ⟨2, 1, ["y".toList]⟩, ⟨3, 0, ["z".toList]⟩] :=
  (computeReplacements_noCollision_iff _ ⟨false, ["f".toList]⟩
    [{ oldLines := ["a".toList], newLines := ["x".toList] },
      { oldLines := [], newLines := ["z".toList] },
      { oldLines := ["c".toList], newLines := ["y".toList], isEndOfFile := true }] _
    (by decide +kernel)).mpr
    ⟨by decide +kernel, by decide +kernel, by decide +kernel, trivial⟩

-- a pure addition after a match of the blank last line is removed with it
example : (computeReplacements ["a".toList, []] ⟨false, ["f".toList]⟩
      [{ oldLines := [[]], newLines := ["x".toList] }, { oldLines := [], newLines := ["y".toList] }]).map
    (applyReplacements ["a".toList, []]) = .ok ["a".toList, "x".toList, []] := by
  decide +kernel

end GrokBuild.ApplyPatch
