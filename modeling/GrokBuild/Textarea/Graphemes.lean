import GrokBuild.Text.ByteSlices

/-!
# Grapheme boundaries

The segmentation of a text into grapheme clusters is a parameter. Of it is known that the clusters
cover the text in order, that a line feed ends its cluster, and that a line ending starts one, apart
from the line feed behind a carriage return.
-/

namespace GrokBuild.Textarea
open Text

/-- The start offsets of the clusters, and the letters and digits of all scripts. -/
structure Unicode where
  graphemeIndices : Str → List ℕ
  isAlphanumeric : Char → Bool
  sorted : ∀ text, (graphemeIndices text).Pairwise (· < ·)
  zero_mem : ∀ text, text ≠ [] → 0 ∈ graphemeIndices text
  charBoundary : ∀ text, ∀ i ∈ graphemeIndices text, CharBoundary text i ∧ i < utf8Len text
  afterLineFeed : ∀ front back, back ≠ [] →
    utf8Len front + 1 ∈ graphemeIndices (front ++ '\n' :: back)
  beforeReturn : ∀ front back, utf8Len front ∈ graphemeIndices (front ++ '\r' :: back)
  beforeLineFeed : ∀ front back,
    utf8Len front ∈ graphemeIndices (front ++ '\n' :: back) ↔ front.getLast? ≠ some '\r'

variable (u : Unicode) (text : Str)

def isGraphemeBoundary (byte : ℕ) : Bool :=
  byte == utf8Len text || (u.graphemeIndices text).contains byte

def floorGraphemeBoundary (byte : ℕ) : ℕ :=
  let byte := min byte (utf8Len text)
  if byte = utf8Len text then byte
  else ((u.graphemeIndices text).takeWhile (· ≤ byte)).getLast?.getD 0

def ceilGraphemeBoundary (byte : ℕ) : ℕ :=
  let byte := min byte (utf8Len text)
  if byte = utf8Len text then byte
  else ((u.graphemeIndices text).find? (byte ≤ ·)).getD (utf8Len text)

/-- The nearest boundary; ties go left. -/
def normalizeExternalCursor (byte : ℕ) : ℕ :=
  let byte := min byte (utf8Len text)
  let before := floorGraphemeBoundary u text byte
  let after := ceilGraphemeBoundary u text byte
  if byte - before ≤ after - byte then before else after

/-- A grapheme cursor moves to the last boundary in front of the offset. -/
def previousGraphemeBoundary (byte : ℕ) : ℕ :=
  let byte := min byte (utf8Len text)
  if byte = 0 then 0 else floorGraphemeBoundary u text (byte - 1)

def nextGraphemeBoundary (byte : ℕ) : ℕ :=
  let byte := min byte (utf8Len text)
  if byte = utf8Len text then byte else ceilGraphemeBoundary u text (byte + 1)

/-! ## Boundaries -/

section Boundaries

variable {u : Unicode} {text : Str} {byte i : ℕ}

def Boundary (u : Unicode) (text : Str) (byte : ℕ) : Prop :=
  byte = utf8Len text ∨ byte ∈ u.graphemeIndices text

theorem isGraphemeBoundary_iff : isGraphemeBoundary u text byte = true ↔ Boundary u text byte := by
  rw [isGraphemeBoundary, Bool.or_eq_true, beq_iff_eq, List.contains_iff_mem, Boundary]

theorem boundary_len (u : Unicode) (text : Str) : Boundary u text (utf8Len text) := .inl rfl

theorem boundary_zero (u : Unicode) (text : Str) : Boundary u text 0 := by
  by_cases h : text = []
  · subst h
    exact boundary_len u []
  · exact .inr (u.zero_mem text h)

theorem Boundary.charBoundary (h : Boundary u text byte) : CharBoundary text byte := by
  obtain rfl | h := h
  · exact ⟨text, [], (List.append_nil text).symm, rfl⟩
  · exact (u.charBoundary text byte h).1

theorem Boundary.le (h : Boundary u text byte) : byte ≤ utf8Len text := h.charBoundary.le

/-- In a sorted list, the last element up to a bound is the greatest. -/
theorem getLast_takeWhile {indices : List ℕ} (hsorted : indices.Pairwise (· < ·)) (hi : i ∈ indices)
    (hle : i ≤ byte) :
    ∃ last ∈ indices, (indices.takeWhile (· ≤ byte)).getLast? = some last ∧ i ≤ last ∧
      last ≤ byte := by
  induction indices generalizing i with
  | nil => cases hi
  | cons x indices ih =>
    rw [List.pairwise_cons] at hsorted
    have hx : x ≤ byte := by
      obtain rfl | hi := List.mem_cons.mp hi
      · exact hle
      · exact (hsorted.1 i hi).le.trans hle
    rw [List.takeWhile_cons_of_pos (p := fun x => decide (x ≤ byte)) (decide_eq_true hx)]
    by_cases hrest : ∃ y ∈ indices, y ≤ byte
    · obtain ⟨y, hy, hyle⟩ := hrest
      obtain ⟨last, hlast, hget, hge, hbound⟩ := ih hsorted.2 hy hyle
      refine ⟨last, List.mem_cons_of_mem _ hlast, ?_, ?_, hbound⟩
      · rw [List.getLast?_cons, hget]
        rfl
      · obtain rfl | hi := List.mem_cons.mp hi
        · exact (hsorted.1 last hlast).le
        · obtain ⟨last', -, hget', hge', -⟩ := ih hsorted.2 hi hle
          rw [hget] at hget'
          obtain rfl := Option.some.inj hget'
          exact hge'
    · have hnil : indices.takeWhile (· ≤ byte) = [] := by
        cases indices with
        | nil => rfl
        | cons y indices =>
          have hy : ¬ y ≤ byte := fun hy => hrest ⟨y, List.mem_cons_self .., hy⟩
          exact List.takeWhile_cons_of_neg (by rwa [decide_eq_true_eq])
      refine ⟨x, List.mem_cons_self .., by rw [hnil]; rfl, ?_, hx⟩
      obtain rfl | hi := List.mem_cons.mp hi
      · exact le_refl i
      · exact absurd ⟨i, hi, hle⟩ hrest

/-- The last boundary up to an offset. -/
structure IsFloor (u : Unicode) (text : Str) (byte floor : ℕ) : Prop where
  boundary : Boundary u text floor
  le : floor ≤ byte
  greatest : ∀ i, Boundary u text i → i ≤ byte → i ≤ floor

/-- The first boundary from an offset on. -/
structure IsCeil (u : Unicode) (text : Str) (byte ceil : ℕ) : Prop where
  boundary : Boundary u text ceil
  ge : byte ≤ ceil
  least : ∀ i, Boundary u text i → byte ≤ i → ceil ≤ i

theorem isFloor (u : Unicode) (text : Str) (byte : ℕ) :
    IsFloor u text byte (floorGraphemeBoundary u text byte) := by
  unfold floorGraphemeBoundary
  dsimp only
  split_ifs with hend
  · rw [hend]
    exact ⟨boundary_len u text, by omega, fun i hi _ => hi.le⟩
  · have hlt : byte < utf8Len text := by omega
    have hmin : min byte (utf8Len text) = byte := Nat.min_eq_left hlt.le
    rw [hmin]
    have hne : text ≠ [] := by
      rintro rfl
      exact Nat.not_lt_zero _ hlt
    obtain ⟨last, hmem, hget, -, hle⟩ :=
      getLast_takeWhile (u.sorted text) (u.zero_mem text hne) (Nat.zero_le byte)
    rw [hget]
    refine ⟨.inr hmem, hle, fun i hi hib => ?_⟩
    obtain rfl | hi := hi
    · exact absurd hib (Nat.not_le_of_lt hlt)
    · obtain ⟨last', -, hget', hge, -⟩ := getLast_takeWhile (u.sorted text) hi hib
      rw [hget] at hget'
      obtain rfl := Option.some.inj hget'
      exact hge

theorem isCeil (u : Unicode) {text : Str} {byte : ℕ} (h : byte ≤ utf8Len text) :
    IsCeil u text byte (ceilGraphemeBoundary u text byte) := by
  unfold ceilGraphemeBoundary
  dsimp only
  rw [Nat.min_eq_left h]
  split_ifs with hend
  · subst hend
    exact ⟨boundary_len u text, le_refl _, fun i _ hi => hi⟩
  · cases hfind : (u.graphemeIndices text).find? (byte ≤ ·) with
    | none =>
      rw [List.find?_eq_none] at hfind
      refine ⟨boundary_len u text, h, fun i hi hib => ?_⟩
      obtain rfl | hi := hi
      · exact le_refl _
      · exact absurd (decide_eq_true hib) (hfind i hi)
    | some first =>
      obtain ⟨hfirst, before, after, hsplit, hbefore⟩ := List.find?_eq_some_iff_append.mp hfind
      have hmem : first ∈ u.graphemeIndices text := List.mem_of_find?_eq_some hfind
      refine ⟨.inr hmem, of_decide_eq_true hfirst, fun i hi hib => ?_⟩
      obtain rfl | hi := hi
      · exact (Boundary.le (.inr hmem))
      · have hsorted := u.sorted text
        rw [hsplit] at hi hsorted
        rw [List.pairwise_append, List.pairwise_cons] at hsorted
        obtain hi | hi := List.mem_append.mp hi
        · have hnot := hbefore i hi
          rw [decide_eq_true hib] at hnot
          cases hnot
        · obtain rfl | hi := List.mem_cons.mp hi
          · exact le_refl _
          · exact (hsorted.2.1.1 i hi).le

theorem boundary_ceil (u : Unicode) (text : Str) (byte : ℕ) :
    Boundary u text (ceilGraphemeBoundary u text byte) := by
  have hsame : ceilGraphemeBoundary u text byte =
      ceilGraphemeBoundary u text (min byte (utf8Len text)) := by
    unfold ceilGraphemeBoundary
    dsimp only
    rw [Nat.min_assoc, Nat.min_self]
  rw [hsame]
  exact (isCeil u (Nat.min_le_right ..)).boundary

theorem boundary_normalize (u : Unicode) (text : Str) (byte : ℕ) :
    Boundary u text (normalizeExternalCursor u text byte) := by
  unfold normalizeExternalCursor
  dsimp only
  split_ifs
  · exact (isFloor u text _).boundary
  · exact boundary_ceil u text _

/-- A boundary is its own nearest one. -/
theorem normalize_of_boundary (h : Boundary u text byte) :
    normalizeExternalCursor u text byte = byte := by
  have hmin : min byte (utf8Len text) = byte := Nat.min_eq_left h.le
  have hfloor : floorGraphemeBoundary u text byte = byte :=
    Nat.le_antisymm (isFloor u text byte).le ((isFloor u text byte).greatest byte h (le_refl _))
  unfold normalizeExternalCursor
  dsimp only
  rw [hmin, hfloor, Nat.sub_self, if_pos (Nat.zero_le _)]

theorem boundary_previous (u : Unicode) (text : Str) (byte : ℕ) :
    Boundary u text (previousGraphemeBoundary u text byte) := by
  unfold previousGraphemeBoundary
  dsimp only
  split_ifs
  · exact boundary_zero u text
  · exact (isFloor u text _).boundary

theorem previousGraphemeBoundary_le (u : Unicode) (text : Str) (byte : ℕ) :
    previousGraphemeBoundary u text byte ≤ byte - 1 := by
  unfold previousGraphemeBoundary
  dsimp only
  split_ifs
  · exact Nat.zero_le _
  · have hle := (isFloor u text (min byte (utf8Len text) - 1)).le
    omega

theorem boundary_next (u : Unicode) (text : Str) (byte : ℕ) :
    Boundary u text (nextGraphemeBoundary u text byte) := by
  unfold nextGraphemeBoundary
  dsimp only
  split_ifs with hend
  · exact .inl hend
  · exact boundary_ceil u text _

theorem lt_nextGraphemeBoundary (u : Unicode) {text : Str} {byte : ℕ} (h : byte < utf8Len text) :
    byte < nextGraphemeBoundary u text byte := by
  unfold nextGraphemeBoundary
  dsimp only
  rw [Nat.min_eq_left h.le, if_neg h.ne]
  exact (isCeil u h).ge

end Boundaries

/-! ## Combining marks -/

section CombiningMarks

/-- A combining mark joins the character in front of it, and a line feed a carriage return. -/
def joins : Option Char → Char → Bool
  | none, _ => false
  | some previous, character =>
    if character = '\n' then previous == '\r'
    else
      0x300 ≤ character.toNat && character.toNat ≤ 0x36f && previous != '\r' && previous != '\n'

def clusterStarts (previous : Option Char) (offset : ℕ) : Str → List ℕ
  | [] => []
  | character :: rest =>
    let starts := clusterStarts (some character) (offset + character.utf8Size) rest
    if joins previous character then starts else offset :: starts

theorem mem_clusterStarts {previous : Option Char} {offset i : ℕ} {text : Str} :
    i ∈ clusterStarts previous offset text ↔
      ∃ front character back, text = front ++ character :: back ∧ i = offset + utf8Len front ∧
        joins (front.getLast?.or previous) character = false := by
  induction text generalizing previous offset with
  | nil =>
    refine iff_of_false (List.not_mem_nil) ?_
    rintro ⟨front, character, back, htext, -⟩
    exact List.append_ne_nil_of_right_ne_nil front (List.cons_ne_nil character back) htext.symm
  | cons c rest ih =>
    have hrest : i ∈ clusterStarts (some c) (offset + c.utf8Size) rest ↔
        ∃ front character back, c :: rest = (c :: front) ++ character :: back ∧
          i = offset + utf8Len (c :: front) ∧
          joins ((c :: front).getLast?.or previous) character = false := by
      rw [ih]
      refine exists_congr fun front => exists_congr fun character => exists_congr fun back => ?_
      rw [List.cons_append, List.cons.injEq, utf8Len_cons, ← Nat.add_assoc, List.getLast?_cons]
      cases front.getLast? with
      | none => simp
      | some last => simp
    have hwhole : (∃ front character back, c :: rest = front ++ character :: back ∧
          i = offset + utf8Len front ∧ joins (front.getLast?.or previous) character = false) ↔
        (i = offset ∧ joins previous c = false) ∨
          i ∈ clusterStarts (some c) (offset + c.utf8Size) rest := by
      rw [hrest]
      constructor
      · rintro ⟨front, character, back, hsplit, hi, hjoins⟩
        cases front with
        | nil =>
          rw [List.nil_append, List.cons.injEq] at hsplit
          exact .inl ⟨hi, hsplit.1 ▸ hjoins⟩
        | cons d front =>
          rw [List.cons_append, List.cons.injEq] at hsplit
          obtain ⟨rfl, rfl⟩ := hsplit
          exact .inr ⟨front, character, back, rfl, hi, hjoins⟩
      · rintro (⟨hi, hjoins⟩ | ⟨front, character, back, hsplit, hi, hjoins⟩)
        · exact ⟨[], c, rest, rfl, hi, hjoins⟩
        · exact ⟨c :: front, character, back, hsplit, hi, hjoins⟩
    rw [hwhole, clusterStarts]
    split_ifs with hjoins
    · rw [hjoins]
      simp
    · rw [Bool.not_eq_true] at hjoins
      rw [hjoins, List.mem_cons]
      simp

theorem sorted_clusterStarts (previous : Option Char) (offset : ℕ) (text : Str) :
    (clusterStarts previous offset text).Pairwise (· < ·) := by
  induction text generalizing previous offset with
  | nil => exact .nil
  | cons c rest ih =>
    rw [clusterStarts]
    split_ifs
    · exact ih _ _
    · refine List.pairwise_cons.mpr ⟨fun i hi => ?_, ih _ _⟩
      obtain ⟨front, -, -, -, hi, -⟩ := mem_clusterStarts.1 hi
      have hpos := Char.utf8Size_pos c
      omega

/-- A split of a text is determined by the length of its front. -/
theorem split_unique {front front' back back' : Str} (h : front ++ back = front' ++ back')
    (hlen : utf8Len front = utf8Len front') : front = front' ∧ back = back' := by
  have hsplit := splitAtByte_eq_some_iff.mpr ⟨h, rfl⟩
  rw [splitAtByte_eq_some_iff.mpr ⟨rfl, hlen⟩, Option.some.injEq, Prod.mk.injEq] at hsplit
  exact hsplit

/-- Clusters of a character and the combining marks behind it. -/
def combiningMarks : Unicode where
  graphemeIndices := clusterStarts none 0
  isAlphanumeric := Char.isAlphanum
  sorted := sorted_clusterStarts none 0
  zero_mem text hne := by
    obtain ⟨c, rest, rfl⟩ := List.exists_cons_of_ne_nil hne
    exact mem_clusterStarts.2 ⟨[], c, rest, rfl, rfl, rfl⟩
  charBoundary text i hi := by
    obtain ⟨front, c, back, rfl, rfl, -⟩ := mem_clusterStarts.1 hi
    rw [Nat.zero_add]
    refine ⟨⟨front, c :: back, rfl, rfl⟩, ?_⟩
    have hpos := utf8Len_pos (List.cons_ne_nil c back)
    rw [utf8Len_append]
    omega
  afterLineFeed front back hne := by
    obtain ⟨c, rest, rfl⟩ := List.exists_cons_of_ne_nil hne
    refine mem_clusterStarts.2 ⟨front ++ ['\n'], c, rest, by simp, ?_, ?_⟩
    · rw [Nat.zero_add, utf8Len_append]
      rfl
    · rw [List.getLast?_concat]
      show joins (some '\n') c = false
      rw [joins]
      split_ifs
      · decide
      · simp
  beforeReturn front back := by
    refine mem_clusterStarts.2 ⟨front, '\r', back, rfl, (Nat.zero_add _).symm, ?_⟩
    cases front.getLast? with
    | none => rfl
    | some previous =>
      show joins (some previous) '\r' = false
      simp [joins]
  beforeLineFeed front back := by
    rw [mem_clusterStarts]
    constructor
    · rintro ⟨front', c, back', hsplit, hlen, hjoins⟩ hlast
      rw [Nat.zero_add] at hlen
      obtain ⟨rfl, hback⟩ := split_unique hsplit hlen
      rw [List.cons.injEq] at hback
      rw [hlast, ← hback.1] at hjoins
      exact absurd hjoins (by decide)
    · intro hlast
      refine ⟨front, '\n', back, rfl, (Nat.zero_add _).symm, ?_⟩
      cases hfront : front.getLast? with
      | none => rfl
      | some previous =>
        rw [hfront] at hlast
        show joins (some previous) '\n' = false
        rw [joins, if_pos rfl, beq_eq_false_iff_ne]
        exact fun heq => hlast (congrArg some heq)

end CombiningMarks

end GrokBuild.Textarea
