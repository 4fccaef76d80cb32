import GrokBuild.Permission.ShellAccess
import GrokBuild.Text.Segments

/-!
# Collapsing a path on its own and below a directory

`lexical_normalize` collapses the text of an operand before it is joined to the cwd, and
`normalize_lexically` collapses the joined path. Both walk over the segments between slashes, with
a stack of what is left of them.
-/

namespace GrokBuild.Permission
open Text

/-- The segments that are components: neither empty nor `.`. -/
def significantSegments (path : Str) : List Str := (splitOnChar '/' path).filter isSignificant

/-- The stack of components that segments leave behind. -/
def walk (stack : List Component) (segments : List Str) : List Component :=
  (segments.map segmentComponent).foldl normalizeComponent stack

theorem walk_append (stack : List Component) (xs ys : List Str) :
    walk stack (xs ++ ys) = walk (walk stack xs) ys := by
  simp only [walk, List.map_append, List.foldl_append]

theorem walk_cons (stack : List Component) (x : Str) (xs : List Str) :
    walk stack (x :: xs) = walk (normalizeComponent stack (segmentComponent x)) xs := rfl

@[simp] theorem walk_nil (stack : List Component) : walk stack [] = stack := rfl

/-- Where the walk over a path starts. -/
def walkRoot (path : Str) : List Component := if isAbsolute path then [.rootDir] else []

theorem foldl_components (path : Str) :
    (components path).foldl normalizeComponent [] =
      walk (walkRoot path) (significantSegments path) := by
  unfold components walkRoot walk significantSegments
  dsimp only
  split_ifs
  · rfl
  · rfl
  · rfl

theorem normalizeLexically_congr {a b : Str}
    (h : walk (walkRoot a) (significantSegments a) = walk (walkRoot b) (significantSegments b)) :
    normalizeLexically a = normalizeLexically b := by
  unfold normalizeLexically
  rw [foldl_components, foldl_components, h]

theorem isSignificant_nil : isSignificant [] = false := rfl

/-! ## Below a directory -/

theorem isAbsolute_append {x : Str} (h : isAbsolute x = true) (y : Str) :
    isAbsolute (x ++ y) = true := by
  cases x with
  | nil => cases h
  | cons c x => simpa [isAbsolute, startsWith] using h

theorem isAbsolute_pathPush {cwd : Str} (hcwd : isAbsolute cwd = true) (path : Str) :
    isAbsolute (pathPush cwd path) = true := by
  unfold pathPush
  split_ifs with habs hsep
  · exact habs
  · exact isAbsolute_append hcwd path
  · exact isAbsolute_append (isAbsolute_append hcwd _) path

theorem significantSegments_slash (x y : Str) :
    significantSegments (x ++ '/' :: y) = significantSegments x ++ significantSegments y := by
  rw [significantSegments, splitOnChar_append, List.filter_append]
  rfl

/-- What `lexical_normalize` keeps of the segments, in order. -/
def collapsed (absolute : Bool) (segments : List Str) : List Str :=
  (segments.foldl (normalizeSegment absolute) []).reverse

/-- What one segment does: nothing, or it is kept, or it takes one back, or it finds nothing to take
back. -/
theorem normalizeSegment_cases (absolute : Bool) (kept : List Str) (segment : Str) :
    (isSignificant segment = false ∧ normalizeSegment absolute kept segment = kept) ∨
      (isSignificant segment = true ∧ segment ≠ "..".toList ∧
        normalizeSegment absolute kept segment = segment :: kept) ∨
      (segment = "..".toList ∧ ∃ top rest, kept = top :: rest ∧ top ≠ "..".toList ∧
        normalizeSegment absolute kept segment = rest) ∨
      (segment = "..".toList ∧ (kept = [] ∨ "..".toList ∈ kept) ∧
        normalizeSegment absolute kept segment = if absolute then kept else segment :: kept) := by
  unfold normalizeSegment isSignificant
  by_cases hskip : segment.isEmpty || segment == ".".toList
  · left
    rw [if_pos hskip]
    refine ⟨?_, rfl⟩
    simp only [Bool.or_eq_true] at hskip
    obtain hempty | hdot := hskip
    · rw [hempty]
      rfl
    · rw [bne, hdot]
      exact Bool.and_false _
  · right
    rw [if_neg hskip]
    simp only [Bool.or_eq_true, not_or, Bool.not_eq_true] at hskip
    rw [hskip.1, bne, hskip.2]
    by_cases hdots : segment = "..".toList
    · right
      rw [if_pos (by simpa using hdots)]
      cases kept with
      | nil =>
        right
        refine ⟨hdots, .inl rfl, ?_⟩
        cases absolute <;> rfl
      | cons top rest =>
        dsimp only
        by_cases htop : top = "..".toList
        · right
          refine ⟨hdots, .inr (by rw [htop]; exact List.mem_cons_self), ?_⟩
          rw [if_neg (by simpa using htop)]
        · left
          refine ⟨hdots, top, rest, rfl, htop, ?_⟩
          rw [if_pos (by simpa using htop)]
    · left
      refine ⟨rfl, hdots, ?_⟩
      rw [if_neg (by simpa using hdots)]

theorem walk_concat (stack : List Component) (xs : List Str) (x : Str) :
    walk stack (x :: xs).reverse =
      normalizeComponent (walk stack xs.reverse) (segmentComponent x) := by
  rw [List.reverse_cons, walk_append, walk_cons, walk_nil]

/-- One more segment of the operand moves the walk as it moves the collapsed operand. -/
theorem walk_normalizeSegment {absolute : Bool} {stack : List Component}
    (hroot : absolute = true → stack = [.rootDir]) {kept : List Str}
    (hkept : absolute = true → "..".toList ∉ kept) (segment : Str) :
    walk stack (normalizeSegment absolute kept segment).reverse =
      if isSignificant segment then
        normalizeComponent (walk stack kept.reverse) (segmentComponent segment)
      else walk stack kept.reverse := by
  obtain ⟨hsig, heq⟩ | ⟨hsig, -, heq⟩ | ⟨rfl, top, rest, rfl, htop, heq⟩ | ⟨rfl, hbottom, heq⟩ :=
    normalizeSegment_cases absolute kept segment
  · rw [heq, if_neg (by rw [hsig]; exact Bool.false_ne_true)]
  · rw [heq, if_pos hsig]
    exact walk_concat stack kept segment
  · -- the segment before is dropped on both sides
    have hsig : isSignificant "..".toList = true := rfl
    rw [heq, if_pos hsig, walk_concat]
    simp only [segmentComponent, if_neg htop, if_true]
    rfl
  · have hsig : isSignificant "..".toList = true := rfl
    rw [heq, hsig]
    cases absolute with
    | true =>
      -- nothing is above the root
      have hnil : kept = [] := hbottom.resolve_right (hkept rfl)
      rw [hroot rfl, hnil]
      rfl
    | false => exact walk_concat stack kept _

theorem dots_not_mem_normalizeSegment {kept : List Str} (h : "..".toList ∉ kept) (segment : Str) :
    "..".toList ∉ normalizeSegment true kept segment := by
  obtain ⟨-, heq⟩ | ⟨-, hne, heq⟩ | ⟨-, top, rest, rfl, -, heq⟩ | ⟨-, -, heq⟩ :=
    normalizeSegment_cases true kept segment
  · rw [heq]
    exact h
  · rw [heq]
    exact List.not_mem_cons_of_ne_of_not_mem hne.symm h
  · rw [heq]
    exact List.not_mem_of_not_mem_cons h
  · rw [heq]
    exact h

/-- The collapsed operand leads where the operand leads. -/
theorem walk_foldl_normalizeSegment {absolute : Bool} {stack : List Component}
    (hroot : absolute = true → stack = [.rootDir]) {kept : List Str}
    (hkept : absolute = true → "..".toList ∉ kept) (segments : List Str) :
    walk stack (segments.foldl (normalizeSegment absolute) kept).reverse =
      walk (walk stack kept.reverse) (segments.filter isSignificant) := by
  induction segments generalizing kept with
  | nil => rfl
  | cons segment segments ih =>
    have hnext : absolute = true → "..".toList ∉ normalizeSegment absolute kept segment := by
      intro habs
      rw [habs]
      exact dots_not_mem_normalizeSegment (hkept habs) segment
    rw [List.foldl_cons, ih hnext, walk_normalizeSegment hroot hkept, List.filter_cons]
    split_ifs
    · rfl
    · rfl

theorem walk_collapsed {absolute : Bool} {stack : List Component}
    (hroot : absolute = true → stack = [.rootDir]) (segments : List Str) :
    walk stack (collapsed absolute segments) = walk stack (segments.filter isSignificant) :=
  walk_foldl_normalizeSegment hroot (fun _ => List.not_mem_nil) segments

/-- A kept segment was kept before or is the segment read, which is significant. -/
theorem mem_normalizeSegment {absolute : Bool} {kept : List Str} {segment x : Str}
    (h : x ∈ normalizeSegment absolute kept segment) :
    x ∈ kept ∨ x = segment ∧ isSignificant segment = true := by
  have hpush (hsig : isSignificant segment = true) (hmem : x ∈ segment :: kept) :
      x ∈ kept ∨ x = segment ∧ isSignificant segment = true :=
    (List.mem_cons.mp hmem).elim (fun he => .inr ⟨he, hsig⟩) .inl
  obtain ⟨-, heq⟩ | ⟨hsig, -, heq⟩ | ⟨-, top, rest, rfl, -, heq⟩ | ⟨rfl, -, heq⟩ :=
    normalizeSegment_cases absolute kept segment
  · exact .inl (heq ▸ h)
  · exact hpush hsig (heq ▸ h)
  · exact .inl (List.mem_cons_of_mem _ (heq ▸ h))
  · rw [heq] at h
    cases absolute with
    | true => exact .inl h
    | false => exact hpush rfl h

theorem mem_foldl_normalizeSegment {absolute : Bool} {kept segments : List Str} {x : Str}
    (h : x ∈ segments.foldl (normalizeSegment absolute) kept) :
    x ∈ kept ∨ x ∈ segments ∧ isSignificant x = true := by
  induction segments generalizing kept with
  | nil => exact .inl h
  | cons segment segments ih =>
    obtain hnext | ⟨hmem, hsig⟩ := ih h
    · obtain hkept | ⟨rfl, hsig⟩ := mem_normalizeSegment hnext
      · exact .inl hkept
      · exact .inr ⟨List.mem_cons_self, hsig⟩
    · exact .inr ⟨List.mem_cons_of_mem _ hmem, hsig⟩

theorem mem_collapsed {absolute : Bool} {segments : List Str} {x : Str}
    (h : x ∈ collapsed absolute segments) : x ∈ segments ∧ isSignificant x = true :=
  (mem_foldl_normalizeSegment (List.mem_reverse.mp h)).resolve_left List.not_mem_nil

theorem significantSegments_join {parts : List Str}
    (h : ∀ part ∈ parts, '/' ∉ part ∧ isSignificant part = true) :
    significantSegments (joinOnChar '/' parts) = parts := by
  by_cases hne : parts = []
  · rw [hne]
    rfl
  · rw [significantSegments, splitOnChar_joinOnChar hne fun part hpart => (h part hpart).1]
    exact List.filter_eq_self.mpr fun part hpart => (h part hpart).2

theorem collapsed_parts {absolute : Bool} {path part : Str}
    (h : part ∈ collapsed absolute (splitOnChar '/' path)) :
    '/' ∉ part ∧ isSignificant part = true :=
  ⟨not_mem_of_mem_splitOnChar (mem_collapsed h).1, (mem_collapsed h).2⟩

end GrokBuild.Permission
