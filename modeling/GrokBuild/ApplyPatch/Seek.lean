import GrokBuild.ApplyPatch.Collisions

/-!
# Where a pattern is found

The search runs through four comparisons, each looser than the one before. A search from a line
on returns the first place of the strictest comparison that has one. A search at the end of the
file looks at the last place only, and its documented return to the start is not there.
-/

namespace GrokBuild.ApplyPatch

open Text

/-- The comparisons of the four passes, the strictest first. -/
def passes : List (Str → Str) := [id, trimEnd, trim, normalise]

/-- The lines at `i` are the pattern, up to `norm`. -/
def StandsAt (norm : Str → Str) (lines pattern : List Str) (i : ℕ) : Prop :=
  i + pattern.length ≤ lines.length ∧
    ((lines.drop i).take pattern.length).map norm = pattern.map norm

instance (norm : Str → Str) (lines pattern : List Str) (i : ℕ) :
    Decidable (StandsAt norm lines pattern i) :=
  inferInstanceAs (Decidable (_ ∧ _))

/-- The first place from `start` on under the strictest comparison that has one. -/
def StrictestFirst (lines pattern : List Str) (start i : ℕ) : Prop :=
  ∃ stricter norm looser, passes = stricter ++ norm :: looser ∧
    (∀ other ∈ stricter, ∀ j, start ≤ j → ¬ StandsAt other lines pattern j) ∧
      start ≤ i ∧ StandsAt norm lines pattern i ∧
        ∀ j, start ≤ j → j < i → ¬ StandsAt norm lines pattern j

/-! ## One pass -/

section Pass

variable {norm : Str → Str} {lines pattern : List Str} {start i : ℕ}

theorem standsAt_of_map_eq (hi : i ≤ lines.length)
    (h : ((lines.drop i).take pattern.length).map norm = pattern.map norm) :
    StandsAt norm lines pattern i := by
  refine ⟨?_, h⟩
  have hlen := congrArg List.length h
  rw [List.length_map, List.length_map, List.length_take, List.length_drop] at hlen
  omega

theorem seekPass_eq_some_iff :
    seekPass norm lines pattern start = some i ↔
      start ≤ i ∧ StandsAt norm lines pattern i ∧
        ∀ j, start ≤ j → j < i → ¬ StandsAt norm lines pattern j := by
  unfold seekPass
  rw [List.find?_range'_eq_some, beq_iff_eq, List.mem_range'_1]
  constructor
  · rintro ⟨heq, ⟨hstart, hlt⟩, hmin⟩
    refine ⟨hstart, standsAt_of_map_eq (by omega) heq, fun j hj hji hstands => ?_⟩
    have hne := hmin j hj hji
    rw [hstands.2, beq_self_eq_true] at hne
    cases hne
  · rintro ⟨hstart, ⟨hfits, heq⟩, hmin⟩
    refine ⟨heq, ⟨hstart, by omega⟩, fun j hj hji => ?_⟩
    rw [Bool.not_eq_true', beq_eq_false_iff_ne]
    intro hj'
    exact hmin j hj hji (standsAt_of_map_eq (by omega) hj')

theorem seekPass_eq_none_iff :
    seekPass norm lines pattern start = none ↔ ∀ j, start ≤ j → ¬ StandsAt norm lines pattern j := by
  constructor
  · intro h j hj hstands
    unfold seekPass at h
    rw [List.find?_range'_eq_none] at h
    have hne := h j hj (by have := hstands.1; omega)
    rw [hstands.2, beq_self_eq_true] at hne
    cases hne
  · intro h
    rw [Option.eq_none_iff_forall_not_mem]
    intro j hj
    obtain ⟨hstart, hstands, -⟩ := seekPass_eq_some_iff.1 hj
    exact h j hstart hstands

end Pass

/-! ## All passes -/

theorem trim_trimEnd (s : Str) : trim (trimEnd s) = trim s := by
  have hblank : trim (s.rtakeWhile isWhitespace) = [] := by
    rw [trim_eq_nil_iff]
    exact fun c hc => List.mem_rtakeWhile_imp hc
  have hsplit : trimEnd s ++ s.rtakeWhile isWhitespace = s := by
    unfold trimEnd trimEndMatches
    exact List.rdropWhile_append_rtakeWhile
  calc trim (trimEnd s) = trim (trimEnd s ++ s.rtakeWhile isWhitespace) :=
        (trim_append_of_right _ hblank).symm
    _ = trim s := by rw [hsplit]

/-- The loosest comparison only forgets more than each of the others. -/
theorem normalise_of_mem_passes {norm : Str → Str} (h : norm ∈ passes) :
    ∃ forget : Str → Str, normalise = forget ∘ norm := by
  simp only [passes, List.mem_cons, List.not_mem_nil, or_false] at h
  rcases h with rfl | rfl | rfl | rfl
  · exact ⟨normalise, rfl⟩
  · refine ⟨normalise, ?_⟩
    ext s : 1
    show (trim s).map normaliseChar = (trim (trimEnd s)).map normaliseChar
    rw [trim_trimEnd]
  · exact ⟨List.map normaliseChar, rfl⟩
  · exact ⟨id, rfl⟩

theorem StandsAt.loosest {norm : Str → Str} {lines pattern : List Str} {i : ℕ}
    (hnorm : norm ∈ passes) (h : StandsAt norm lines pattern i) :
    StandsAt normalise lines pattern i := by
  obtain ⟨forget, hforget⟩ := normalise_of_mem_passes hnorm
  refine ⟨h.1, ?_⟩
  rw [hforget, ← List.map_map, ← List.map_map, h.2]

section Search

variable {lines pattern : List Str} {start i : ℕ} {eof : Bool}

/-- Where the passes begin. -/
def searchStart (lines pattern : List Str) (start : ℕ) (eof : Bool) : ℕ :=
  if eof then lines.length - pattern.length else start

theorem findSome?_cons_or {α β : Type*} (f : α → Option β) (x : α) (xs : List α) :
    (x :: xs).findSome? f = (f x).or (xs.findSome? f) := by
  rw [List.findSome?_cons]
  cases f x with
  | none => rfl
  | some _ => rfl

theorem seekSequence_eq_findSome? (hpattern : pattern ≠ []) :
    seekSequence lines pattern start eof =
      passes.findSome? fun norm =>
        seekPass norm lines pattern (searchStart lines pattern start eof) := by
  have hempty : pattern.isEmpty = false := by rwa [List.isEmpty_eq_false_iff]
  unfold seekSequence
  rw [hempty, if_neg Bool.false_ne_true]
  by_cases hlen : pattern.length > lines.length
  · rw [if_pos hlen]
    symm
    rw [List.findSome?_eq_none_iff]
    intro norm _
    rw [seekPass_eq_none_iff]
    intro j _ hstands
    have := hstands.1
    omega
  · rw [if_neg hlen]
    simp only [passes, findSome?_cons_or, List.findSome?_nil, Option.or_none]
    rfl

/-- A search from a line on returns the first place of the strictest comparison that has one. -/
theorem seekSequence_eq_some_iff (hpattern : pattern ≠ []) :
    seekSequence lines pattern start eof = some i ↔
      StrictestFirst lines pattern (searchStart lines pattern start eof) i := by
  rw [seekSequence_eq_findSome? hpattern, List.findSome?_eq_some_iff]
  simp only [seekPass_eq_some_iff, seekPass_eq_none_iff]
  constructor
  · rintro ⟨stricter, norm, looser, hsplit, hfound, hnone⟩
    exact ⟨stricter, norm, looser, hsplit, hnone, hfound⟩
  · rintro ⟨stricter, norm, looser, hsplit, hnone, hfound⟩
    exact ⟨stricter, norm, looser, hsplit, hfound, hnone⟩

theorem seekSequence_eq_none_iff (hpattern : pattern ≠ []) :
    seekSequence lines pattern start eof = none ↔
      ∀ j, searchStart lines pattern start eof ≤ j → ¬ StandsAt normalise lines pattern j := by
  rw [seekSequence_eq_findSome? hpattern, List.findSome?_eq_none_iff]
  simp only [seekPass_eq_none_iff]
  constructor
  · intro h
    exact h normalise (by simp [passes])
  · intro h norm hnorm j hj hstands
    exact h j hj (hstands.loosest hnorm)

theorem StandsAt.eq_last {norm : Str → Str} (h : StandsAt norm lines pattern i)
    (hi : lines.length - pattern.length ≤ i) : i = lines.length - pattern.length := by
  have := h.1
  omega

theorem seekSequence_eof_eq_none_iff (hpattern : pattern ≠ []) :
    seekSequence lines pattern start true = none ↔
      ¬ StandsAt normalise lines pattern (lines.length - pattern.length) := by
  rw [seekSequence_eq_none_iff hpattern]
  constructor
  · intro h
    exact h _ (Nat.le_refl _)
  · intro h j hj hstands
    rw [hstands.eq_last hj] at hstands
    exact h hstands

end Search

/-! ## The documented search -/

/-- What the documentation says of a search: it finds a place when there is one, the first one of
the strictest comparison, or at the end of the file the last one, and where the last one does not
match it goes back to the search from the start. -/
structure SeeksAsDocumented (lines pattern : List Str) (start : ℕ) (eof : Bool) : Prop where
  finds : (∃ i, start ≤ i ∧ StandsAt normalise lines pattern i) →
    (seekSequence lines pattern start eof).isSome
  strictestFirst : eof = false → ∀ i,
    seekSequence lines pattern start eof = some i ↔ StrictestFirst lines pattern start i
  prefersLast : eof = true → StandsAt normalise lines pattern (lines.length - pattern.length) →
    seekSequence lines pattern start eof = some (lines.length - pattern.length)
  fallsBack : eof = true → ¬ StandsAt normalise lines pattern (lines.length - pattern.length) →
    seekSequence lines pattern start eof = seekSequence lines pattern start false
  inBounds : ∀ i, seekSequence lines pattern start eof = some i →
    i + pattern.length ≤ lines.length

section Documented

variable {lines pattern : List Str} {start : ℕ}

theorem seekSequence_prefersLast (hpattern : pattern ≠ [])
    (h : StandsAt normalise lines pattern (lines.length - pattern.length)) :
    seekSequence lines pattern start true = some (lines.length - pattern.length) := by
  cases hseek : seekSequence lines pattern start true with
  | none => exact absurd h ((seekSequence_eof_eq_none_iff hpattern).mp hseek)
  | some i =>
    obtain ⟨_, _, _, _, _, hle, hstands, _⟩ := (seekSequence_eq_some_iff hpattern).mp hseek
    rw [hstands.eq_last hle]

theorem seeksAsDocumented_start (hpattern : pattern ≠ []) :
    SeeksAsDocumented lines pattern start false where
  finds := by
    rintro ⟨i, hi, hstands⟩
    rw [Option.isSome_iff_ne_none]
    intro hnone
    exact (seekSequence_eq_none_iff hpattern).mp hnone i hi hstands
  strictestFirst _ _ := seekSequence_eq_some_iff hpattern
  prefersLast := nofun
  fallsBack := nofun
  inBounds _ h := (bounds_of_seekSequence hpattern h).1

/-- The search is the documented one exactly when it does not start at the end of the file, or the
pattern is at the end of the file, or it is nowhere from the start on. -/
theorem seekSequence_documented_iff (eof : Bool) (hpattern : pattern ≠ []) :
    SeeksAsDocumented lines pattern start eof ↔
      (eof = true →
        StandsAt normalise lines pattern (lines.length - pattern.length) ∨
          ∀ i, start ≤ i → ¬ StandsAt normalise lines pattern i) := by
  constructor
  · intro h heof
    subst heof
    rw [or_iff_not_imp_left]
    intro hlast i hi hstands
    have hsome := h.finds ⟨i, hi, hstands⟩
    rw [(seekSequence_eof_eq_none_iff hpattern).mpr hlast] at hsome
    cases hsome
  · intro h
    cases eof with
    | false => exact seeksAsDocumented_start hpattern
    | true =>
      refine ⟨?_, nofun, fun _ => seekSequence_prefersLast hpattern, ?_,
        fun _ h => (bounds_of_seekSequence hpattern h).1⟩
      · rintro ⟨i, hi, hstands⟩
        obtain hlast | hnowhere := h rfl
        · rw [seekSequence_prefersLast hpattern hlast]
          rfl
        · exact absurd hstands (hnowhere i hi)
      · intro _ hlast
        obtain hlast' | hnowhere := h rfl
        · exact absurd hlast' hlast
        · rw [(seekSequence_eof_eq_none_iff hpattern).mpr hlast]
          symm
          rw [seekSequence_eq_none_iff hpattern]
          exact hnowhere

/-- The last two of five lines are found although the first match comes earlier. -/
theorem last_pair_documented :
    SeeksAsDocumented ["a".toList, "b".toList, "c".toList, "b".toList, "c".toList]
      ["b".toList, "c".toList] 0 true :=
  (seekSequence_documented_iff true (List.cons_ne_nil _ _)).mpr fun _ => .inl (by decide)

/-- Of the lines `b` and `a`, the search at the end of the file does not find `b`. -/
theorem first_line_unseen_at_eof :
    ¬ ∀ (lines pattern : List Str) (start : ℕ) (eof : Bool), pattern ≠ [] →
      SeeksAsDocumented lines pattern start eof := by
  intro h
  have hsome := (h ["b".toList, "a".toList] ["b".toList] 0 true (List.cons_ne_nil _ _)).finds
    ⟨0, Nat.le_refl 0, by decide⟩
  revert hsome
  decide

end Documented

end GrokBuild.ApplyPatch
