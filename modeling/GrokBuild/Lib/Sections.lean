import Mathlib.Data.List.Forall2

/-!
# Lists of heads and followers

Some elements of a list follow the head before them. Such a list is a leading run of
followers and then heads, each with the run of followers directly after it. Passes over the
list that only change the runs compose run by run.
-/

namespace GrokBuild.Sections

/-- Which elements of `α` are followers, and what they carry. -/
structure Followers (α β : Type*) where
  embed : β → α
  proj : α → Option β
  proj_eq_some : ∀ x b, proj x = some b ↔ x = embed b

namespace Followers

variable {α β : Type*} (F : Followers α β)

@[simp] theorem proj_embed (b : β) : F.proj (F.embed b) = some b :=
  (F.proj_eq_some _ _).mpr rfl

/-- The leading run, and each head with its run. -/
@[grind] def sections : List α → List β × List (α × List β)
  | [] => ([], [])
  | x :: xs =>
    match F.proj x with
    | some b => (b :: (sections xs).1, (sections xs).2)
    | none => ([], (x, (sections xs).1) :: (sections xs).2)

@[grind] def joinSections (secs : List (α × List β)) : List α :=
  secs.flatMap fun s => s.1 :: s.2.map F.embed

@[grind] def join (run : List β) (secs : List (α × List β)) : List α :=
  run.map F.embed ++ F.joinSections secs

@[simp] theorem joinSections_nil : F.joinSections [] = [] := rfl

@[simp] theorem joinSections_cons (x : α) (run : List β) (secs : List (α × List β)) :
    F.joinSections ((x, run) :: secs) = x :: F.join run secs := by
  simp [joinSections, join]

@[simp] theorem join_nil (secs : List (α × List β)) : F.join [] secs = F.joinSections secs := by
  simp [join]

@[simp] theorem join_cons (b : β) (run : List β) (secs : List (α × List β)) :
    F.join (b :: run) secs = F.embed b :: F.join run secs := by
  simp [join]

@[simp] theorem sections_embed (b : β) (xs : List α) :
    F.sections (F.embed b :: xs) = (b :: (F.sections xs).1, (F.sections xs).2) := by
  simp [sections]

variable {F}

theorem sections_head {x : α} (hx : F.proj x = none) (xs : List α) :
    F.sections (x :: xs) = ([], (x, (F.sections xs).1) :: (F.sections xs).2) := by
  simp [sections, hx]

theorem proj_of_mem_sections {xs : List α} {s : α × List β} (h : s ∈ (F.sections xs).2) :
    F.proj s.1 = none := by
  induction xs with
  | nil => simp [sections] at h
  | cons x xs ih =>
    cases hx : F.proj x with
    | some b =>
      simp only [sections, hx] at h
      exact ih h
    | none =>
      simp only [sections, hx, List.mem_cons] at h
      rcases h with rfl | h
      · exact hx
      · exact ih h

variable (F)

theorem join_sections (xs : List α) : F.join (F.sections xs).1 (F.sections xs).2 = xs := by
  induction xs with
  | nil => simp [sections]
  | cons x xs ih =>
    cases hx : F.proj x with
    | some b =>
      simp only [sections, hx, join_cons, ih]
      rw [← (F.proj_eq_some x b).mp hx]
    | none => simp only [sections, hx, join_nil, joinSections_cons, ih]

variable {F}

theorem sections_join {secs : List (α × List β)} (h : ∀ s ∈ secs, F.proj s.1 = none)
    (run : List β) : F.sections (F.join run secs) = (run, secs) := by
  induction secs generalizing run with
  | nil =>
    induction run with
    | nil => simp [sections]
    | cons b run ih => rw [join_cons, sections_embed, ih]
  | cons s secs ih =>
    obtain ⟨x, run'⟩ := s
    induction run with
    | nil =>
      have hx := h (x, run') List.mem_cons_self
      rw [join_nil, joinSections_cons, sections_head hx,
        ih (fun s hs => h s (List.mem_cons_of_mem _ hs))]
    | cons b run ih' => rw [join_cons, sections_embed, ih']

variable (F)

/-- The list with the run of every head rewritten; `none` stands for the leading run. -/
@[grind] def mapRuns (f : Option α → List β → List β) (xs : List α) : List α :=
  F.join (f none (F.sections xs).1) ((F.sections xs).2.map fun s => (s.1, f (some s.1) s.2))

variable (f g : Option α → List β → List β) (xs : List α)

theorem sections_mapRuns : F.sections (F.mapRuns f xs) =
    (f none (F.sections xs).1, (F.sections xs).2.map fun s => (s.1, f (some s.1) s.2)) := by
  apply sections_join
  intro s hs
  obtain ⟨s', hs', rfl⟩ := List.mem_map.mp hs
  have hhead : F.proj s'.1 = none := proj_of_mem_sections hs'
  exact hhead

theorem mapRuns_mapRuns :
    F.mapRuns g (F.mapRuns f xs) = F.mapRuns (fun h run => g h (f h run)) xs := by
  rw [mapRuns, sections_mapRuns, mapRuns, List.map_map]
  rfl

variable {f g xs}

theorem mapRuns_congr (hlead : f none (F.sections xs).1 = g none (F.sections xs).1)
    (h : ∀ s ∈ (F.sections xs).2, f (some s.1) s.2 = g (some s.1) s.2) :
    F.mapRuns f xs = F.mapRuns g xs := by
  have hmap : ((F.sections xs).2.map fun s => (s.1, f (some s.1) s.2)) =
      (F.sections xs).2.map fun s => (s.1, g (some s.1) s.2) := by
    apply List.map_congr_left
    intro s hs
    rw [h s hs]
  rw [mapRuns, mapRuns, hlead, hmap]

theorem mapRuns_eq_self (hlead : f none (F.sections xs).1 = (F.sections xs).1)
    (h : ∀ s ∈ (F.sections xs).2, f (some s.1) s.2 = s.2) : F.mapRuns f xs = xs := by
  have hid : F.mapRuns f xs = F.mapRuns (fun _ run => run) xs := F.mapRuns_congr hlead h
  rw [hid, mapRuns]
  simp only [List.map_id']
  exact F.join_sections xs

theorem join_sublist {run run' : List β} (hrun : run.Sublist run')
    {secs secs' : List (α × List β)}
    (hsecs : List.Forall₂ (fun s s' => s.1 = s'.1 ∧ s.2.Sublist s'.2) secs secs') :
    (F.join run secs).Sublist (F.join run' secs') := by
  apply (hrun.map F.embed).append
  induction hsecs with
  | nil => exact List.Sublist.refl _
  | cons h _ ih =>
    obtain ⟨hhead, hsub⟩ := h
    simp only [joinSections, List.flatMap_cons, hhead]
    exact ((hsub.map F.embed).cons_cons _).append ih

theorem mapRuns_sublist (h : ∀ head run, (f head run).Sublist run) (xs : List α) :
    (F.mapRuns f xs).Sublist xs := by
  have hsecs : List.Forall₂ (fun s s' => s.1 = s'.1 ∧ s.2.Sublist s'.2)
      ((F.sections xs).2.map fun s => (s.1, f (some s.1) s.2)) (F.sections xs).2 := by
    rw [List.forall₂_map_left_iff]
    exact List.forall₂_same.mpr fun s _ => ⟨rfl, h (some s.1) s.2⟩
  have hsub := F.join_sublist (h none (F.sections xs).1) hsecs
  rwa [F.join_sections] at hsub

theorem sublist_mapRuns (h : ∀ head (run : List β), run.Sublist (f head run)) (xs : List α) :
    xs.Sublist (F.mapRuns f xs) := by
  have hsecs : List.Forall₂ (fun s s' => s.1 = s'.1 ∧ s.2.Sublist s'.2) (F.sections xs).2
      ((F.sections xs).2.map fun s => (s.1, f (some s.1) s.2)) := by
    rw [List.forall₂_map_right_iff]
    exact List.forall₂_same.mpr fun s _ => ⟨rfl, h (some s.1) s.2⟩
  have hsub := F.join_sublist (h none (F.sections xs).1) hsecs
  rwa [F.join_sections] at hsub

/-- A pass that goes through the list run by run is the rewriting of the runs. -/
theorem eq_mapRuns {P : List α → List α} (hnil : P [] = [])
    (hlead : ∀ run xs, P (run.map F.embed ++ xs) = (f none run).map F.embed ++ P xs)
    (hhead : ∀ x run secs, F.proj x = none → (∀ s ∈ secs, F.proj s.1 = none) →
      P (x :: F.join run secs) = x :: ((f (some x) run).map F.embed ++ P (F.joinSections secs)))
    (xs : List α) : P xs = F.mapRuns f xs := by
  have hsections : ∀ secs, (∀ s ∈ secs, F.proj s.1 = none) → P (F.joinSections secs) =
      F.joinSections (secs.map fun s => (s.1, f (some s.1) s.2)) := by
    intro secs h
    induction secs with
    | nil => exact hnil
    | cons s secs ih =>
      obtain ⟨x, run⟩ := s
      have hsecs : ∀ s ∈ secs, F.proj s.1 = none := fun s hs => h s (List.mem_cons_of_mem _ hs)
      rw [joinSections_cons, hhead x run secs (h _ List.mem_cons_self) hsecs, ih hsecs,
        List.map_cons, joinSections_cons, join]
  rw [mapRuns, join, ← hsections _ fun _ hs => proj_of_mem_sections hs, ← hlead]
  exact congrArg P (F.join_sections xs).symm

/-- Rewriting runs leaves the heads and their order. -/
theorem heads_mapRuns (f : Option α → List β → List β) (xs : List α) :
    (F.sections (F.mapRuns f xs)).2.map (·.1) = (F.sections xs).2.map (·.1) := by
  rw [sections_mapRuns, List.map_map]
  rfl

theorem heads_eq_filter (xs : List α) :
    (F.sections xs).2.map (·.1) = xs.filter fun x => (F.proj x).isNone := by
  induction xs with
  | nil => rfl
  | cons x xs ih =>
    cases hx : F.proj x with
    | some b => simp [sections, hx, ih]
    | none => simp [sections, hx, ih]

end Followers

end GrokBuild.Sections
