import Mathlib.Data.List.Basic
import Mathlib.Order.Defs.LinearOrder
import Mathlib.Order.MinMax

/-!
# Spans on a line

Half-open spans over a linear order. Overlapping spans that are sorted by their starts are merged
into spans that do not overlap; the ends of none then lie inside another.
-/

namespace GrokBuild

structure Span (α : Type*) where
  start : α
  stop : α
deriving DecidableEq

namespace Span

variable {α : Type*} [LinearOrder α] {r s t : Span α} {spans : List (Span α)} {p : α}

/-- Strictly between the ends. -/
def Inside (p : α) (s : Span α) : Prop := s.start < p ∧ p < s.stop

def Overlaps (r s : Span α) : Prop := s.start < r.stop ∧ r.start < s.stop

/-- Nonempty spans in order that at most touch. -/
structure Separated (spans : List (Span α)) : Prop where
  nonempty : ∀ s ∈ spans, s.start < s.stop
  ordered : spans.Pairwise fun s t => s.stop ≤ t.start

theorem Separated.apart (h : Separated spans) (hs : s ∈ spans) (ht : t ∈ spans) :
    s = t ∨ s.stop ≤ t.start ∨ t.stop ≤ s.start := by
  have hforward : spans.Pairwise fun s t => s = t ∨ s.stop ≤ t.start ∨ t.stop ≤ s.start :=
    h.ordered.imp fun hle => .inr (.inl hle)
  have hbackward : spans.Pairwise (flip fun s t => s = t ∨ s.stop ≤ t.start ∨ t.stop ≤ s.start) :=
    h.ordered.imp fun hle => .inr (.inr hle)
  exact hforward.forall_of_forall_of_flip (fun s _ => .inl rfl) hbackward hs ht

theorem Separated.start_not_inside (h : Separated spans) (hs : s ∈ spans) (ht : t ∈ spans) :
    ¬ Inside s.start t := by
  rintro ⟨hlt, hgt⟩
  obtain rfl | hle | hle := h.apart hs ht
  · exact lt_irrefl _ hlt
  · exact absurd ((h.nonempty s hs).trans_le hle) hlt.not_gt
  · exact absurd hgt hle.not_gt

theorem Separated.stop_not_inside (h : Separated spans) (hs : s ∈ spans) (ht : t ∈ spans) :
    ¬ Inside s.stop t := by
  rintro ⟨hlt, hgt⟩
  obtain rfl | hle | hle := h.apart hs ht
  · exact lt_irrefl _ hgt
  · exact absurd hlt hle.not_gt
  · exact absurd ((hle.trans_lt (h.nonempty s hs)).trans hgt) (lt_irrefl _)

/-! ## Merging -/

/-- The merged spans are kept in reverse. -/
def mergeStep (merged : List (Span α)) (s : Span α) : List (Span α) :=
  match merged with
  | [] => [s]
  | previous :: merged =>
    if s.start < previous.stop then { previous with stop := max previous.stop s.stop } :: merged
    else s :: previous :: merged

def mergeSorted (spans : List (Span α)) : List (Span α) := (spans.foldl mergeStep []).reverse

/-- What holds of the merged spans while those that follow start no earlier than the last one. -/
structure Merging (merged rest : List (Span α)) : Prop where
  nonempty : ∀ s ∈ merged, s.start < s.stop
  ordered : merged.Pairwise fun s t => t.stop ≤ s.start
  later : ∀ previous ∈ merged.head?, ∀ s ∈ rest, previous.start ≤ s.start

theorem Merging.step {merged rest : List (Span α)} (h : Merging merged (s :: rest))
    (hs : s.start < s.stop) (hrest : ∀ t ∈ rest, s.start ≤ t.start) :
    Merging (mergeStep merged s) rest := by
  cases merged with
  | nil =>
    refine ⟨?_, List.pairwise_singleton _ _, ?_⟩
    · intro t ht
      rwa [List.mem_singleton.mp ht]
    · rintro _ ⟨⟩
      exact hrest
  | cons previous merged =>
    have hprevious := h.nonempty previous (List.mem_cons_self ..)
    have hordered := List.pairwise_cons.mp h.ordered
    rw [mergeStep]
    split_ifs with hlt
    · refine ⟨?_, List.pairwise_cons.mpr hordered, ?_⟩
      · intro t ht
        obtain rfl | ht := List.mem_cons.mp ht
        · exact lt_max_of_lt_left hprevious
        · exact h.nonempty t (List.mem_cons_of_mem _ ht)
      · rintro _ ⟨⟩ t ht
        exact h.later previous rfl t (List.mem_cons_of_mem _ ht)
    · have hle : previous.stop ≤ s.start := not_lt.mp hlt
      refine ⟨?_, List.pairwise_cons.mpr ⟨?_, h.ordered⟩, ?_⟩
      · exact List.forall_mem_cons.mpr ⟨hs, h.nonempty⟩
      · refine List.forall_mem_cons.mpr ⟨hle, fun t ht => ?_⟩
        exact (hordered.1 t ht).trans (hprevious.le.trans hle)
      · rintro _ ⟨⟩
        exact hrest

theorem Merging.foldl {merged rest : List (Span α)} (h : Merging merged rest)
    (hne : ∀ s ∈ rest, s.start < s.stop) (hsorted : rest.Pairwise fun s t => s.start ≤ t.start) :
    Merging (rest.foldl mergeStep merged) [] := by
  induction rest generalizing merged with
  | nil => exact h
  | cons s rest ih =>
    rw [List.forall_mem_cons] at hne
    rw [List.pairwise_cons] at hsorted
    exact ih (h.step hne.1 hsorted.1) hne.2 hsorted.2

theorem separated_mergeSorted (hne : ∀ s ∈ spans, s.start < s.stop)
    (hsorted : spans.Pairwise fun s t => s.start ≤ t.start) : Separated (mergeSorted spans) := by
  have hstart : Merging ([] : List (Span α)) spans := ⟨nofun, .nil, nofun⟩
  have hend := hstart.foldl hne hsorted
  refine ⟨fun s hs => hend.nonempty s (List.mem_reverse.mp hs), ?_⟩
  rw [mergeSorted, List.pairwise_reverse]
  exact hend.ordered

/-- Merging makes up no ends. -/
theorem ends_mergeStep {P : α → Prop} {merged : List (Span α)}
    (hm : ∀ t ∈ merged, P t.start ∧ P t.stop) (hs : P s.start ∧ P s.stop) :
    ∀ t ∈ mergeStep merged s, P t.start ∧ P t.stop := by
  cases merged with
  | nil =>
    intro t ht
    rwa [List.mem_singleton.mp ht]
  | cons previous merged =>
    rw [List.forall_mem_cons] at hm
    rw [mergeStep]
    split_ifs
    · exact List.forall_mem_cons.mpr ⟨⟨hm.1.1, max_rec' P hm.1.2 hs.2⟩, hm.2⟩
    · exact List.forall_mem_cons.mpr ⟨hs, List.forall_mem_cons.mpr hm⟩

theorem ends_mergeSorted {P : α → Prop} (h : ∀ s ∈ spans, P s.start ∧ P s.stop) :
    ∀ t ∈ mergeSorted spans, P t.start ∧ P t.stop := by
  have hfold (merged : List (Span α)) (hm : ∀ t ∈ merged, P t.start ∧ P t.stop) :
      ∀ t ∈ spans.foldl mergeStep merged, P t.start ∧ P t.stop := by
    induction spans generalizing merged with
    | nil => exact hm
    | cons s spans ih =>
      rw [List.forall_mem_cons] at h
      exact ih h.2 _ (ends_mergeStep hm h.1)
  exact fun t ht => hfold [] nofun t (List.mem_reverse.mp ht)

/-- Within the merged spans is what is within the spans. -/
theorem inside_mergeStep_iff {merged : List (Span α)} (h : ∀ previous ∈ merged.head?,
    previous.start ≤ s.start) :
    (∃ t ∈ mergeStep merged s, Inside p t) ↔ (∃ t ∈ merged, Inside p t) ∨ Inside p s := by
  cases merged with
  | nil =>
    rw [mergeStep, List.exists_mem_cons_iff, or_iff_left nofun]
    exact (or_iff_right nofun).symm
  | cons previous merged =>
    have hle := h previous rfl
    rw [mergeStep]
    split_ifs with hlt
    · rw [List.exists_mem_cons_iff, List.exists_mem_cons_iff, or_right_comm]
      refine or_congr_left ⟨fun hin => ?_, fun hin => ?_⟩
      · obtain hbefore | hafter := lt_or_ge p previous.stop
        · exact .inl ⟨hin.1, hbefore⟩
        · exact .inr ⟨hlt.trans_le hafter, (lt_max_iff.mp hin.2).resolve_left hafter.not_gt⟩
      · obtain hin | hin := hin
        · exact ⟨hin.1, lt_max_of_lt_left hin.2⟩
        · exact ⟨hle.trans_lt hin.1, lt_max_of_lt_right hin.2⟩
    · rw [List.exists_mem_cons_iff, or_comm]

theorem inside_mergeSorted_iff (hne : ∀ s ∈ spans, s.start < s.stop)
    (hsorted : spans.Pairwise fun s t => s.start ≤ t.start) :
    (∃ t ∈ mergeSorted spans, Inside p t) ↔ ∃ s ∈ spans, Inside p s := by
  have hfold (merged : List (Span α)) (hm : Merging merged spans) :
      (∃ t ∈ spans.foldl mergeStep merged, Inside p t) ↔
        (∃ t ∈ merged, Inside p t) ∨ ∃ s ∈ spans, Inside p s := by
    induction spans generalizing merged with
    | nil => exact (or_iff_left nofun).symm
    | cons s spans ih =>
      rw [List.forall_mem_cons] at hne
      rw [List.pairwise_cons] at hsorted
      rw [List.foldl_cons, ih hne.2 hsorted.2 _ (hm.step hne.1 hsorted.1), List.exists_mem_cons_iff,
        inside_mergeStep_iff fun previous hp => hm.later previous hp s (List.mem_cons_self ..),
        or_assoc]
  have hstart : Merging ([] : List (Span α)) spans := ⟨nofun, .nil, nofun⟩
  have hwhole := hfold [] hstart
  rw [or_iff_right nofun] at hwhole
  rw [← hwhole, mergeSorted]
  exact exists_congr fun t => and_congr_left fun _ => List.mem_reverse

/-! ## Absorbing -/

/-- Extends a span over those that overlap it, one after the other. -/
def absorb (r s : Span α) : Span α :=
  if s.start < r.stop ∧ r.start < s.stop then ⟨min r.start s.start, max r.stop s.stop⟩ else r

/-- Each span that overlaps is covered. -/
def Closed (spans : List (Span α)) (r : Span α) : Prop :=
  ∀ s ∈ spans, Overlaps r s → r.start ≤ s.start ∧ s.stop ≤ r.stop

theorem absorb_grows (r s : Span α) : (absorb r s).start ≤ r.start ∧ r.stop ≤ (absorb r s).stop := by
  unfold absorb
  split_ifs
  · exact ⟨min_le_left _ _, le_max_left _ _⟩
  · exact ⟨le_refl _, le_refl _⟩

theorem foldl_absorb_grows (spans : List (Span α)) (r : Span α) :
    (spans.foldl absorb r).start ≤ r.start ∧ r.stop ≤ (spans.foldl absorb r).stop := by
  induction spans generalizing r with
  | nil => exact ⟨le_refl _, le_refl _⟩
  | cons s spans ih =>
    obtain ⟨hstart, hstop⟩ := ih (absorb r s)
    obtain ⟨hstart', hstop'⟩ := absorb_grows r s
    exact ⟨hstart.trans hstart', hstop'.trans hstop⟩

/-- A span that starts within none keeps its start. -/
theorem start_foldl_absorb (h : ∀ s ∈ spans, ¬ Inside r.start s) :
    (spans.foldl absorb r).start = r.start := by
  induction spans generalizing r with
  | nil => rfl
  | cons s spans ih =>
    rw [List.forall_mem_cons] at h
    have hkept : (absorb r s).start = r.start := by
      unfold absorb
      split_ifs with hover
      · exact min_eq_left (not_lt.mp fun hlt => h.1 ⟨hlt, hover.2⟩)
      · rfl
    rw [List.foldl_cons, ih (hkept.symm ▸ h.2), hkept]

theorem ends_foldl_absorb {P : α → Prop} (h : ∀ s ∈ spans, P s.start ∧ P s.stop)
    (hr : P r.start ∧ P r.stop) :
    P (spans.foldl absorb r).start ∧ P (spans.foldl absorb r).stop := by
  induction spans generalizing r with
  | nil => exact hr
  | cons s spans ih =>
    rw [List.forall_mem_cons] at h
    refine ih h.2 ?_
    unfold absorb
    split_ifs
    · exact ⟨min_rec' P hr.1 h.1.1, max_rec' P hr.2 h.1.2⟩
    · exact hr

theorem stop_foldl_absorb_le {bound : α} (h : ∀ s ∈ spans, s.stop ≤ bound) (r : Span α) :
    (spans.foldl absorb r).stop ≤ max r.stop bound := by
  induction spans generalizing r with
  | nil => exact le_max_left _ _
  | cons s spans ih =>
    rw [List.forall_mem_cons] at h
    have habsorb : (absorb r s).stop ≤ max r.stop bound := by
      unfold absorb
      split_ifs
      · exact max_le_max_left _ h.1
      · exact le_max_left _ _
    exact (ih h.2 _).trans (max_le habsorb (le_max_right _ _))

/-- A pass that changes nothing has covered every span that overlaps. -/
theorem closed_of_foldl_absorb (h : spans.foldl absorb r = r) : Closed spans r := by
  induction spans with
  | nil => exact nofun
  | cons s spans ih =>
    rw [List.foldl_cons] at h
    have hgrows := foldl_absorb_grows spans (absorb r s)
    have hfirst : absorb r s = r := by
      obtain ⟨hstart, hstop⟩ := absorb_grows r s
      rw [h] at hgrows
      cases habs : absorb r s with
      | mk start stop =>
        rw [habs] at hstart hstop hgrows
        cases r with
        | mk rstart rstop =>
          congr 1
          · exact le_antisymm hstart hgrows.1
          · exact le_antisymm hgrows.2 hstop
    rw [hfirst] at h
    refine List.forall_mem_cons.mpr ⟨fun hover => ?_, ih h⟩
    rw [absorb, if_pos ⟨hover.1, hover.2⟩] at hfirst
    exact ⟨min_eq_left_iff.mp (congrArg Span.start hfirst),
      max_eq_left_iff.mp (congrArg Span.stop hfirst)⟩

theorem Closed.start_not_inside (h : Closed spans r) (hr : r.start < r.stop) (hs : s ∈ spans) :
    ¬ Inside r.start s := fun hin =>
  absurd hin.1 (h s hs ⟨hin.1.trans hr, hin.2⟩).1.not_gt

theorem Closed.stop_not_inside (h : Closed spans r) (hr : r.start < r.stop) (hs : s ∈ spans) :
    ¬ Inside r.stop s := fun hin =>
  absurd hin.2 (h s hs ⟨hin.1, hr.trans hin.2⟩).2.not_gt

end Span

end GrokBuild
