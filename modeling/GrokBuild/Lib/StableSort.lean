import Mathlib.Data.List.Sort

/-!
# Pairs of a sorted list

Insertion sort is stable: of two elements the one that stood first stays first unless it has to
come second. So a relation between the elements of the sorted list, taken in order, is a relation
between those of the list it was sorted from.
-/

namespace GrokBuild.StableSort

variable {α : Type*} {r : α → α → Prop} [DecidableRel r] {R : α → α → Prop} {a : α} {l : List α}

/-- The relation holds of two elements in the order in which a stable sort leaves them. -/
def InOrder (r R : α → α → Prop) (a b : α) : Prop :=
  (r a b → R a b) ∧ (¬ r a b → R b a)

theorem pairwise_orderedInsert_iff [IsTrans α r] (hsorted : l.Pairwise r) :
    (l.orderedInsert r a).Pairwise R ↔ (∀ b ∈ l, InOrder r R a b) ∧ l.Pairwise R := by
  induction l with
  | nil => simp
  | cons b l ih =>
    obtain ⟨hb, hl⟩ := List.pairwise_cons.mp hsorted
    by_cases hab : r a b
    · have hall : ∀ c ∈ b :: l, r a c := by
        intro c hc
        rcases List.mem_cons.mp hc with rfl | hc
        · exact hab
        · exact IsTrans.trans a b c hab (hb c hc)
      rw [List.orderedInsert_cons, if_pos hab, List.pairwise_cons]
      apply and_congr_left
      intro _
      apply forall₂_congr
      intro c hc
      simp only [InOrder, hall c hc, true_implies, not_true, false_implies, and_true]
    · have hmem : (∀ c ∈ l.orderedInsert r a, R b c) ↔ R b a ∧ ∀ c ∈ l, R b c := by
        simp only [List.mem_orderedInsert, forall_eq_or_imp]
      have hfirst : InOrder r R a b ↔ R b a := by
        simp only [InOrder, hab, not_false_eq_true, true_implies, false_implies, true_and]
      rw [List.orderedInsert_cons, if_neg hab, List.pairwise_cons, ih hl, hmem, List.forall_mem_cons,
        hfirst, List.pairwise_cons]
      tauto

theorem pairwise_insertionSort_iff [Std.Total r] [IsTrans α r] :
    (l.insertionSort r).Pairwise R ↔ l.Pairwise (InOrder r R) := by
  induction l with
  | nil => simp
  | cons a l ih =>
    rw [List.insertionSort_cons, pairwise_orderedInsert_iff (List.pairwise_insertionSort r l), ih,
      List.pairwise_cons]
    simp only [List.mem_insertionSort]

end GrokBuild.StableSort
