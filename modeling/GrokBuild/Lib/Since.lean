import Mathlib.Data.List.Basic
import Mathlib.Data.List.Induction

/-!
# Since

The past of a run, in terms of its events: a fact about an event may look at all the events
before it, and `Since P C` says that an event with `P` took place and none with `C` after it.
What each event sets on `P` and clears on `C` is such a fact.
-/

namespace GrokBuild.Past

variable {α : Type*} {P C : List α → α → Prop} {p : List α} {u : α}

/-- Some event with `P`, after which there is none with `C`. -/
def Since (P C : List α → α → Prop) (p : List α) : Prop :=
  ∃ pre a mid, p = pre ++ a :: mid ∧ P pre a ∧
    ∀ m₁ u m₂, mid = m₁ ++ u :: m₂ → ¬C (pre ++ a :: m₁) u

theorem not_since_nil : ¬Since P C [] := by
  rintro ⟨pre, a, mid, h, -⟩
  simp at h

theorem since_concat : Since P C (p ++ [u]) ↔ P p u ∨ Since P C p ∧ ¬C p u := by
  constructor
  · rintro ⟨pre, a, mid, heq, hP, hC⟩
    rcases List.eq_nil_or_concat mid with rfl | ⟨mid, v, rfl⟩
    · obtain ⟨rfl, hu⟩ := List.append_inj' heq rfl
      obtain rfl : u = a := by simpa using hu
      exact .inl hP
    · rw [List.concat_eq_append, ← List.cons_append, ← List.append_assoc] at heq
      obtain ⟨rfl, hv⟩ := List.append_inj' heq rfl
      obtain rfl : u = v := by simpa using hv
      refine .inr ⟨⟨pre, a, mid, rfl, hP, fun m₁ w m₂ hmid => ?_⟩, ?_⟩
      · exact hC m₁ w (m₂ ++ [u]) (by simp [hmid])
      · exact hC mid u [] (by simp)
  · rintro (hP | ⟨⟨pre, a, mid, rfl, hP, hC⟩, hu⟩)
    · exact ⟨p, u, [], rfl, hP, by simp⟩
    · refine ⟨pre, a, mid ++ [u], by simp, hP, fun m₁ w m₂ hmid => ?_⟩
      rcases List.eq_nil_or_concat m₂ with rfl | ⟨m₂, v, rfl⟩
      · obtain ⟨rfl, hw⟩ := List.append_inj' hmid rfl
        obtain rfl : u = w := by simpa using hw
        exact hu
      · rw [List.concat_eq_append, ← List.cons_append, ← List.append_assoc] at hmid
        obtain ⟨rfl, -⟩ := List.append_inj' hmid rfl
        exact hC m₁ w m₂ rfl

/-- A fact about runs that their events set and clear as `P` and `C` say. -/
theorem iff_since {I : List α → Prop} (hnil : ¬I [])
    (hconcat : ∀ p u, I (p ++ [u]) ↔ P p u ∨ I p ∧ ¬C p u) (p : List α) : I p ↔ Since P C p := by
  induction p using List.reverseRecOn with
  | nil => exact iff_of_false hnil not_since_nil
  | append_singleton p u ih => rw [hconcat, since_concat, ih]

end GrokBuild.Past
