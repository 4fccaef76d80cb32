import Mathlib.Data.List.Basic
import Mathlib.Data.List.Range

/-!
# Before- and after-images

A change of a map from keys to values is recorded by the images, before and after it, of the
keys it touched. Records compose: over two changes in a row the first before-image and the
last after-image of a key record the whole change. The before-images alone undo it.
-/

namespace GrokBuild.UndoLog

variable {K V : Type*}

/-- `before` and `after` record a change from `f` to `g`. -/
structure Change (f g : K → V) (before after : K → Option V) : Prop where
  before_eq : ∀ k v, before k = some v → f k = v
  after_eq : ∀ k v, after k = some v → g k = v
  untouched : ∀ k, before k = none → f k = g k
  same_keys : ∀ k, before k = none ↔ after k = none

namespace Change

variable {f g h : K → V} {before after before' after' : K → Option V}

theorem refl (f : K → V) : Change f f (fun _ => none) (fun _ => none) :=
  ⟨by simp, by simp, fun _ _ => rfl, by simp⟩

theorem trans (h₁ : Change f g before after) (h₂ : Change g h before' after') :
    Change f h (fun k => (before k).or (before' k)) (fun k => (after' k).or (after k)) := by
  refine ⟨?_, ?_, ?_, ?_⟩
  · intro k v hk
    cases hb : before k with
    | some w =>
      rw [hb, Option.some_or] at hk
      exact h₁.before_eq k v (hb.trans hk)
    | none =>
      rw [hb, Option.none_or] at hk
      rw [h₁.untouched k hb]
      exact h₂.before_eq k v hk
  · intro k v hk
    cases ha : after' k with
    | some w =>
      rw [ha, Option.some_or] at hk
      exact h₂.after_eq k v (ha.trans hk)
    | none =>
      rw [ha, Option.none_or] at hk
      rw [← h₂.untouched k ((h₂.same_keys k).mpr ha)]
      exact h₁.after_eq k v hk
  · intro k hk
    obtain ⟨hb, hb'⟩ := Option.or_eq_none_iff.mp hk
    rw [h₁.untouched k hb, h₂.untouched k hb']
  · intro k
    rw [Option.or_eq_none_iff, Option.or_eq_none_iff, h₁.same_keys, h₂.same_keys, and_comm]

/-- Putting the before-images back undoes the change. -/
theorem restore (h₁ : Change f g before after) (k : K) : (before k).getD (g k) = f k := by
  cases hb : before k with
  | some v => exact (h₁.before_eq k v hb).symm
  | none => exact (h₁.untouched k hb).symm

/-- A touched key has its current value as its after-image. -/
theorem after_eq_some (h₁ : Change f g before after) {k : K} (hb : before k ≠ none) :
    after k = some (g k) := by
  have ha : after k ≠ none := fun ha => hb ((h₁.same_keys k).mpr ha)
  obtain ⟨v, hv⟩ := Option.ne_none_iff_exists'.mp ha
  rw [hv, h₁.after_eq k v hv]

/-- A run of changes is recorded by the first before-image and the last after-image of each
key. -/
theorem span {S : ℕ → K → V} {befores afters : ℕ → K → Option V} {m n : ℕ}
    (hstep : ∀ i, m ≤ i → i < m + n → Change (S i) (S (i + 1)) (befores i) (afters i)) :
    Change (S m) (S (m + n)) (fun k => (List.range' m n).findSome? fun i => befores i k)
      (fun k => (List.range' m n).reverse.findSome? fun i => afters i k) := by
  induction n generalizing m with
  | zero => exact refl (S m)
  | succ n ih =>
    have hfirst := hstep m le_rfl (by omega)
    have hrest : Change (S (m + 1)) (S (m + 1 + n)) _ _ :=
      ih fun i hi hlt => hstep i (by omega) (by omega)
    have hall := hfirst.trans hrest
    rw [show m + (n + 1) = m + 1 + n by omega]
    convert hall using 2 with k k
    · rw [List.range'_succ, List.findSome?_cons]
      cases befores m k <;> rfl
    · rw [List.range'_succ, List.reverse_cons, List.findSome?_append, List.findSome?_singleton]

end Change

end GrokBuild.UndoLog
