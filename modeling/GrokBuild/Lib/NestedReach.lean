import Mathlib.Order.Basic
import Mathlib.Tactic.Common

/-!
# Bounded search through nested scripts

A script has items (`item s a`), and an item may carry further scripts (`inner a t`).
An evaluator that recurses with a depth budget visits the items reachable within the
budget. The two rules below turn a recursive equation for such an evaluator, in its
existential or its universal form, into a statement about the items reached.
-/

namespace GrokBuild.NestedReach

variable {S A : Type*} (item : S → A → Prop) (inner : A → S → Prop)

/-- `a` is an item found below `s` after descending through `n` inner scripts. -/
inductive ReachAt (s : S) : ℕ → A → Prop
  | here {a : A} : item s a → ReachAt s 0 a
  | nest {n : ℕ} {a b : A} {t : S} :
      ReachAt s n a → inner a t → item t b → ReachAt s (n + 1) b

/-- `t` is a script found below `s` after descending through `n` inner scripts. -/
inductive ScriptAt (s : S) : ℕ → S → Prop
  | root : ScriptAt s 0 s
  | nest {n : ℕ} {a : A} {t : S} : ReachAt item inner s n a → inner a t → ScriptAt s (n + 1) t

variable {item inner}

theorem reachAt_zero_iff {s : S} {a : A} : ReachAt item inner s 0 a ↔ item s a := by
  constructor
  · intro h
    cases h with
    | here ha => exact ha
  · exact .here

theorem reachAt_of_inner {s t : S} {a : A} (ha : item s a) (ht : inner a t) {n : ℕ} {b : A}
    (h : ReachAt item inner t n b) : ReachAt item inner s (n + 1) b := by
  induction h with
  | here hb => exact .nest (.here ha) ht hb
  | nest _ hi hb ih => exact .nest ih hi hb

/-- Peeling the outermost script instead of the innermost one. -/
theorem reachAt_succ_iff {s : S} {n : ℕ} {b : A} :
    ReachAt item inner s (n + 1) b ↔
      ∃ a t, item s a ∧ inner a t ∧ ReachAt item inner t n b := by
  constructor
  · intro h
    induction n generalizing b with
    | zero =>
      cases h with
      | nest hr hi hb =>
        cases hr with
        | here ha => exact ⟨_, _, ha, hi, .here hb⟩
    | succ n ih =>
      cases h with
      | nest hr hi hb =>
        obtain ⟨a, t, ha, ht, hr⟩ := ih hr
        exact ⟨a, t, ha, ht, .nest hr hi hb⟩
  · rintro ⟨a, t, ha, ht, hr⟩
    exact reachAt_of_inner ha ht hr

theorem scriptAt_succ_iff {s t' : S} {n : ℕ} :
    ScriptAt item inner s (n + 1) t' ↔
      ∃ a t, item s a ∧ inner a t ∧ ScriptAt item inner t n t' := by
  constructor
  · intro h
    cases h with
    | nest hr hi =>
      cases n with
      | zero => exact ⟨_, _, reachAt_zero_iff.1 hr, hi, .root⟩
      | succ n =>
        obtain ⟨a, t, ha, ht, hr⟩ := reachAt_succ_iff.1 hr
        exact ⟨a, t, ha, ht, .nest hr hi⟩
  · rintro ⟨a, t, ha, ht, h⟩
    cases h with
    | root => exact .nest (.here ha) ht
    | nest hr hi => exact .nest (reachAt_of_inner ha ht hr) hi

/-- Existential rule: an evaluator that fires on an item itself or, while depth remains,
on one of its inner scripts, fires exactly when some item within the budget does. -/
theorem exists_reachAt_iff {E : ℕ → S → Prop} {P : A → Prop}
    (hzero : ∀ s, E 0 s ↔ ∃ a, item s a ∧ P a)
    (hsucc : ∀ d s, E (d + 1) s ↔ ∃ a, item s a ∧ (P a ∨ ∃ t, inner a t ∧ E d t)) (d : ℕ) (s : S) :
    E d s ↔ ∃ n ≤ d, ∃ a, ReachAt item inner s n a ∧ P a := by
  induction d generalizing s with
  | zero =>
    rw [hzero]
    constructor
    · rintro ⟨a, ha, hp⟩
      exact ⟨0, Nat.le_refl 0, a, .here ha, hp⟩
    · rintro ⟨n, hn, a, ha, hp⟩
      obtain rfl : n = 0 := by omega
      exact ⟨a, reachAt_zero_iff.1 ha, hp⟩
  | succ d ih =>
    rw [hsucc]
    constructor
    · rintro ⟨a, ha, hp | ⟨t, ht, he⟩⟩
      · exact ⟨0, Nat.zero_le _, a, .here ha, hp⟩
      · obtain ⟨n, hn, b, hb, hp⟩ := (ih t).mp he
        exact ⟨n + 1, by omega, b, reachAt_of_inner ha ht hb, hp⟩
    · rintro ⟨n, hn, b, hb, hp⟩
      cases n with
      | zero => exact ⟨b, reachAt_zero_iff.1 hb, .inl hp⟩
      | succ n =>
        obtain ⟨a, t, ha, ht, hb⟩ := reachAt_succ_iff.1 hb
        exact ⟨a, ha, .inr ⟨t, ht, (ih t).mpr ⟨n, by omega, b, hb, hp⟩⟩⟩

/-- Universal rule: an evaluator that accepts a good script whose items are all fine, and
whose inner scripts it accepts while depth remains, accepts exactly when every script and
every item below is fine and nothing lies below the budget. -/
theorem forall_reachAt_iff {E : ℕ → S → Prop} {G : S → Prop} {P : A → Prop}
    (hzero : ∀ s, E 0 s ↔ G s ∧ ∀ a, item s a → P a ∧ ∀ t, ¬ inner a t)
    (hsucc : ∀ d s, E (d + 1) s ↔ G s ∧ ∀ a, item s a → P a ∧ ∀ t, inner a t → E d t)
    (d : ℕ) (s : S) :
    E d s ↔ (∀ n t, ScriptAt item inner s n t → n ≤ d ∧ G t) ∧
      ∀ n a, ReachAt item inner s n a → n ≤ d ∧ P a := by
  induction d generalizing s with
  | zero =>
    rw [hzero]
    constructor
    · rintro ⟨hg, hi⟩
      refine ⟨fun n t h => ?_, fun n a h => ?_⟩
      · cases h with
        | root => exact ⟨Nat.le_refl 0, hg⟩
        | nest hr ht =>
          rename_i n a
          cases n with
          | zero => exact absurd ht ((hi _ (reachAt_zero_iff.1 hr)).2 _)
          | succ n =>
            obtain ⟨b, u, hb, hu, _⟩ := reachAt_succ_iff.1 hr
            exact absurd hu ((hi b hb).2 u)
      · cases n with
        | zero => exact ⟨Nat.le_refl 0, (hi a (reachAt_zero_iff.1 h)).1⟩
        | succ n =>
          obtain ⟨b, u, hb, hu, _⟩ := reachAt_succ_iff.1 h
          exact absurd hu ((hi b hb).2 u)
    · rintro ⟨hs, ha⟩
      refine ⟨(hs 0 s .root).2, fun a hi => ⟨(ha 0 a (.here hi)).2, fun t ht => ?_⟩⟩
      exact absurd (hs 1 t (.nest (.here hi) ht)).1 (by omega)
  | succ d ih =>
    rw [hsucc]
    constructor
    · rintro ⟨hg, hi⟩
      refine ⟨fun n t h => ?_, fun n a h => ?_⟩
      · cases n with
        | zero =>
          cases h with
          | root => exact ⟨Nat.zero_le _, hg⟩
        | succ n =>
          obtain ⟨b, u, hb, hu, h⟩ := scriptAt_succ_iff.1 h
          obtain ⟨hn, hg⟩ := ((ih u).mp ((hi b hb).2 u hu)).1 n t h
          exact ⟨by omega, hg⟩
      · cases n with
        | zero => exact ⟨Nat.zero_le _, (hi a (reachAt_zero_iff.1 h)).1⟩
        | succ n =>
          obtain ⟨b, u, hb, hu, h⟩ := reachAt_succ_iff.1 h
          obtain ⟨hn, hp⟩ := ((ih u).mp ((hi b hb).2 u hu)).2 n a h
          exact ⟨by omega, hp⟩
    · rintro ⟨hs, ha⟩
      refine ⟨(hs 0 s .root).2, fun a hi => ⟨(ha 0 a (.here hi)).2, fun t ht => ?_⟩⟩
      refine (ih t).mpr ⟨fun n u h => ?_, fun n b h => ?_⟩
      · obtain ⟨hn, hg⟩ := hs (n + 1) u (scriptAt_succ_iff.2 ⟨a, t, hi, ht, h⟩)
        exact ⟨by omega, hg⟩
      · obtain ⟨hn, hp⟩ := ha (n + 1) b (reachAt_of_inner hi ht h)
        exact ⟨by omega, hp⟩

end GrokBuild.NestedReach
