import Mathlib.Data.List.Basic
import Mathlib.Data.List.Induction
import Mathlib.Logic.Function.Basic

/-!
# Replaying writes

A map that changes by a list of writes has, at each point, the value of the last write to
that point, and its old value where there is none.
-/

namespace GrokBuild.Replay

variable {α β : Type*} [DecidableEq α]

def replay (ws : List (α × β)) (f : α → β) : α → β :=
  ws.foldl (fun f w => Function.update f w.1 w.2) f

/-- The value of the last write to `a`. -/
def lastWrite (ws : List (α × β)) (a : α) : Option β :=
  (ws.reverse.find? fun w => w.1 == a).map Prod.snd

theorem lastWrite_append (ws ws' : List (α × β)) (a : α) :
    lastWrite (ws ++ ws') a = (lastWrite ws' a).or (lastWrite ws a) := by
  unfold lastWrite
  rw [List.reverse_append, List.find?_append]
  cases ws'.reverse.find? fun w => w.1 == a <;> rfl

theorem lastWrite_singleton (w : α × β) (a : α) :
    lastWrite [w] a = if w.1 = a then some w.2 else none := by
  by_cases h : w.1 = a
  · simp [lastWrite, h]
  · simp [lastWrite, h]

/-- The last write around one element of a list that is turned into writes. -/
theorem lastWrite_filterMap_split {γ : Type*} (f : γ → Option (α × β)) (A B : List γ) (x : γ)
    (a : α) :
    lastWrite ((A ++ x :: B).filterMap f) a =
      (lastWrite (B.filterMap f) a).or
        ((lastWrite (f x).toList a).or (lastWrite (A.filterMap f) a)) := by
  rw [List.filterMap_append, lastWrite_append, List.filterMap_cons]
  cases f x with
  | none => rfl
  | some w =>
    show (lastWrite ([w] ++ B.filterMap f) a).or _ = _
    rw [lastWrite_append, Option.or_assoc]
    rfl

theorem lastWrite_eq_none_iff {ws : List (α × β)} {a : α} :
    lastWrite ws a = none ↔ ∀ w ∈ ws, w.1 ≠ a := by
  simp [lastWrite]

theorem mem_of_lastWrite {ws : List (α × β)} {a : α} {b : β} (h : lastWrite ws a = some b) :
    (a, b) ∈ ws := by
  unfold lastWrite at h
  obtain ⟨w, hw, rfl⟩ := Option.map_eq_some_iff.mp h
  have hmem := List.mem_reverse.mp (List.mem_of_find?_eq_some hw)
  have ha : w.1 = a := by simpa using List.find?_some hw
  rwa [← ha]

theorem replay_append (ws ws' : List (α × β)) (f : α → β) :
    replay (ws ++ ws') f = replay ws' (replay ws f) := by
  simp [replay]

theorem replay_apply (ws : List (α × β)) (f : α → β) (a : α) :
    replay ws f a = (lastWrite ws a).getD (f a) := by
  induction ws using List.reverseRecOn with
  | nil => rfl
  | append_singleton ws w ih =>
    rw [replay_append, lastWrite_append, lastWrite_singleton]
    by_cases h : w.1 = a
    · simp [replay, h]
    · simp [replay, h, Ne.symm h, ← ih]

end GrokBuild.Replay
