import Mathlib.Data.List.Basic
import Mathlib.Data.List.Infix
import GrokBuild.Text.Str

/-!
# Splitting at a character and joining again

`str::split(sep)` and `parts.join(sep)` for a one-character separator.
-/

namespace GrokBuild.Text

variable {sep : Char}

def joinOnChar (sep : Char) (parts : List Str) : Str := [sep].intercalate parts

theorem splitOnChar_ne_nil (sep : Char) (s : Str) : splitOnChar sep s ≠ [] := by
  cases s with
  | nil => simp [splitOnChar]
  | cons c s =>
    rw [splitOnChar]
    split
    · simp
    · split <;> simp

@[simp] theorem splitOnChar_sep (s : Str) : splitOnChar sep (sep :: s) = [] :: splitOnChar sep s := by
  simp [splitOnChar]

/-- A text up to its first separator is the first part. -/
theorem splitOnChar_of_not_mem {x : Str} (h : sep ∉ x) : splitOnChar sep x = [x] := by
  induction x with
  | nil => rfl
  | cons c x ih =>
    have hc : (c == sep) = false := by
      simp only [beq_eq_false_iff_ne]
      exact fun he => h (he ▸ List.mem_cons_self)
    rw [splitOnChar, hc, ih (fun hm => h (List.mem_cons_of_mem c hm))]
    rfl

theorem splitOnChar_append (x y : Str) :
    splitOnChar sep (x ++ sep :: y) = splitOnChar sep x ++ splitOnChar sep y := by
  induction x with
  | nil => simp [splitOnChar]
  | cons c x ih =>
    rw [List.cons_append, splitOnChar, ih]
    by_cases hc : (c == sep) = true
    · rw [splitOnChar, if_pos hc, if_pos hc, List.cons_append]
    · rw [splitOnChar, if_neg hc, if_neg hc]
      -- the pieces of `x` are not empty, so the first one takes the character on both sides
      cases hx : splitOnChar sep x with
      | nil => exact absurd hx (splitOnChar_ne_nil sep x)
      | cons piece pieces => rfl

theorem not_mem_of_mem_splitOnChar {s part : Str} (h : part ∈ splitOnChar sep s) : sep ∉ part := by
  induction s generalizing part with
  | nil =>
    simp only [splitOnChar, List.mem_singleton] at h
    simp [h]
  | cons c s ih =>
    rw [splitOnChar] at h
    split at h
    · rcases List.mem_cons.mp h with rfl | hm
      · simp
      · exact ih hm
    · rename_i hc
      split at h
      · rename_i hn
        exact absurd hn (splitOnChar_ne_nil sep s)
      · rename_i piece pieces hp
        rcases List.mem_cons.mp h with rfl | hm
        · have hpiece : sep ∉ piece := ih (by rw [hp]; exact List.mem_cons_self)
          intro hm
          rcases List.mem_cons.mp hm with rfl | hm
          · simp at hc
          · exact hpiece hm
        · exact ih (by rw [hp]; exact List.mem_cons_of_mem _ hm)

@[simp] theorem joinOnChar_singleton (part : Str) : joinOnChar sep [part] = part := by
  simp [joinOnChar, List.intercalate]

theorem joinOnChar_cons (part : Str) {parts : List Str} (h : parts ≠ []) :
    joinOnChar sep (part :: parts) = part ++ sep :: joinOnChar sep parts := by
  cases parts with
  | nil => exact absurd rfl h
  | cons p ps => simp [joinOnChar, List.intercalate]

/-- Joined parts split back into themselves when none holds the separator. -/
theorem splitOnChar_joinOnChar {parts : List Str} (hne : parts ≠ [])
    (h : ∀ part ∈ parts, sep ∉ part) : splitOnChar sep (joinOnChar sep parts) = parts := by
  induction parts with
  | nil => exact absurd rfl hne
  | cons part parts ih =>
    have hpart := splitOnChar_of_not_mem (h part List.mem_cons_self)
    by_cases hp : parts = []
    · rw [hp, joinOnChar_singleton, hpart]
    · rw [joinOnChar_cons part hp, splitOnChar_append, hpart,
        ih hp fun q hq => h q (List.mem_cons_of_mem _ hq)]
      rfl

/-- Joined parts are the first one and every other one behind a separator. -/
theorem joinOnChar_cons_eq (part : Str) (parts : List Str) :
    joinOnChar sep (part :: parts) = part ++ parts.flatMap (sep :: ·) := by
  induction parts generalizing part with
  | nil => rw [joinOnChar_singleton, List.flatMap_nil, List.append_nil]
  | cons next parts ih =>
    rw [joinOnChar_cons part (List.cons_ne_nil next parts), ih]
    rfl

theorem joinOnChar_splitOnChar (s : Str) : joinOnChar sep (splitOnChar sep s) = s := by
  induction s with
  | nil => rfl
  | cons c s ih =>
    obtain ⟨x, rest, hsplit⟩ := List.exists_cons_of_ne_nil (splitOnChar_ne_nil sep s)
    rw [hsplit] at ih
    by_cases hc : c = sep
    · rw [hc, splitOnChar_sep, hsplit, joinOnChar_cons [] (List.cons_ne_nil x rest), ih]
      rfl
    · have hne : (c == sep) = false := beq_eq_false_iff_ne.mpr hc
      rw [joinOnChar_cons_eq] at ih
      rw [splitOnChar, hne, if_neg Bool.false_ne_true, hsplit]
      dsimp only
      rw [joinOnChar_cons_eq, List.cons_append, ih]

/-- A text without the separator goes to the first part of what follows it. -/
theorem splitOnChar_append_of_not_mem {x : Str} (hx : sep ∉ x) (y : Str) :
    splitOnChar sep (x ++ y) =
      (x ++ (splitOnChar sep y).head (splitOnChar_ne_nil sep y)) :: (splitOnChar sep y).tail := by
  induction x with
  | nil => exact (List.cons_head_tail _).symm
  | cons c x ih =>
    rw [List.mem_cons, not_or] at hx
    have hc : (c == sep) = false := beq_eq_false_iff_ne.mpr (Ne.symm hx.1)
    rw [List.cons_append, splitOnChar, hc, if_neg Bool.false_ne_true, ih hx.2]
    rfl

end GrokBuild.Text
