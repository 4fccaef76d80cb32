import Mathlib
import GrokBuild.Text.Str

/-!
# Slices of strings

Splitting at a separator, and slices by byte position, which panic inside a character.
-/

namespace GrokBuild.Text

/-- `s.split_once(sep)`: what stands before and after the first `sep`. -/
@[grind] def splitOnce (sep : Str) : Str → Option (Str × Str)
  | [] => if sep = [] then some ([], []) else none
  | c :: s =>
    if startsWith (c :: s) sep then some ([], (c :: s).drop sep.length)
    else (splitOnce sep s).map fun parts => (c :: parts.1, parts.2)

/-- `s.len()`. -/
def utf8Len (s : Str) : ℕ := (s.map Char.utf8Size).sum

/-- `&s[..n]`; a panic, when `n` is no boundary of a character, is `none`. -/
@[grind] def takeBytes : ℕ → Str → Option Str
  | 0, _ => some []
  | _ + 1, [] => none
  | n + 1, c :: s =>
    if c.utf8Size ≤ n + 1 then (takeBytes (n + 1 - c.utf8Size) s).map (c :: ·) else none

@[simp] theorem utf8Len_cons (c : Char) (s : Str) : utf8Len (c :: s) = c.utf8Size + utf8Len s := by
  simp [utf8Len]

/-- The slice is there when the position is the end of some of the characters. -/
theorem takeBytes_isSome_iff (n : ℕ) (s : Str) :
    (takeBytes n s).isSome ↔ ∃ pre post, s = pre ++ post ∧ utf8Len pre = n := by
  fun_induction takeBytes n s with
  | case1 s => exact ⟨fun _ => ⟨[], s, rfl, rfl⟩, fun _ => rfl⟩
  | case2 n =>
    constructor
    · intro h
      cases h
    · rintro ⟨pre, post, hs, hlen⟩
      obtain ⟨rfl, rfl⟩ := List.append_eq_nil_iff.mp hs.symm
      cases hlen
  | case3 n c s hc ih =>
    rw [Option.isSome_map, ih]
    constructor
    · rintro ⟨pre, post, rfl, hlen⟩
      refine ⟨c :: pre, post, rfl, ?_⟩
      rw [utf8Len_cons, hlen]
      exact Nat.add_sub_of_le hc
    · rintro ⟨pre, post, hs, hlen⟩
      cases pre with
      | nil => cases hlen
      | cons c' pre =>
        rw [List.cons_append, List.cons.injEq] at hs
        obtain ⟨rfl, rfl⟩ := hs
        rw [utf8Len_cons] at hlen
        exact ⟨pre, post, rfl, by omega⟩
  | case4 n c s hc =>
    constructor
    · intro h
      cases h
    · rintro ⟨pre, post, hs, hlen⟩
      cases pre with
      | nil => cases hlen
      | cons c' pre =>
        rw [List.cons_append, List.cons.injEq] at hs
        obtain ⟨rfl, rfl⟩ := hs
        rw [utf8Len_cons] at hlen
        omega

/-!
## Both ends of a text

When trimming and stripping leave a text or its rest as it is. Nothing here knows what the text is
for.
-/

variable {s : Str}

theorem stripPrefix_append (p s : Str) : stripPrefix (p ++ s) p = some s := by
  have h : startsWith (p ++ s) p = true := List.isPrefixOf_iff_prefix.mpr (List.prefix_append p s)
  rw [stripPrefix, if_pos h, List.drop_left]

theorem trim_eq_self (hfirst : ∀ c ∈ s.head?, isWhitespace c = false)
    (hlast : ∀ c ∈ s.getLast?, isWhitespace c = false) : trim s = s := by
  have hstart : trimStart s = s := by
    cases s with
    | nil => rfl
    | cons c s => exact List.dropWhile_cons_of_neg (by rw [hfirst c rfl]; exact Bool.false_ne_true)
  rw [trim, hstart, trimEndMatches, List.rdropWhile_eq_self_iff]
  intro hne
  rw [hlast _ (List.getLast?_eq_some_getLast hne)]
  exact Bool.false_ne_true

/-- A trimmed text does not end in whitespace. -/
theorem last_of_trim_eq_self (h : trim s = s) : ∀ c ∈ s.getLast?, isWhitespace c = false := by
  intro c hc
  rw [← h] at hc
  obtain ⟨t, ht⟩ := List.getLast?_eq_some_iff.mp hc
  have hne : trim s ≠ [] := by
    rw [ht]
    exact List.append_ne_nil_of_right_ne_nil _ (List.cons_ne_nil _ _)
  have hlast := List.rdropWhile_last_not isWhitespace (trimStart s) hne
  have hget : (trim s).getLast hne = c := by
    rw [List.getLast_eq_iff_getLast?_eq_some, hc]
  rw [← hget]
  exact eq_false_of_ne_true hlast

theorem head_of_trim_eq_self (h : trim s = s) : ∀ c ∈ s.head?, isWhitespace c = false := by
  intro c hc
  obtain ⟨t, rfl⟩ := List.head?_eq_some_iff.mp hc
  by_contra hblank
  have hstart : trimStart (c :: t) = trimStart t :=
    List.dropWhile_cons_of_pos (eq_true_of_ne_false hblank)
  have hlen : (trim (c :: t)).length ≤ t.length := by
    rw [trim, hstart]
    exact (List.rdropWhile_prefix _ _).length_le.trans (List.dropWhile_suffix _).length_le
  rw [h, List.length_cons] at hlen
  exact absurd hlen (Nat.not_succ_le_self _)

end GrokBuild.Text
