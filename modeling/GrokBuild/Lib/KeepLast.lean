import Mathlib.Data.List.Dedup

/-!
# The last of each key

Keeping the last element of each key of a list, and doing so by the positions of the
elements that have a later one.
-/

namespace GrokBuild.KeepLast

variable {β K : Type*} [DecidableEq K] (key : β → K)

@[grind] def keepLast : List β → List β
  | [] => []
  | b :: bs => if key b ∈ bs.map key then keepLast bs else b :: keepLast bs

/-- The positions, counted from `i`, of the elements with a later one of their key. -/
@[grind] def earlier : ℕ → List β → List ℕ
  | _, [] => []
  | i, b :: bs => if key b ∈ bs.map key then i :: earlier (i + 1) bs else earlier (i + 1) bs

variable {key}

theorem keepLast_sublist (bs : List β) : (keepLast key bs).Sublist bs := by
  induction bs with
  | nil => exact List.Sublist.refl _
  | cons b bs ih =>
    unfold keepLast
    split_ifs with h
    · exact ih.cons b
    · exact ih.cons_cons b

theorem map_keepLast (bs : List β) : (keepLast key bs).map key = (bs.map key).dedup := by
  induction bs with
  | nil => rfl
  | cons b bs ih =>
    unfold keepLast
    split_ifs with h
    · rw [ih, List.map_cons, List.dedup_cons_of_mem h]
    · rw [List.map_cons, ih, List.map_cons, List.dedup_cons_of_notMem h]

theorem nodup_keepLast (bs : List β) : ((keepLast key bs).map key).Nodup := by
  rw [map_keepLast]
  exact List.nodup_dedup _

theorem keepLast_eq_self {bs : List β} (h : (bs.map key).Nodup) : keepLast key bs = bs := by
  induction bs with
  | nil => rfl
  | cons b bs ih =>
    rw [List.map_cons, List.nodup_cons] at h
    rw [keepLast, if_neg h.1, ih h.2]

/-- What is kept of a key is the last element that has it. -/
theorem filter_keepLast (bs : List β) (k : K) :
    (keepLast key bs).filter (fun b => key b = k) =
      (bs.filter fun b => key b = k).getLast?.toList := by
  induction bs with
  | nil => rfl
  | cons b bs ih =>
    by_cases hk : key b = k
    · by_cases hmem : key b ∈ bs.map key
      · have hne : bs.filter (fun b => key b = k) ≠ [] := by
          obtain ⟨b', hb', hkey⟩ := List.mem_map.mp hmem
          apply List.ne_nil_of_mem (a := b')
          simp [hb', hkey, hk]
        rw [keepLast, if_pos hmem, ih, List.filter_cons_of_pos (by simpa using hk),
          List.getLast?_cons_of_ne_nil hne]
      · have hnil : bs.filter (fun b => key b = k) = [] := by
          apply List.filter_eq_nil_iff.mpr
          intro b' hb' hkey
          apply hmem
          rw [hk, ← of_decide_eq_true hkey]
          exact List.mem_map_of_mem hb'
        rw [keepLast, if_neg hmem, List.filter_cons_of_pos (by simpa using hk),
          List.filter_cons_of_pos (by simpa using hk), ih, hnil]
        rfl
    · rw [List.filter_cons_of_neg (by simpa using hk), ← ih, keepLast]
      split_ifs with hmem
      · rfl
      · rw [List.filter_cons_of_neg (by simpa using hk)]

theorem length_earlier (i : ℕ) (bs : List β) :
    (earlier key i bs).length + (keepLast key bs).length = bs.length := by
  induction bs generalizing i with
  | nil => rfl
  | cons b bs ih =>
    have := ih (i + 1)
    unfold earlier keepLast
    split_ifs <;> simp only [List.length_cons] <;> omega

theorem le_of_mem_earlier {i j : ℕ} {bs : List β} (h : j ∈ earlier key i bs) : i ≤ j := by
  induction bs generalizing i with
  | nil => simp [earlier] at h
  | cons b bs ih =>
    unfold earlier at h
    split_ifs at h with hb
    · rcases List.mem_cons.mp h with rfl | h
      · exact Nat.le_refl _
      · have := ih h
        omega
    · have := ih h
      omega

theorem earlier_sorted (i : ℕ) (bs : List β) : (earlier key i bs).Pairwise (· < ·) := by
  induction bs generalizing i with
  | nil => exact List.Pairwise.nil
  | cons b bs ih =>
    unfold earlier
    split_ifs with hb
    · refine List.pairwise_cons.mpr ⟨fun j hj => ?_, ih (i + 1)⟩
      have := le_of_mem_earlier hj
      omega
    · exact ih (i + 1)

/-- Erasing the earlier elements from the back leaves the last of each key. -/
theorem foldr_eraseIdx_earlier (pre bs : List β) :
    (earlier key pre.length bs).foldr (fun i l => l.eraseIdx i) (pre ++ bs) =
      pre ++ keepLast key bs := by
  induction bs generalizing pre with
  | nil => rfl
  | cons b bs ih =>
    have hrec := ih (pre ++ [b])
    rw [List.length_append, List.length_singleton, List.append_assoc, List.singleton_append] at hrec
    unfold earlier keepLast
    split_ifs with hb
    · rw [List.foldr_cons, hrec, List.append_assoc, List.eraseIdx_append_of_length_le (Nat.le_refl _),
        Nat.sub_self]
      rfl
    · rw [hrec, List.append_assoc]
      rfl

end GrokBuild.KeepLast
