import Mathlib.Data.List.Nodup
import Mathlib.Data.List.Perm.Basic
import Mathlib.Data.List.Perm.Lattice
import Mathlib.Logic.Function.Basic

/-!
# Secondary indexes

Records lie in cells, each with an id and perhaps a key. A secondary index maps a key to
the ids of the records that have it. It may also hold ids of records that are gone, since a
lookup finds nothing for these.
-/

namespace GrokBuild.SecondaryIndex

variable {ι R I κ : Type*} [DecidableEq I] [DecidableEq κ] (id : R → I) (key : R → Option κ)

/-- Take a record out of the index. -/
def unlistOne (index : κ → List I) (r : R) : κ → List I :=
  match key r with
  | none => index
  | some k => Function.update index k ((index k).erase (id r))

/-- Put a record into the index. -/
def enlistOne (index : κ → List I) (r : R) : κ → List I :=
  match key r with
  | none => index
  | some k => Function.update index k ((index k).insert (id r))

def unlist (rs : List R) (index : κ → List I) : κ → List I :=
  rs.foldl (unlistOne id key) index

def enlist (rs : List R) (index : κ → List I) : κ → List I :=
  rs.foldl (enlistOne id key) index

/-- The index lists exactly the live records under their keys. -/
structure Consistent (cells : ι → List R) (index : κ → List I) : Prop where
  nodup : ∀ i, ((cells i).map id).Nodup
  disjoint : ∀ i j, ∀ a ∈ cells i, ∀ b ∈ cells j, id a = id b → i = j
  index_nodup : ∀ k, (index k).Nodup
  exact : ∀ i, ∀ a ∈ cells i, ∀ k, id a ∈ index k ↔ key a = some k

section Update

variable {id key}

theorem nodup_unlist {index : κ → List I} (h : ∀ k, (index k).Nodup) (rs : List R) (k : κ) :
    (unlist id key rs index k).Nodup := by
  induction rs generalizing index with
  | nil => exact h k
  | cons r rs ih =>
    apply ih
    intro k
    unfold unlistOne
    cases key r with
    | none => exact h k
    | some k' =>
      by_cases hk : k = k'
      · subst hk
        simpa using (h k).erase _
      · simpa [hk] using h k

theorem nodup_enlist {index : κ → List I} (h : ∀ k, (index k).Nodup) (rs : List R) (k : κ) :
    (enlist id key rs index k).Nodup := by
  induction rs generalizing index with
  | nil => exact h k
  | cons r rs ih =>
    apply ih
    intro k
    unfold enlistOne
    cases key r with
    | none => exact h k
    | some k' =>
      by_cases hk : k = k'
      · subst hk
        simpa using (h k).insert
      · simpa [hk] using h k

theorem mem_unlistOne {index : κ → List I} (h : ∀ k, (index k).Nodup) (r : R) {k : κ} {x : I} :
    x ∈ unlistOne id key index r k ↔ x ∈ index k ∧ ¬(key r = some k ∧ id r = x) := by
  unfold unlistOne
  cases hr : key r with
  | none => simp
  | some k' =>
    by_cases hk : k = k'
    · subst hk
      simp only [Function.update_self, (h k).mem_erase_iff, true_and]
      rw [and_comm, ne_comm, ne_eq]
    · simp [hk, Ne.symm hk]

theorem mem_enlistOne {index : κ → List I} (r : R) {k : κ} {x : I} :
    x ∈ enlistOne id key index r k ↔ x ∈ index k ∨ key r = some k ∧ id r = x := by
  unfold enlistOne
  cases hr : key r with
  | none => simp
  | some k' =>
    by_cases hk : k = k'
    · subst hk
      simp only [Function.update_self, List.mem_insert_iff, true_and]
      rw [or_comm, eq_comm]
    · simp [hk, Ne.symm hk]

theorem nodup_unlistOne {index : κ → List I} (h : ∀ k, (index k).Nodup) (r : R) (k : κ) :
    (unlistOne id key index r k).Nodup :=
  nodup_unlist h [r] k

theorem mem_unlist {index : κ → List I} (h : ∀ k, (index k).Nodup) (rs : List R) {k : κ}
    {x : I} :
    x ∈ unlist id key rs index k ↔ x ∈ index k ∧ ∀ r ∈ rs, ¬(key r = some k ∧ id r = x) := by
  induction rs generalizing index with
  | nil => simp [unlist]
  | cons r rs ih =>
    show x ∈ unlist id key rs (unlistOne id key index r) k ↔ _
    rw [ih (nodup_unlistOne h r), mem_unlistOne h, List.forall_mem_cons, and_assoc]

theorem mem_enlist {index : κ → List I} (rs : List R) {k : κ} {x : I} :
    x ∈ enlist id key rs index k ↔ x ∈ index k ∨ ∃ r ∈ rs, key r = some k ∧ id r = x := by
  induction rs generalizing index with
  | nil => simp [enlist]
  | cons r rs ih =>
    show x ∈ enlist id key rs (enlistOne id key index r) k ↔ _
    rw [ih, mem_enlistOne, or_assoc, List.exists_mem_cons_iff]

/-- Records without a key are in no index. -/
theorem unlist_of_no_key {rs : List R} (h : ∀ r ∈ rs, key r = none) (index : κ → List I) :
    unlist id key rs index = index := by
  induction rs generalizing index with
  | nil => rfl
  | cons r rs ih =>
    rw [List.forall_mem_cons] at h
    show unlist id key rs (unlistOne id key index r) = index
    rw [ih h.2, unlistOne, h.1]

theorem length_unlistOne_le (r : R) (index : κ → List I) (k : κ) :
    (unlistOne id key index r k).length ≤ (index k).length := by
  unfold unlistOne
  cases key r with
  | none => exact Nat.le_refl _
  | some k' =>
    dsimp only
    by_cases hk : k = k'
    · subst hk
      rw [Function.update_self]
      exact List.erase_sublist.length_le
    · exact Nat.le_of_eq (congrArg List.length (Function.update_of_ne hk _ _))

theorem length_unlist_le (rs : List R) (index : κ → List I) (k : κ) :
    (unlist id key rs index k).length ≤ (index k).length := by
  induction rs generalizing index with
  | nil => exact Nat.le_refl _
  | cons r rs ih => exact Nat.le_trans (ih _) (length_unlistOne_le r index k)

theorem unlistOne_eq_self_iff {r : R} {index : κ → List I} :
    unlistOne id key index r = index ↔ ∀ k, key r = some k → id r ∉ index k := by
  unfold unlistOne
  cases hr : key r with
  | none => simp
  | some k =>
    simp only [Function.update_eq_self_iff, List.erase_eq_self_iff, Option.some.injEq,
      forall_eq']

/-- Taking records out leaves the index as it is exactly when it lists none of them. -/
theorem unlist_eq_self_iff {rs : List R} {index : κ → List I} :
    unlist id key rs index = index ↔ ∀ r ∈ rs, ∀ k, key r = some k → id r ∉ index k := by
  induction rs generalizing index with
  | nil => simp [unlist]
  | cons r rs ih =>
    show unlist id key rs (unlistOne id key index r) = index ↔ _
    rw [List.forall_mem_cons, ← unlistOne_eq_self_iff]
    constructor
    · intro h
      have hone : unlistOne id key index r = index := by
        rw [unlistOne_eq_self_iff]
        intro k hk hmem
        -- the list under `k` is shorter by one and does not grow again
        have hle : (unlist id key rs (unlistOne id key index r) k).length ≤
            (unlistOne id key index r k).length := length_unlist_le rs _ k
        have herase : (unlistOne id key index r k).length = (index k).length - 1 := by
          rw [unlistOne, hk]
          dsimp only
          rw [Function.update_self, List.length_erase_of_mem hmem]
        have hpos := List.length_pos_of_mem hmem
        rw [h] at hle
        omega
      rw [hone] at h
      exact ⟨hone, ih.mp h⟩
    · rintro ⟨hone, hrest⟩
      rw [hone]
      exact ih.mpr hrest

end Update

section Steps

variable [DecidableEq ι] {id key} {cells : ι → List R} {index : κ → List I} {i : ι}

omit [DecidableEq ι] [DecidableEq I] [DecidableEq κ] in
/-- In a consistent state an id belongs to one record only. -/
theorem Consistent.eq_of_id (h : Consistent id key cells index) {j : ι} {a b : R}
    (ha : a ∈ cells i) (hb : b ∈ cells j) (hab : id a = id b) : i = j ∧ a = b := by
  have hij := h.disjoint i j a ha b hb hab
  subst hij
  exact ⟨rfl, List.inj_on_of_nodup_map (h.nodup i) ha hb hab⟩

omit [DecidableEq I] [DecidableEq κ] in
/-- Records may go without leaving the index. -/
theorem Consistent.restrict (h : Consistent id key cells index) {rs : List R}
    (hs : rs.Sublist (cells i)) : Consistent id key (Function.update cells i rs) index := by
  have hsub : ∀ j, ∀ a ∈ Function.update cells i rs j, a ∈ cells j := by
    intro j a ha
    by_cases hj : j = i
    · subst hj
      rw [Function.update_self] at ha
      exact hs.subset ha
    · rwa [Function.update_of_ne hj] at ha
  refine ⟨fun j => ?_, ?_, h.index_nodup, fun j a ha => h.exact j a (hsub j a ha)⟩
  · by_cases hj : j = i
    · subst hj
      rw [Function.update_self]
      exact (h.nodup j).sublist (hs.map id)
    · rw [Function.update_of_ne hj]
      exact h.nodup j
  · exact fun j k a ha b hb => h.disjoint j k a (hsub j a ha) b (hsub k b hb)

/-- Records that go may leave the index, when what stays in the cell is something else. -/
theorem Consistent.remove (h : Consistent id key cells index) {out rs : List R}
    (hout : out ⊆ cells i) (hs : rs.Sublist (cells i)) (hne : ∀ a ∈ rs, a ∉ out) :
    Consistent id key (Function.update cells i rs) (unlist id key out index) := by
  obtain ⟨hn, hd, -, he⟩ := h.restrict hs
  refine ⟨hn, hd, nodup_unlist h.index_nodup out, ?_⟩
  intro j a ha k
  rw [mem_unlist h.index_nodup, he j a ha k]
  constructor
  · exact And.left
  · refine fun hk => ⟨hk, fun r hr hrk => ?_⟩
    by_cases hj : j = i
    · subst hj
      rw [Function.update_self] at ha
      have heq := (h.eq_of_id (hout hr) (hs.subset ha) hrk.2).2
      exact hne a ha (heq ▸ hr)
    · rw [Function.update_of_ne hj] at ha
      exact hj (h.eq_of_id (hout hr) ha hrk.2).1.symm

/-- The records of a cell are replaced, in the index too. The new ones have ids of the old
ones, or ids never used. -/
theorem Consistent.replace (h : Consistent id key cells index) {new : List R}
    (hn : (new.map id).Nodup)
    (hids : ∀ r ∈ new, (∃ o ∈ cells i, id o = id r) ∨
      ((∀ j, ∀ o ∈ cells j, id o ≠ id r) ∧ ∀ k, id r ∉ index k)) :
    Consistent id key (Function.update cells i new)
      (enlist id key new (unlist id key (cells i) index)) := by
  have hother : ∀ j, j ≠ i → ∀ a ∈ cells j, ∀ r ∈ new, id a ≠ id r := by
    intro j hj a ha r hr har
    rcases hids r hr with ⟨o, ho, hor⟩ | ⟨hfresh, -⟩
    · exact hj (h.disjoint j i a ha o ho (har.trans hor.symm))
    · exact hfresh j a ha har
  refine ⟨fun j => ?_, ?_, nodup_enlist (nodup_unlist h.index_nodup _) _, ?_⟩
  · by_cases hj : j = i
    · subst hj
      rwa [Function.update_self]
    · rw [Function.update_of_ne hj]
      exact h.nodup j
  · intro j k a ha b hb hab
    by_cases hj : j = i
    · by_cases hk : k = i
      · exact hj.trans hk.symm
      · subst hj
        rw [Function.update_self] at ha
        rw [Function.update_of_ne hk] at hb
        exact absurd hab.symm (hother k hk b hb a ha)
    · rw [Function.update_of_ne hj] at ha
      by_cases hk : k = i
      · subst hk
        rw [Function.update_self] at hb
        exact absurd hab (hother j hj a ha b hb)
      · rw [Function.update_of_ne hk] at hb
        exact h.disjoint j k a ha b hb hab
  · intro j a ha k
    rw [mem_enlist, mem_unlist h.index_nodup]
    by_cases hj : j = i
    · subst hj
      rw [Function.update_self] at ha
      constructor
      · rintro (⟨hin, hnot⟩ | ⟨r, hr, hrk, hra⟩)
        · -- an entry of before belongs to an old record, and that was taken out
          rcases hids a ha with ⟨o, ho, hoa⟩ | ⟨-, hfresh⟩
          · exact absurd ⟨(h.exact j o ho k).mp (hoa ▸ hin), hoa⟩ (hnot o ho)
          · exact absurd hin (hfresh k)
        · rwa [← List.inj_on_of_nodup_map hn hr ha hra]
      · exact fun hk => Or.inr ⟨a, ha, hk, rfl⟩
    · rw [Function.update_of_ne hj] at ha
      rw [← h.exact j a ha k]
      constructor
      · rintro (⟨hin, -⟩ | ⟨r, hr, -, hra⟩)
        · exact hin
        · exact absurd hra.symm (hother j hj a ha r hr)
      · refine fun hin => Or.inl ⟨hin, fun r hr hrk => ?_⟩
        exact hj (h.disjoint j i a ha r hr hrk.2.symm)

end Steps

/-- A lookup through the index gives the live records with the key, whatever ids of gone
records the index still holds. -/
theorem Consistent.lookup_perm {id key} {cells : ι → List R} {index : κ → List I}
    (h : Consistent id key cells index) {is : List ι} (his : is.Nodup) (k : κ) :
    ((index k).filterMap fun x => (is.flatMap cells).find? fun r => id r == x).Perm
      ((is.flatMap cells).filter fun r => key r == some k) := by
  classical
  have hlive : ∀ r, r ∈ is.flatMap cells ↔ ∃ i ∈ is, r ∈ cells i := by simp
  have hinj : ∀ a ∈ is.flatMap cells, ∀ b ∈ is.flatMap cells, id a = id b → a = b := by
    intro a ha b hb hab
    obtain ⟨i, -, hai⟩ := (hlive a).mp ha
    obtain ⟨j, -, hbj⟩ := (hlive b).mp hb
    exact (h.eq_of_id hai hbj hab).2
  have hfind : ∀ r ∈ is.flatMap cells,
      ((is.flatMap cells).find? fun r' => id r' == id r) = some r := by
    intro r hr
    cases hf : (is.flatMap cells).find? fun r' => id r' == id r with
    | none =>
      have := List.find?_eq_none.mp hf r hr
      simp at this
    | some r' =>
      have hid : id r' = id r := by simpa using List.find?_some hf
      rw [hinj r' (List.mem_of_find?_eq_some hf) r hr hid]
  have hnodup : (is.flatMap cells).Nodup := by
    rw [List.nodup_flatMap]
    refine ⟨fun i _ => (h.nodup i).of_map, his.imp ?_⟩
    intro i j hij a ha hb
    exact hij (h.disjoint i j a ha a hb rfl)
  rw [List.perm_ext_iff_of_nodup _ (hnodup.filter _)]
  · intro r
    rw [List.mem_filterMap, List.mem_filter]
    constructor
    · rintro ⟨x, hx, hf⟩
      have hr := List.mem_of_find?_eq_some hf
      have hid : id r = x := by simpa using List.find?_some hf
      obtain ⟨i, -, hri⟩ := (hlive r).mp hr
      refine ⟨hr, ?_⟩
      rw [beq_iff_eq, ← h.exact i r hri k, hid]
      exact hx
    · rintro ⟨hr, hk⟩
      obtain ⟨i, -, hri⟩ := (hlive r).mp hr
      rw [beq_iff_eq] at hk
      exact ⟨id r, (h.exact i r hri k).mpr hk, hfind r hr⟩
  · refine (h.index_nodup k).filterMap ?_
    intro x y r hx hy
    have h1 : id r = x := by simpa using List.find?_some hx
    have h2 : id r = y := by simpa using List.find?_some hy
    exact h1.symm.trans h2

end GrokBuild.SecondaryIndex
