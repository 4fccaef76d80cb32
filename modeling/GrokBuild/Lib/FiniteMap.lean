import Mathlib.Data.List.AList
import Mathlib.Data.Finmap
import Mathlib.Data.Finset.Max

/-!
# Finite maps

Bulk operations on finite maps: keeping the keys of a predicate, erasing along a list of
keys, and evicting the smallest keys until a bound on the size is met.
-/

namespace GrokBuild.FiniteMap

variable {K V : Type*} [DecidableEq K]

@[grind] def retain (p : K → Bool) (m : Finmap fun _ : K => V) : Finmap fun _ : K => V :=
  Finmap.keysLookupEquiv.symm
    ⟨(m.keys.filter (p ·), fun k => if p k then m.lookup k else none), by
      intro k
      by_cases hp : p k = true <;> simp [hp, Finmap.mem_keys, Finmap.lookup_isSome]⟩

@[simp] theorem lookup_retain (p : K → Bool) (m : Finmap fun _ : K => V) (k : K) :
    (retain p m).lookup k = if p k then m.lookup k else none := by
  simp [retain]

@[simp] theorem keys_retain (p : K → Bool) (m : Finmap fun _ : K => V) :
    (retain p m).keys = m.keys.filter (p ·) := by
  simp [retain]

theorem lookup_insert_eq (m : Finmap fun _ : K => V) (k k' : K) (v : V) :
    (m.insert k v).lookup k' = if k' = k then some v else m.lookup k' := by
  split
  · rename_i h
    rw [h, Finmap.lookup_insert]
  · rename_i h
    rw [Finmap.lookup_insert_of_ne _ h]

theorem lookup_erase_eq (m : Finmap fun _ : K => V) (k k' : K) :
    (m.erase k).lookup k' = if k' = k then none else m.lookup k' := by
  split
  · rename_i h
    rw [h, Finmap.lookup_erase]
  · rename_i h
    rw [Finmap.lookup_erase_ne h]

theorem keys_insert (m : Finmap fun _ : K => V) (k : K) (v : V) :
    (m.insert k v).keys = insert k m.keys := by
  ext k'
  simp [Finmap.mem_keys, Finmap.mem_insert]

/-! ## Association lists -/

section Listed

theorem alist_lookup_insert_eq (m : AList fun _ : K => V) (k k' : K) (v : V) :
    (m.insert k v).lookup k' = if k' = k then some v else m.lookup k' := by
  split
  · rename_i h
    rw [h, AList.lookup_insert]
  · rename_i h
    rw [AList.lookup_insert_ne h]

theorem alist_lookup_erase_eq (m : AList fun _ : K => V) (k k' : K) :
    (m.erase k).lookup k' = if k' = k then none else m.lookup k' := by
  split
  · rename_i h
    rw [h, AList.lookup_erase]
  · rename_i h
    rw [AList.lookup_erase_ne h]

/-- The left map wins; so does a map into which another one is merged by `or_insert`. -/
theorem alist_lookup_union_eq (m m' : AList fun _ : K => V) (k : K) :
    (m ∪ m').lookup k = (m.lookup k).or (m'.lookup k) := by
  by_cases h : k ∈ m
  · obtain ⟨v, hv⟩ := Option.isSome_iff_exists.mp (AList.lookup_isSome.mpr h)
    rw [AList.lookup_union_left h, hv, Option.some_or]
  · rw [AList.lookup_union_right h, AList.lookup_eq_none.mpr h, Option.none_or]

@[grind] def retainKeys (p : K → Bool) (m : AList fun _ : K => V) : AList fun _ : K => V :=
  ⟨m.entries.filter fun entry => p entry.1, m.nodupKeys.sublist List.filter_sublist⟩

theorem lookup_retainKeys (p : K → Bool) (m : AList fun _ : K => V) (k : K) :
    (retainKeys p m).lookup k = if p k then m.lookup k else none := by
  ext v
  have hmem (m : AList fun _ : K => V) : v ∈ m.lookup k ↔ (⟨k, v⟩ : Sigma fun _ : K => V) ∈ m.entries :=
    List.mem_dlookup_iff m.nodupKeys
  rw [← Option.mem_def, hmem, retainKeys, List.mem_filter, ← hmem]
  by_cases hp : p k = true <;> simp [hp]

/-- Erase the listed keys that `ok` lets go. -/
@[grind] def eraseAll (ok : K → Bool) (ks : List K) (m : AList fun _ : K => V) : AList fun _ : K => V :=
  ks.foldl (fun m k => if ok k then m.erase k else m) m

theorem lookup_eraseAll (ok : K → Bool) (ks : List K) (m : AList fun _ : K => V) (k : K) :
    (eraseAll ok ks m).lookup k = if k ∈ ks ∧ ok k then none else m.lookup k := by
  induction ks generalizing m with
  | nil => simp [eraseAll]
  | cons k' ks ih =>
    change (eraseAll ok ks (if ok k' then m.erase k' else m)).lookup k = _
    rw [ih]
    by_cases hk : k = k'
    · subst hk
      by_cases hok : ok k = true <;> simp [hok]
    · by_cases hok : ok k' = true
      · simp [hok, hk, alist_lookup_erase_eq]
      · simp [hok, hk]

end Listed

/-! ## Evicting the smallest keys -/

section Evict

variable {K V : Type*} [LinearOrder K]

/-- `while map.len() > cap { map.pop_first() }`, with the popped keys in their order; the
number bounds the pops. -/
@[grind] def evictBeyond (cap : ℕ) : ℕ → (Finmap fun _ : K => V) → List K × (Finmap fun _ : K => V)
  | 0, m => ([], m)
  | n + 1, m =>
    if h : cap < m.keys.card then
      let oldest := m.keys.min' (Finset.card_pos.mp (Nat.zero_lt_of_lt h))
      let rest := evictBeyond cap n (m.erase oldest)
      (oldest :: rest.1, rest.2)
    else ([], m)

variable {cap n : ℕ} {m : Finmap fun _ : K => V}

theorem evictBeyond_succ (n : ℕ) (h : cap < m.keys.card) :
    ∃ oldest ∈ m.keys, (∀ k ∈ m.keys, oldest ≤ k) ∧
      evictBeyond cap (n + 1) m =
        (oldest :: (evictBeyond cap n (m.erase oldest)).1,
          (evictBeyond cap n (m.erase oldest)).2) := by
  have hne : m.keys.Nonempty := Finset.card_pos.mp (Nat.zero_lt_of_lt h)
  refine ⟨m.keys.min' hne, Finset.min'_mem _ hne, fun k hk => Finset.min'_le _ k hk, ?_⟩
  rw [evictBeyond, dif_pos h]

theorem evictBeyond_of_le (h : m.keys.card ≤ cap) : evictBeyond cap n m = ([], m) := by
  cases n with
  | zero => rfl
  | succ n => rw [evictBeyond, dif_neg (by omega)]

/-- What is left of a map after the eviction is the map without the evicted keys. -/
theorem lookup_evictBeyond (k : K) :
    (evictBeyond cap n m).2.lookup k =
      if k ∈ (evictBeyond cap n m).1 then none else m.lookup k := by
  induction n generalizing m with
  | zero => simp [evictBeyond]
  | succ n ih =>
    by_cases h : cap < m.keys.card
    · obtain ⟨oldest, -, -, heq⟩ := evictBeyond_succ n h
      rw [heq, ih, lookup_erase_eq]
      by_cases hk : k = oldest <;> simp [hk]
    · rw [evictBeyond_of_le (by omega)]
      simp

theorem card_evictBeyond (h : m.keys.card ≤ n) : (evictBeyond cap n m).2.keys.card ≤ cap := by
  induction n generalizing m with
  | zero => exact h.trans (Nat.zero_le cap)
  | succ n ih =>
    by_cases hcap : cap < m.keys.card
    · obtain ⟨oldest, hmem, hmin, heq⟩ := evictBeyond_succ n hcap
      have hcard : (m.erase oldest).keys.card = m.keys.card - 1 := by
        rw [Finmap.keys_erase, Finset.card_erase_of_mem hmem]
      rw [heq]
      exact ih (by omega)
    · rw [evictBeyond_of_le (by omega)]
      exact not_lt.mp hcap

theorem length_evicted (h : m.keys.card ≤ n) :
    (evictBeyond cap n m).1.length = m.keys.card - cap := by
  induction n generalizing m with
  | zero => simp [evictBeyond, Nat.le_zero.mp h]
  | succ n ih =>
    by_cases hcap : cap < m.keys.card
    · obtain ⟨oldest, hmem, hmin, heq⟩ := evictBeyond_succ n hcap
      have hcard : (m.erase oldest).keys.card = m.keys.card - 1 := by
        rw [Finmap.keys_erase, Finset.card_erase_of_mem hmem]
      rw [heq, List.length_cons, ih (by omega)]
      omega
    · rw [evictBeyond_of_le (by omega)]
      simp only [List.length_nil]
      omega

/-- The evicted keys lie below every key that is left. -/
theorem evicted_lt {k k' : K} (h : k ∈ (evictBeyond cap n m).1)
    (h' : k' ∈ (evictBeyond cap n m).2.keys) : k < k' := by
  induction n generalizing m with
  | zero => simp [evictBeyond] at h
  | succ n ih =>
    by_cases hcap : cap < m.keys.card
    · obtain ⟨oldest, hmem, hmin, heq⟩ := evictBeyond_succ n hcap
      rw [heq] at h h'
      rcases List.mem_cons.mp h with rfl | hrest
      · -- the rest was left by a map without `k`, so `k'` is another key above the minimum
        have hk' : k' ∈ (m.erase k).keys := by
          rw [Finmap.mem_keys, ← Finmap.lookup_isSome] at h' ⊢
          rw [lookup_evictBeyond] at h'
          split at h'
          · cases h'
          · exact h'
        rw [Finmap.keys_erase, Finset.mem_erase] at hk'
        exact lt_of_le_of_ne (hmin k' hk'.2) (Ne.symm hk'.1)
      · exact ih hrest h'
    · rw [evictBeyond_of_le (by omega)] at h
      cases h

end Evict

end GrokBuild.FiniteMap
