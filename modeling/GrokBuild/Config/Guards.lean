import GrokBuild.Config.Override

/-!
# What a patch can reach

A patch is silent from a path on when, merged, it leaves everything there alone. Stripping
makes it silent, the later steps of cleaning keep it so, and normalization speaks only of
the web-search key that it clears.
-/

namespace GrokBuild.Config

open GrokBuild.Overlay

variable {σ ι M : Type}

/-- The table says nothing of the path or of what is beneath it. -/
def Silent (t : Table σ ι) (p : List String) : Prop := ∀ q, (Nested.node t).word (p ++ q) = none

section Words

variable {t : Table σ ι} {k key : String} {p : List String}

theorem word_node (t : Table σ ι) (k : String) (p : List String) :
    (Nested.node t).word (k :: p) = (t k).bind fun v => v.word p := by
  rw [Nested.word]
  cases t k with
  | none => rfl
  | some v => rfl

theorem word_ne_none (v : Toml σ ι) : v.word [] ≠ none := by
  cases v <;> exact Option.some_ne_none _

theorem silent_single_iff : Silent t [k] ↔ t k = none := by
  constructor
  · intro h
    have h0 := h []
    rw [List.append_nil, word_node] at h0
    cases hk : t k with
    | none => rfl
    | some v =>
      rw [hk] at h0
      exact absurd h0 (word_ne_none v)
  · intro h q
    rw [List.singleton_append, word_node, h]
    rfl

theorem silent_cons_iff : Silent t (k :: p) ↔ ∀ v, t k = some v → ∀ q, v.word (p ++ q) = none := by
  constructor
  · intro h v hv q
    have hq := h q
    rw [List.cons_append, word_node, hv] at hq
    exact hq
  · intro h q
    rw [List.cons_append, word_node]
    cases hk : t k with
    | none => rfl
    | some v => exact h v hk q

theorem remove_self (t : Table σ ι) (key : String) : t.remove key key = none := if_pos rfl

theorem remove_of_ne (t : Table σ ι) (h : k ≠ key) : t.remove key k = t k := if_neg h

theorem insert_self (t : Table σ ι) (key : String) (v : Toml σ ι) :
    t.insert key v key = some v := if_pos rfl

theorem insert_of_ne (t : Table σ ι) (v : Toml σ ι) (h : k ≠ key) : t.insert key v k = t k :=
  if_neg h

/-- Every value that one table has the other has, up to a change that keeps it silent where
it was. -/
def Quieter (t t' : Table σ ι) : Prop :=
  ∀ k v', t' k = some v' → ∃ v, t k = some v ∧
    ∀ p : List String, p ≠ [] → v.word p = none → v'.word p = none

theorem Quieter.refl (t : Table σ ι) : Quieter t t :=
  fun _ v hv => ⟨v, hv, fun _ _ h => h⟩

theorem Quieter.trans {t₁ t₂ t₃ : Table σ ι} (h : Quieter t₁ t₂) (h' : Quieter t₂ t₃) :
    Quieter t₁ t₃ := by
  intro k v₃ h₃
  obtain ⟨v₂, h₂, hw₂⟩ := h' k v₃ h₃
  obtain ⟨v₁, h₁, hw₁⟩ := h k v₂ h₂
  exact ⟨v₁, h₁, fun p hp hn => hw₂ p hp (hw₁ p hp hn)⟩

theorem Quieter.word {t t' : Table σ ι} (h : Quieter t t') {p : List String}
    (hp : (Nested.node t).word p = none) : (Nested.node t').word p = none := by
  cases p with
  | nil => exact absurd hp (word_ne_none _)
  | cons k p =>
    rw [word_node] at hp ⊢
    cases hk : t' k with
    | none => rfl
    | some v' =>
      obtain ⟨v, hv, hw⟩ := h k v' hk
      rw [hv] at hp
      have hne : p ≠ [] := by
        rintro rfl
        exact word_ne_none v hp
      exact hw p hne hp

theorem Quieter.silent {t t' : Table σ ι} (h : Quieter t t') (hs : Silent t p) : Silent t' p :=
  fun q => h.word (hs q)

theorem quieter_remove (t : Table σ ι) (key : String) : Quieter t (t.remove key) := by
  intro k v hv
  by_cases hk : k = key
  · rw [hk, remove_self] at hv
    cases hv
  · rw [remove_of_ne t hk] at hv
    exact ⟨v, hv, fun _ _ h => h⟩

theorem quieter_insert_node {nested nested' : Table σ ι} (hk : t key = some (.node nested))
    (h : Quieter nested nested') : Quieter t (t.insert key (.node nested')) := by
  intro k v hv
  by_cases hkey : k = key
  · rw [hkey, insert_self, Option.some.injEq] at hv
    rw [hkey, ← hv]
    exact ⟨_, hk, fun p _ hn => h.word hn⟩
  · rw [insert_of_ne t _ hkey] at hv
    exact ⟨v, hv, fun _ _ h => h⟩

theorem quieter_stripPath (t : Table σ ι) (path : List String) :
    Quieter t (stripPath t path) := by
  induction path generalizing t with
  | nil => exact Quieter.refl t
  | cons key rest ih =>
    cases rest with
    | nil => exact quieter_remove t key
    | cons next rest =>
      rw [stripPath]
      split
      · next nested hk => exact quieter_insert_node hk (ih nested)
      · exact quieter_remove t key
      · exact Quieter.refl t

theorem quieter_guardModels (config : Toml σ ι) (t : Table σ ι) :
    Quieter t (guardModels config t) := by
  rw [guardModels]
  split
  · next models hm =>
    apply quieter_insert_node hm
    intro id v' hv'
    obtain ⟨v, hv, rfl⟩ := Option.map_eq_some_iff.1 hv'
    refine ⟨v, hv, ?_⟩
    intro p hp hn
    cases v with
    | leaf l => exact hn
    | node model =>
      have hq : Quieter model (Table.remove model "mtls_cert_dir") := quieter_remove model _
      rw [guardModel]
      split
      · exact ((hq.trans (quieter_remove _ _)).trans (quieter_remove _ _)).word hn
      · exact hq.word hn
  · exact Quieter.refl t

theorem quieter_foldl {α : Type} {f : Table σ ι → α → Table σ ι}
    (hf : ∀ t a, Quieter t (f t a)) (t : Table σ ι) (as : List α) :
    Quieter t (as.foldl f t) := by
  induction as generalizing t with
  | nil => exact Quieter.refl t
  | cons a as ih => exact (hf t a).trans (ih (f t a))

theorem quieter_cleanPatch (config : Toml σ ι) (stripKeys : List String) (t : Table σ ι) :
    Quieter t (cleanPatch config stripKeys t) := by
  have hstrip : Quieter t (stripKeys.foldl Table.remove t) := quieter_foldl quieter_remove t _
  exact (hstrip.trans (quieter_guardModels config _)).trans (quieter_foldl quieter_stripPath _ _)

/-- A stripped path is not spoken of. -/
theorem silent_stripPath (t : Table σ ι) {path : List String} (hne : path ≠ []) :
    Silent (stripPath t path) path := by
  induction path generalizing t with
  | nil => exact absurd rfl hne
  | cons key rest ih =>
    cases rest with
    | nil => exact silent_single_iff.2 (remove_self t key)
    | cons next rest =>
      rw [stripPath]
      split
      · next nested hk =>
        rw [silent_cons_iff]
        intro v hv q
        rw [insert_self, Option.some.injEq] at hv
        rw [← hv]
        exact ih nested (List.cons_ne_nil _ _) q
      · rw [silent_cons_iff, remove_self]
        intro v hv
        cases hv
      · next hk =>
        rw [silent_cons_iff, hk]
        intro v hv
        cases hv

theorem silent_foldl_of_mem {α : Type} {f : Table σ ι → α → Table σ ι}
    (hf : ∀ t a, Quieter t (f t a)) {as : List α} {a : α} (ha : a ∈ as)
    (hs : ∀ t, Silent (f t a) p) (t : Table σ ι) : Silent (as.foldl f t) p := by
  induction as generalizing t with
  | nil => cases ha
  | cons b as ih =>
    rcases List.mem_cons.1 ha with rfl | ha
    · exact (quieter_foldl hf _ as).silent (hs t)
    · exact ih ha (f t b)

theorem silent_cleanPatch_key (config : Toml σ ι) {stripKeys : List String}
    (hk : k ∈ stripKeys) (t : Table σ ι) : Silent (cleanPatch config stripKeys t) [k] := by
  have hstrip : Silent (stripKeys.foldl Table.remove t) [k] :=
    silent_foldl_of_mem quieter_remove hk (fun t => silent_single_iff.2 (remove_self t k)) t
  have hclean := (quieter_guardModels config (stripKeys.foldl Table.remove t)).trans
    (quieter_foldl quieter_stripPath _ patchStripPaths)
  exact hclean.silent hstrip

theorem silent_cleanPatch_path (config : Toml σ ι) (stripKeys : List String)
    (hp : p ∈ patchStripPaths) (t : Table σ ι) : Silent (cleanPatch config stripKeys t) p := by
  have hne : p ≠ [] := by
    rintro rfl
    revert hp
    decide
  exact silent_foldl_of_mem quieter_stripPath hp (fun t => silent_stripPath t hne) _

end Words

section Normalize

variable {t : Table σ ι} {key : String} {p : List String}

/-- The key of the web-search table that normalizing the layer clears. -/
def clearedBy (t : Table σ ι) : Option String :=
  match t "toolset" with
  | some (.node toolset) =>
    match toolset "web_search" with
    | some (.node webSearch) => clearedKey webSearch
    | _ => none
  | _ => none

def clearedPath (key : String) : List String := ["toolset", "web_search", key]

theorem clearedBy_eq_some (h : clearedBy t = some key) :
    ∃ toolset webSearch, t "toolset" = some (.node toolset) ∧
      toolset "web_search" = some (.node webSearch) ∧ clearedKey webSearch = some key := by
  rw [clearedBy] at h
  split at h
  · next toolset ht =>
    split at h
    · next webSearch hw => exact ⟨toolset, webSearch, ht, hw, h⟩
    · cases h
  · cases h

theorem normalizeConfigLayer_of_none (h : clearedBy t = none) :
    normalizeConfigLayer (.node t) = .node t := by
  rw [clearedBy] at h
  rw [normalizeConfigLayer]
  split
  · next toolset ht =>
    rw [ht] at h
    dsimp only at h
    split
    · next webSearch hw =>
      rw [hw] at h
      dsimp only at h
      rw [h]
    · rfl
  · rfl

theorem normalizeConfigLayer_of_some {toolset webSearch : Table σ ι}
    (ht : t "toolset" = some (.node toolset))
    (hw : toolset "web_search" = some (.node webSearch)) (hk : clearedKey webSearch = some key) :
    normalizeConfigLayer (.node t) =
      .node (Table.insert t "toolset" (.node (Table.insert toolset "web_search"
        (.node (Table.insert webSearch key (.leaf (.array []))))))) := by
  rw [normalizeConfigLayer, ht]
  dsimp only
  rw [hw]
  dsimp only
  rw [hk]

/-- What normalization says of the key it clears. -/
theorem word_normalize_cleared (h : clearedBy t = some key) (r : List String) :
    (normalizeConfigLayer (.node t)).word (clearedPath key ++ r) =
      some (match r with
        | [] => .leaf (.array [])
        | _ :: _ => .absent) := by
  obtain ⟨toolset, webSearch, ht, hw, hk⟩ := clearedBy_eq_some h
  rw [normalizeConfigLayer_of_some ht hw hk]
  simp only [clearedPath, List.cons_append, List.nil_append, word_node, insert_self,
    Option.bind_some]
  cases r with
  | nil => rfl
  | cons k r => rfl

/-- Of everything else it says what the layer said. -/
theorem word_normalize (t : Table σ ι)
    (hp : ∀ key, clearedBy t = some key → ¬clearedPath key <+: p) :
    (normalizeConfigLayer (.node t)).word p = (Nested.node t).word p := by
  cases hc : clearedBy t with
  | none => rw [normalizeConfigLayer_of_none hc]
  | some key =>
    obtain ⟨toolset, webSearch, ht, hw, hk⟩ := clearedBy_eq_some hc
    rw [normalizeConfigLayer_of_some ht hw hk]
    have hnot := hp key hc
    -- along the path to the cleared key both are tables
    match p with
    | [] => rfl
    | k :: p =>
      by_cases hk₁ : k = "toolset"
      · rw [word_node, word_node, hk₁, insert_self, ht, Option.bind_some, Option.bind_some]
        match p with
        | [] => rfl
        | k₂ :: p =>
          by_cases hk₂ : k₂ = "web_search"
          · rw [word_node, word_node, hk₂, insert_self, hw, Option.bind_some, Option.bind_some]
            match p with
            | [] => rfl
            | k₃ :: p =>
              by_cases hk₃ : k₃ = key
              · refine absurd ⟨p, ?_⟩ hnot
                rw [hk₁, hk₂, hk₃]
                rfl
              · rw [word_node, word_node, insert_of_ne _ _ hk₃]
          · rw [word_node, word_node, insert_of_ne _ _ hk₂]
      · rw [word_node, word_node, insert_of_ne _ _ hk₁]

theorem silent_normalize (hs : Silent t p) (hp : ∀ key, clearedBy t = some key →
    ¬clearedPath key <+: p ∧ ¬p <+: clearedPath key) (q : List String) :
    (normalizeConfigLayer (.node t)).word (p ++ q) = none := by
  rw [word_normalize t]
  · exact hs q
  · intro key hkey hpre
    obtain ⟨hnot, hnot'⟩ := hp key hkey
    rcases List.prefix_or_prefix_of_prefix hpre (List.prefix_append p q) with h | h
    · exact hnot h
    · exact hnot' h

end Normalize

section Strip

/-- The patches leave alone every stripped key and every stripped path. -/
theorem applyPatches_stripped (config : Toml σ ι) (patches : List (Table σ ι))
    (stripKeys : List String) :
    (∀ k ∈ stripKeys, (applyPatches config patches stripKeys).valueAt [k] = config.valueAt [k]) ∧
      ∀ p ∈ patchStripPaths,
        (applyPatches config patches stripKeys).valueAt p = config.valueAt p := by
  have hrun : ∀ p, (∀ config patch q,
      (normalizeConfigLayer (.node (cleanPatch (σ := σ) (ι := ι) config stripKeys patch))).word
        (p ++ q) = none) →
      (applyPatches config patches stripKeys).valueAt p = config.valueAt p := by
    intro p hp
    induction patches generalizing config with
    | nil => rfl
    | cons patch patches ih =>
      have hstep : (applyPatch stripKeys config patch).valueAt p = config.valueAt p :=
        Nested.valueAt_merge_of_silent (hp config patch)
      exact (ih (applyPatch stripKeys config patch)).trans hstep
  constructor
  · intro k hk
    apply hrun
    intro config patch
    have hsilent := silent_cleanPatch_key config hk patch
    apply silent_normalize hsilent
    intro key hkey
    obtain ⟨toolset, -, ht, -⟩ := clearedBy_eq_some hkey
    have hne : k ≠ "toolset" := by
      rintro rfl
      rw [silent_single_iff.1 hsilent] at ht
      cases ht
    constructor
    · rintro ⟨r, hr⟩
      cases hr
    · rintro ⟨r, hr⟩
      exact hne (List.cons.inj hr).1
  · intro p hp
    apply hrun
    intro config patch
    apply silent_normalize (silent_cleanPatch_path config stripKeys hp patch)
    intro key _
    simp only [patchStripPaths, List.mem_cons, List.not_mem_nil, or_false] at hp
    rcases hp with rfl | rfl
    · constructor <;> rintro ⟨r, hr⟩ <;> simp [clearedPath] at hr
    · constructor <;> rintro ⟨r, hr⟩ <;> simp [clearedPath] at hr

end Strip

end GrokBuild.Config
