import GrokBuild.Config.Guards

/-!
# Identities, requirements and touched paths

Campaign patches are cleaned of what would rebind a model's local identity, but a patch that
puts a leaf in the place of a model's table takes the identity away, and the next one finds
nothing to guard. The requirements then give the identity back. Likewise a patch that sets
one web-search list clears the other without touching its path. Apart from these two the
patches keep what they must.
-/

namespace GrokBuild.Config

open GrokBuild.Overlay

variable {σ ι M : Type}

def identityKeys : List String := ["mtls_cert_dir", "base_url", "api_base_url"]

/-- The patch puts a leaf where the model's table is, or where all of them are. -/
def replacesModel (patch : Table σ ι) (id : String) : Bool :=
  match patch "model" with
  | some (.leaf _) => true
  | some (.node models) =>
    match models id with
    | some (.leaf _) => true
    | _ => false
  | none => false

section Clean

variable {t : Table σ ι} {k id key : String}

theorem foldl_remove_of_not_mem {keys : List String} (h : k ∉ keys) (t : Table σ ι) :
    keys.foldl Table.remove t k = t k := by
  induction keys generalizing t with
  | nil => rfl
  | cons key keys ih =>
    rw [List.mem_cons, not_or] at h
    rw [List.foldl_cons, ih h.2, remove_of_ne t h.1]

theorem stripPath_of_ne {rest : List String} (h : k ≠ key) (t : Table σ ι) :
    stripPath t (key :: rest) k = t k := by
  cases rest with
  | nil => exact remove_of_ne t h
  | cons next rest =>
    rw [stripPath]
    cases t key with
    | none => rfl
    | some v =>
      cases v with
      | node nested => exact insert_of_ne t _ h
      | leaf l => exact remove_of_ne t h

theorem guardModels_of_ne (config : Toml σ ι) (t : Table σ ι) (h : k ≠ "model") :
    guardModels config t k = t k := by
  rw [guardModels]
  cases t "model" with
  | none => rfl
  | some v =>
    cases v with
    | node models => exact insert_of_ne t _ h
    | leaf l => rfl

/-- Outside the table that is searched for commands, cleaning is the guard on what the
stripped keys leave. -/
theorem cleanPatch_of_ne_ui (config : Toml σ ι) (stripKeys : List String) (hui : k ≠ "ui")
    (t : Table σ ι) :
    cleanPatch config stripKeys t k = guardModels config (stripKeys.foldl Table.remove t) k := by
  rw [cleanPatch]
  simp only [patchStripPaths, List.foldl_cons, List.foldl_nil]
  rw [stripPath_of_ne hui, stripPath_of_ne hui]

theorem word_guardModel (bound : Bool) (v : Toml σ ι) (hkey : key ∈ identityKeys)
    (rest : List String) :
    (guardModel bound v).word (key :: rest) =
      match v with
      | .leaf _ => some .absent
      | .node _ => if key = "mtls_cert_dir" ∨ bound = true then none else v.word (key :: rest) := by
  cases v with
  | leaf l => rfl
  | node model =>
    simp only [identityKeys, List.mem_cons, List.not_mem_nil, or_false] at hkey
    rw [guardModel]
    simp only [word_node]
    cases bound with
    | true => rcases hkey with rfl | rfl | rfl <;> simp [Table.remove]
    | false => rcases hkey with rfl | rfl | rfl <;> simp [Table.remove]

theorem word_of_replacesModel (h : replacesModel t id = true) (key : String)
    (rest : List String) : (Nested.node t).word ("model" :: id :: key :: rest) = some .absent := by
  rw [replacesModel] at h
  rw [word_node]
  split at h
  · next hm =>
    rw [hm]
    rfl
  · next models hm =>
    rw [hm, Option.bind_some, word_node]
    split at h
    · next hid =>
      rw [hid]
      rfl
    · cases h
  · cases h

/-- What a cleaned campaign patch says of a model's identity. -/
theorem word_clean_identity (config : Toml σ ι) (t : Table σ ι) (id : String)
    (hkey : key ∈ identityKeys) (rest : List String) :
    (normalizeConfigLayer (.node (cleanPatch config campaignStripKeys t))).word
        ("model" :: id :: key :: rest) =
      if replacesModel t id then some .absent
      else if key = "mtls_cert_dir" ∨ hasMtlsIdentity config id = true then none
      else (Nested.node t).word ("model" :: id :: key :: rest) := by
  have hnorm : ∀ key', clearedBy (cleanPatch config campaignStripKeys t) = some key' →
      ¬clearedPath key' <+: "model" :: id :: key :: rest := by
    rintro key' - ⟨r, hr⟩
    simp [clearedPath] at hr
  have hstrip : (campaignStripKeys.foldl Table.remove t) "model" = t "model" :=
    foldl_remove_of_not_mem (by decide) t
  rw [word_normalize _ hnorm, word_node, cleanPatch_of_ne_ui config _ (by decide),
    guardModels, hstrip]
  cases hm : t "model" with
  | none =>
    have hrep : replacesModel t id = false := by rw [replacesModel, hm]
    dsimp only
    rw [hstrip, hm, hrep, word_node, hm]
    simp
  | some v =>
    cases v with
    | leaf l =>
      have hrep : replacesModel t id = true := by rw [replacesModel, hm]
      dsimp only
      rw [hstrip, hm, hrep]
      rfl
    | node models =>
      dsimp only
      rw [insert_self, Option.bind_some, word_node]
      cases hid : models id with
      | none =>
        have hrep : replacesModel t id = false := by
          rw [replacesModel, hm]
          dsimp only
          rw [hid]
        rw [hrep, word_node, hm, Option.bind_some, word_node, hid]
        simp
      | some v =>
        rw [Option.map_some, Option.bind_some, word_guardModel _ v hkey]
        cases v with
        | leaf l =>
          have hrep : replacesModel t id = true := by
            rw [replacesModel, hm]
            dsimp only
            rw [hid]
          rw [hrep]
          rfl
        | node model =>
          have hrep : replacesModel t id = false := by
            rw [replacesModel, hm]
            dsimp only
            rw [hid]
          have hword : (Nested.node t).word ("model" :: id :: key :: rest) =
              (Nested.node model).word (key :: rest) := by
            rw [word_node, hm, Option.bind_some, word_node, hid, Option.bind_some]
          rw [hrep, hword]
          rfl

theorem hasMtlsIdentity_iff (config : Toml σ ι) (id : String) :
    hasMtlsIdentity config id = true ↔
      config.view ["model", id, "mtls_cert_dir"] ≠ .absent := by
  rw [hasMtlsIdentity]
  cases config with
  | leaf l => simp [asTable, Nested.view]
  | node t =>
    simp only [asTable, Option.bind_some, Nested.view]
    cases t "model" with
    | none => simp
    | some v =>
      cases v with
      | leaf l => simp [Nested.view]
      | node models =>
        simp only [Nested.view]
        cases models id with
        | none => simp
        | some v =>
          cases v with
          | leaf l => simp [Nested.view]
          | node model =>
            simp only [Nested.view]
            cases model "mtls_cert_dir" with
            | none => simp
            | some v => cases v <;> simp [Nested.kind]

theorem view_of_unbound {config : Toml σ ι} (h : hasMtlsIdentity config id = false) :
    config.view ["model", id, "mtls_cert_dir"] = .absent := by
  by_contra hne
  rw [(hasMtlsIdentity_iff config id).2 hne] at h
  cases h

end Clean

section Runs

variable {b : Toml σ ι} {id key : String} {patches : List (Table σ ι)}

theorem view_applyPatch_identity (b : Toml σ ι) (t : Table σ ι) (id : String)
    (hkey : key ∈ identityKeys) (rest : List String) :
    (applyPatch campaignStripKeys b t).view ("model" :: id :: key :: rest) =
      (if replacesModel t id then some .absent
      else if key = "mtls_cert_dir" ∨ hasMtlsIdentity b id = true then none
      else (Nested.node t).word ("model" :: id :: key :: rest)).getD
        (b.view ("model" :: id :: key :: rest)) := by
  rw [applyPatch, deepMergeToml, Nested.view_merge, word_clean_identity b t id hkey]

/-- Without an identity to guard, the destinations are what the patches make of them, and no
patch gives one. -/
theorem view_applyPatches_unbound (patches : List (Table σ ι)) (hb : hasMtlsIdentity b id = false)
    (hkey : key ∈ identityKeys) (rest : List String) :
    (applyPatches b patches campaignStripKeys).view ("model" :: id :: key :: rest) =
      if key = "mtls_cert_dir" then .absent
      else (lastWord (patches.map Nested.node) ("model" :: id :: key :: rest)).getD
        (b.view ("model" :: id :: key :: rest)) := by
  induction patches generalizing b with
  | nil =>
    by_cases hk : key = "mtls_cert_dir"
    · rw [if_pos hk, hk]
      exact Nested.view_append_of_absent (view_of_unbound hb) rest
    · rw [if_neg hk]
      rfl
  | cons t patches ih =>
    have hstep : hasMtlsIdentity (applyPatch campaignStripKeys b t) id = false := by
      rw [Bool.eq_false_iff, Ne, hasMtlsIdentity_iff, not_not,
        view_applyPatch_identity b t id (by decide) [], view_of_unbound hb]
      split
      · rfl
      · rfl
    have htail := ih hstep
    rw [applyPatches, List.foldl_cons]
    rw [applyPatches] at htail
    rw [htail]
    by_cases hk : key = "mtls_cert_dir"
    · rw [if_pos hk, if_pos hk]
    · rw [if_neg hk, if_neg hk, view_applyPatch_identity b t id hkey rest, List.map_cons, lastWord]
      cases lastWord (patches.map Nested.node) ("model" :: id :: key :: rest) with
      | some w => rfl
      | none =>
        by_cases hrep : replacesModel t id = true
        · rw [if_pos hrep, word_of_replacesModel hrep key rest]
          rfl
        · rw [if_neg hrep, if_neg (by rw [hb]; simp [hk])]
          rfl

/-- An identity that no patch replaces is kept. -/
theorem view_applyPatches_bound (patches : List (Table σ ι)) (hb : hasMtlsIdentity b id = true)
    (hrep : ∀ t ∈ patches, replacesModel t id = false) (hkey : key ∈ identityKeys)
    (rest : List String) :
    (applyPatches b patches campaignStripKeys).view ("model" :: id :: key :: rest) =
      b.view ("model" :: id :: key :: rest) := by
  induction patches generalizing b with
  | nil => rfl
  | cons t patches ih =>
    have ht : replacesModel t id = false := hrep t List.mem_cons_self
    have hview : ∀ key ∈ identityKeys, ∀ rest,
        (applyPatch campaignStripKeys b t).view ("model" :: id :: key :: rest) =
          b.view ("model" :: id :: key :: rest) := by
      intro key hkey rest
      rw [view_applyPatch_identity b t id hkey rest, ht, if_neg Bool.false_ne_true,
        if_pos (Or.inr hb)]
      rfl
    have hstep : hasMtlsIdentity (applyPatch campaignStripKeys b t) id = true := by
      rw [hasMtlsIdentity_iff, hview _ (by decide)]
      exact (hasMtlsIdentity_iff b id).1 hb
    have htail := ih hstep fun t' ht' => hrep t' (List.mem_cons_of_mem t ht')
    rw [applyPatches, List.foldl_cons]
    rw [applyPatches] at htail
    rw [htail, hview key hkey rest]

/-- After a patch has replaced the model, what stands there is what the patches say. -/
theorem view_applyPatches_replaced (b : Toml σ ι)
    (hrep : ∃ t ∈ patches, replacesModel t id = true) (hkey : key ∈ identityKeys)
    (rest : List String) :
    (applyPatches b patches campaignStripKeys).view ("model" :: id :: key :: rest) =
      if key = "mtls_cert_dir" then .absent
      else (lastWord (patches.map Nested.node) ("model" :: id :: key :: rest)).getD .absent := by
  obtain ⟨t, ht, hrep⟩ := hrep
  obtain ⟨pre, post, rfl⟩ := List.append_of_mem ht
  have hview : ∀ (b : Toml σ ι) (key : String), key ∈ identityKeys → ∀ rest,
      (applyPatch campaignStripKeys b t).view ("model" :: id :: key :: rest) = .absent := by
    intro b key hkey rest
    rw [view_applyPatch_identity b t id hkey rest, if_pos hrep]
    rfl
  have hbound : hasMtlsIdentity
      (applyPatch campaignStripKeys (applyPatches b pre campaignStripKeys) t) id = false := by
    rw [Bool.eq_false_iff, Ne, hasMtlsIdentity_iff, not_not]
    exact hview _ _ (by decide) []
  have hpost := view_applyPatches_unbound post hbound hkey rest
  have hsplit : applyPatches b (pre ++ t :: post) campaignStripKeys =
      applyPatches (applyPatch campaignStripKeys (applyPatches b pre campaignStripKeys) t) post
        campaignStripKeys := by
    simp only [applyPatches, List.foldl_append, List.foldl_cons]
  rw [hsplit, hpost, hview _ key hkey rest]
  by_cases hk : key = "mtls_cert_dir"
  · rw [if_pos hk, if_pos hk]
  · rw [if_neg hk, if_neg hk, List.map_append, List.map_cons, lastWord_append, lastWord,
      word_of_replacesModel hrep key rest]
    cases lastWord (post.map Nested.node) ("model" :: id :: key :: rest) with
    | none => rfl
    | some w => rfl

end Runs

/-! ## The layers that are merged again -/

namespace ConfigLayers

variable (layers : ConfigLayers σ ι)

/-- The layers above the campaigns. -/
def above : List (Toml σ ι) := layers.envOverlay.toList ++ layers.requirementsInOrder

/-- The layers below the overlay and the requirements. -/
def below : Toml σ ι :=
  deepMergeToml (deepMergeToml layers.systemManaged layers.managed) layers.user

theorem effectiveConfigBase_eq :
    layers.effectiveConfigBase = layers.above.foldl Nested.merge layers.below := by
  rw [effectiveConfigBase, mergeLayers.eq_def, above, List.foldl_append]
  cases layers.envOverlay with
  | none => rfl
  | some overlay => rfl

theorem applyCampaignOverrides_eq (merged : Toml σ ι)
    (active : List (ConfigOverrideEntry M σ ι)) :
    layers.applyCampaignOverrides merged active =
      layers.above.foldl Nested.merge (applyActiveCampaignPatches merged active) := by
  rw [applyCampaignOverrides, above, List.foldl_append]
  cases layers.envOverlay with
  | none => rfl
  | some overlay => rfl

/-- The requirements layers merged with one another, the user's first. -/
def mergedRequirements : Option (Toml σ ι) :=
  match layers.requirementsInOrder with
  | [] => none
  | req :: reqs => some (reqs.foldl deepMergeToml req)

end ConfigLayers

/-! ## What the patches must keep -/

section Claims

variable (config : Toml σ ι) (patches : List (Table σ ι)) (stripKeys : List String)
  (layers : ConfigLayers σ ι) (active : List (ConfigOverrideEntry M σ ι)) (patch : Table σ ι)
  (path : List String)

def StrippedKept : Prop :=
  (∀ k ∈ stripKeys, (applyPatches config patches stripKeys).valueAt [k] = config.valueAt [k]) ∧
    ∀ p ∈ patchStripPaths, (applyPatches config patches stripKeys).valueAt p = config.valueAt p

/-- Every leaf of the merged requirements is in the result. -/
def RequirementsKept : Prop :=
  ∀ reqs, layers.mergedRequirements = some reqs → ∀ p v, reqs.valueAt p = some (.leaf v) →
    (layers.applyCampaignOverrides layers.effectiveConfigBase active).valueAt p = some (.leaf v)

/-- Every model that has a local identity in the result has it, and its destinations, from
the base. -/
def IdentityKept : Prop :=
  ∀ id, ((layers.applyCampaignOverrides layers.effectiveConfigBase active).valueAt
      ["model", id, "mtls_cert_dir"]).isSome →
    ∀ key ∈ identityKeys,
      (layers.applyCampaignOverrides layers.effectiveConfigBase active).valueAt
        ["model", id, key] = layers.effectiveConfigBase.valueAt ["model", id, key]

/-- A patch that does not touch a path leaves its value alone. -/
def UntouchedKept : Prop :=
  patchTouchesPath patch path = false →
    (applyPatches config [patch] stripKeys).valueAt path = config.valueAt path

/-- The last that the patches say of a model's identity; what they say of the certificate
directory is never heard. -/
def patchWord (id key : String) (rest : List String) : Option (Nested.Kind (Leaf σ ι)) :=
  if key = "mtls_cert_dir" then none
  else lastWord ((active.reverse.map ConfigOverrideEntry.patch).map Nested.node)
    ("model" :: id :: key :: rest)

/-- For a model that some patch replaces and that the layers above bind to an identity:
where these layers leave the identity open, the patches say what the base has. -/
def ReplacedAlike : Prop :=
  ∀ id, (∃ e ∈ active, replacesModel e.patch id = true) →
    (lastWord layers.above ["model", id, "mtls_cert_dir"]).getD .absent ≠ .absent →
    ∀ key ∈ identityKeys, ∀ rest,
      lastWord layers.above ("model" :: id :: key :: rest) = none →
      (patchWord active id key rest).getD .absent =
        layers.effectiveConfigBase.view ("model" :: id :: key :: rest)

/-- The path is touched; or it is empty and all that the patch says is there already; or it
does not lead to the web-search list that normalizing the patch clears, or that list is
clear. -/
def ClearedAlike : Prop :=
  patchTouchesPath patch path = true ∨
    (path = [] ∧ ∀ q w,
      (normalizeConfigLayer (.node (cleanPatch config stripKeys patch))).word q = some w →
        config.view q = w) ∨
    (path ≠ [] ∧ ∀ key r, "toolset" ∉ stripKeys → clearedBy patch = some key →
      path = clearedPath key ++ r →
      config.valueAt path = if r = [] then some (.leaf (.array [])) else none)

end Claims

section Proofs

variable {config : Toml σ ι} {stripKeys : List String} {layers : ConfigLayers σ ι}
  {active : List (ConfigOverrideEntry M σ ι)} {patch : Table σ ι} {path : List String}

theorem requirementsKept (layers : ConfigLayers σ ι)
    (active : List (ConfigOverrideEntry M σ ι)) : RequirementsKept layers active := by
  intro reqs hreqs p v hv
  rw [ConfigLayers.mergedRequirements] at hreqs
  rw [ConfigLayers.applyCampaignOverrides_eq, ConfigLayers.above, List.foldl_append]
  split at hreqs
  · cases hreqs
  · next req rest heq =>
    rw [Option.some.injEq] at hreqs
    rw [← Nested.view_eq_leaf_iff] at hv ⊢
    rw [← hreqs] at hv
    rw [heq]
    exact view_foldl_merge_of_leaf hv _

/-- What is left at a model's identity when the campaigns have been applied. -/
theorem view_result (layers : ConfigLayers σ ι) (active : List (ConfigOverrideEntry M σ ι))
    (p : List String) :
    (layers.applyCampaignOverrides layers.effectiveConfigBase active).view p =
      (lastWord layers.above p).getD
        ((applyActiveCampaignPatches layers.effectiveConfigBase active).view p) := by
  rw [ConfigLayers.applyCampaignOverrides_eq, view_foldl_merge]

theorem base_again (layers : ConfigLayers σ ι) (p : List String) :
    (lastWord layers.above p).getD (layers.effectiveConfigBase.view p) =
      layers.effectiveConfigBase.view p := by
  rw [ConfigLayers.effectiveConfigBase_eq]
  exact view_foldl_merge_again _ _ p

theorem mem_patches_iff {id : String} :
    (∃ t ∈ active.reverse.map ConfigOverrideEntry.patch, replacesModel t id = true) ↔
      ∃ e ∈ active, replacesModel e.patch id = true := by
  simp

theorem view_replaced (layers : ConfigLayers σ ι) {id key : String}
    (hrep : ∃ e ∈ active, replacesModel e.patch id = true) (hkey : key ∈ identityKeys)
    (rest : List String) :
    (applyActiveCampaignPatches layers.effectiveConfigBase active).view
      ("model" :: id :: key :: rest) = (patchWord active id key rest).getD .absent := by
  rw [applyActiveCampaignPatches,
    view_applyPatches_replaced _ (mem_patches_iff.2 hrep) hkey rest, patchWord]
  split
  · rfl
  · rfl

theorem identityKept_of_replacedAlike (h : ReplacedAlike layers active) :
    IdentityKept layers active := by
  intro id hid key hkey
  rw [Nested.valueAt_eq_iff]
  intro rest
  have hmtls : (layers.applyCampaignOverrides layers.effectiveConfigBase active).view
      ["model", id, "mtls_cert_dir"] ≠ .absent := by
    rw [Ne, Nested.view_eq_absent_iff]
    exact Option.isSome_iff_ne_none.1 hid
  rw [view_result] at hmtls
  rw [List.cons_append, List.cons_append, List.cons_append, List.nil_append, view_result]
  by_cases hrep : ∃ e ∈ active, replacesModel e.patch id = true
  · rw [view_replaced layers hrep (by decide) []] at hmtls
    rw [view_replaced layers hrep hkey rest]
    cases hw : lastWord layers.above ("model" :: id :: key :: rest) with
    | none => exact h id hrep hmtls key hkey rest hw
    | some w =>
      have hbase := base_again layers ("model" :: id :: key :: rest)
      rw [hw] at hbase
      exact hbase
  · have hnot : ∀ t ∈ active.reverse.map ConfigOverrideEntry.patch,
        replacesModel t id = false := by
      intro t ht
      rw [Bool.eq_false_iff]
      exact fun hr => hrep (mem_patches_iff.1 ⟨t, ht, hr⟩)
    cases hb : hasMtlsIdentity layers.effectiveConfigBase id with
    | true =>
      rw [applyActiveCampaignPatches, view_applyPatches_bound _ hb hnot hkey rest]
      exact base_again layers _
    | false =>
      -- neither the patches nor the layers above give an identity that the base lacks
      exfalso
      apply hmtls
      rw [applyActiveCampaignPatches, view_applyPatches_unbound _ hb (by decide) [], if_pos rfl]
      have hbase := base_again layers ["model", id, "mtls_cert_dir"]
      rw [view_of_unbound hb] at hbase
      exact hbase

theorem replacedAlike_of_identityKept (h : IdentityKept layers active) :
    ReplacedAlike layers active := by
  intro id hrep habove key hkey rest hopen
  have hid : ((layers.applyCampaignOverrides layers.effectiveConfigBase active).valueAt
      ["model", id, "mtls_cert_dir"]).isSome := by
    rw [Option.isSome_iff_ne_none, Ne, ← Nested.view_eq_absent_iff, view_result,
      view_replaced layers hrep (by decide) []]
    exact habove
  have hvalue := Nested.valueAt_eq_iff.1 (h id hid key hkey) rest
  rw [List.cons_append, List.cons_append, List.cons_append, List.nil_append, view_result, hopen,
    view_replaced layers hrep hkey rest] at hvalue
  exact hvalue

theorem word_of_touchesFrom (v : Toml σ ι) (rest : List String)
    (h : touchesFrom v rest = false) (q : List String) : v.word (rest ++ q) = none := by
  induction rest generalizing v with
  | nil => cases v <;> cases h
  | cons seg rest ih =>
    cases v with
    | leaf l => cases h
    | node t =>
      rw [touchesFrom] at h
      rw [List.cons_append, word_node]
      cases hs : t seg with
      | none => rfl
      | some u =>
        rw [hs] at h
        exact ih u h

/-- A patch that does not touch a path says nothing of it. -/
theorem silent_of_untouched (hne : path ≠ []) (h : patchTouchesPath patch path = false) :
    Silent patch path := by
  cases path with
  | nil => exact absurd rfl hne
  | cons first rest =>
    rw [patchTouchesPath] at h
    rw [silent_cons_iff]
    intro v hv
    rw [hv] at h
    exact word_of_touchesFrom v rest h

theorem clearedBy_clean (config : Toml σ ι) (h : "toolset" ∉ stripKeys) (patch : Table σ ι) :
    clearedBy (cleanPatch config stripKeys patch) = clearedBy patch := by
  rw [clearedBy, clearedBy, cleanPatch_of_ne_ui config stripKeys (by decide),
    guardModels_of_ne config _ (by decide), foldl_remove_of_not_mem h]

theorem clearedBy_clean_of_stripped (config : Toml σ ι) (h : "toolset" ∈ stripKeys)
    (patch : Table σ ι) : clearedBy (cleanPatch config stripKeys patch) = none := by
  rw [clearedBy, silent_single_iff.1 (silent_cleanPatch_key config h patch)]

theorem applyPatches_single (config : Toml σ ι) (patch : Table σ ι) (stripKeys : List String) :
    applyPatches config [patch] stripKeys =
      config.merge (normalizeConfigLayer (.node (cleanPatch config stripKeys patch))) := rfl

/-- A path that a patch does not touch leads away from the list the patch clears, unless it
leads to it. -/
theorem untouchedKept_of_not_cleared (hne : path ≠ [])
    (h : patchTouchesPath patch path = false)
    (hnot : ∀ key, clearedBy (cleanPatch config stripKeys patch) = some key →
      ¬clearedPath key <+: path) :
    (applyPatches config [patch] stripKeys).valueAt path = config.valueAt path := by
  have hsilent : Silent (cleanPatch config stripKeys patch) path :=
    (quieter_cleanPatch config stripKeys patch).silent (silent_of_untouched hne h)
  rw [applyPatches_single]
  apply Nested.valueAt_merge_of_silent
  apply silent_normalize hsilent
  intro key hkey
  refine ⟨hnot key hkey, ?_⟩
  -- on its way to the cleared key the patch has tables, of which it is not silent
  rintro ⟨r, hr⟩
  obtain ⟨toolset, webSearch, ht, hw, -⟩ := clearedBy_eq_some hkey
  have hroot := hsilent []
  rw [List.append_nil] at hroot
  rcases path with _ | ⟨k, _ | ⟨k₂, _ | ⟨k₃, rest⟩⟩⟩
  · exact hne rfl
  · obtain rfl : k = "toolset" := (List.cons.inj hr).1
    rw [word_node, ht] at hroot
    exact word_ne_none _ hroot
  · obtain rfl : k = "toolset" := (List.cons.inj hr).1
    obtain rfl : k₂ = "web_search" := (List.cons.inj (List.cons.inj hr).2).1
    rw [word_node, ht, Option.bind_some, word_node, hw] at hroot
    exact word_ne_none _ hroot
  · have hlen := congrArg List.length hr
    simp only [clearedPath, List.length_append, List.length_cons, List.length_nil] at hlen
    have hnil : r = [] := List.eq_nil_of_length_eq_zero (by omega)
    rw [hnil, List.append_nil] at hr
    exact hnot key hkey (hr ▸ List.prefix_rfl)

theorem valueAt_cleared {key : String} (config : Toml σ ι) (patch : Table σ ι)
    (h : clearedBy (cleanPatch config stripKeys patch) = some key) (r : List String) :
    (applyPatches config [patch] stripKeys).valueAt (clearedPath key ++ r) =
      if r = [] then some (.leaf (.array [])) else none := by
  have hview := Nested.view_merge config
    (normalizeConfigLayer (.node (cleanPatch config stripKeys patch))) (clearedPath key ++ r)
  rw [word_normalize_cleared h, Option.getD_some] at hview
  rw [applyPatches_single]
  cases r with
  | nil => exact Nested.view_eq_leaf_iff.1 hview
  | cons k r => exact Nested.view_eq_absent_iff.1 hview

theorem untouchedKept_iff (config : Toml σ ι) (stripKeys : List String) (patch : Table σ ι)
    (path : List String) :
    UntouchedKept config stripKeys patch path ↔ ClearedAlike config stripKeys patch path := by
  rw [UntouchedKept, ClearedAlike]
  cases htouch : patchTouchesPath patch path with
  | true => simp
  | false =>
    by_cases hne : path = []
    · subst hne
      rw [applyPatches_single, Nested.valueAt_merge_eq_iff]
      simp
    · have hclear : (∀ key r, "toolset" ∉ stripKeys → clearedBy patch = some key →
            path = clearedPath key ++ r →
            config.valueAt path = if r = [] then some (.leaf (.array [])) else none) ↔
          (applyPatches config [patch] stripKeys).valueAt path = config.valueAt path := by
        constructor
        · intro h
          by_cases hpre : ∃ key, clearedBy (cleanPatch config stripKeys patch) = some key ∧
              clearedPath key <+: path
          · obtain ⟨key, hkey, r, rfl⟩ := hpre
            have hmem : "toolset" ∉ stripKeys := by
              intro hmem
              rw [clearedBy_clean_of_stripped config hmem] at hkey
              cases hkey
            rw [valueAt_cleared config patch hkey r]
            rw [clearedBy_clean config hmem] at hkey
            exact (h key r hmem hkey rfl).symm
          · exact untouchedKept_of_not_cleared hne htouch
              fun key hkey hp => hpre ⟨key, hkey, hp⟩
        · rintro h key r hmem hkey rfl
          rw [← clearedBy_clean config hmem] at hkey
          rw [← h, valueAt_cleared config patch hkey r]
      simp only [forall_const, Bool.false_eq_true, hne, false_and, false_or, ne_eq,
        not_false_eq_true, true_and]
      exact hclear.symm

/-- The patches keep all that they must exactly when no patch that replaces a model with an
identity of the layers above says otherwise than the base, and the untouched path does not
lead to a list the patch clears. -/
theorem config_patches_confined_iff (config : Toml σ ι) (patches : List (Table σ ι))
    (stripKeys : List String) (layers : ConfigLayers σ ι)
    (active : List (ConfigOverrideEntry M σ ι)) (patch : Table σ ι) (path : List String) :
    (StrippedKept config patches stripKeys ∧ RequirementsKept layers active ∧
        IdentityKept layers active ∧ UntouchedKept config stripKeys patch path) ↔
      ReplacedAlike layers active ∧ ClearedAlike config stripKeys patch path := by
  rw [untouchedKept_iff]
  constructor
  · rintro ⟨-, -, hidentity, hpath⟩
    exact ⟨replacedAlike_of_identityKept hidentity, hpath⟩
  · rintro ⟨hreplaced, hpath⟩
    exact ⟨applyPatches_stripped config patches stripKeys, requirementsKept layers active,
      identityKept_of_replacedAlike hreplaced, hpath⟩

end Proofs

/-! ## The two slips -/

section Slips

abbrev table (entries : List (String × Toml String Unit)) : Toml String Unit :=
  .node fun k => entries.lookup k

abbrev text (s : String) : Toml String Unit := .leaf (.scalar s)

/-- The user's config has a destination, the requirements bind it to an identity. -/
def boundLayers : ConfigLayers String Unit where
  systemManaged := table []
  managed := table []
  user := table [("model", table [("secure", table [("base_url", text "https://trusted")])])]
  envOverlay := none
  userRequirements :=
    some (table [("model", table [("secure", table [("mtls_cert_dir", text "/identity")])])])
  systemRequirements := none
  mdmRequirements := none

/-- The second is merged first: it takes the model's table away. -/
def retargeting : List (ConfigOverrideEntry Unit String Unit) :=
  [⟨(), fun k => [("model", table [("secure", table
      [("base_url", text "https://elsewhere")])])].lookup k⟩,
    ⟨(), fun k => [("model", table [("secure", text "oops")])].lookup k⟩]

/-- A patch that sets an allowlist. -/
def allowing : Table String Unit := fun k =>
  [("toolset", table [("web_search", table
    [("allowed_domains", .leaf (.array [()]))])])].lookup k

def excluding : Toml String Unit :=
  table [("toolset", table [("web_search", table
    [("excluded_domains", .leaf (.array [()]))])])]

theorem patches_reach_identity_and_untouched_list :
    ¬IdentityKept boundLayers retargeting ∧
      ¬UntouchedKept excluding campaignStripKeys allowing (clearedPath "excluded_domains") := by
  constructor
  · intro h
    have hurl := h "secure" rfl "base_url" (by decide)
    have hbase : boundLayers.effectiveConfigBase.valueAt ["model", "secure", "base_url"] =
        some (text "https://trusted") := rfl
    have hresult : (boundLayers.applyCampaignOverrides boundLayers.effectiveConfigBase
        retargeting).valueAt ["model", "secure", "base_url"] =
          some (text "https://elsewhere") := rfl
    rw [hbase, hresult] at hurl
    simp at hurl
  · intro h
    have hlist := h rfl
    have hbefore : excluding.valueAt (clearedPath "excluded_domains") =
        some (.leaf (.array [()])) := rfl
    have hafter : (applyPatches excluding [allowing] campaignStripKeys).valueAt
        (clearedPath "excluded_domains") = some (.leaf (.array [])) := rfl
    rw [hbefore, hafter] at hlist
    simp at hlist

end Slips

end GrokBuild.Config
