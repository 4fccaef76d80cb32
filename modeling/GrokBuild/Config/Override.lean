import GrokBuild.Lib.Overlay

/-!
# Config layers, campaigns and their patches

`config_override.rs`, `config_layers.rs` and `deep_merge_toml` of `loader.rs`. A TOML value
is a tree whose leaves are scalars and arrays. A table is the map from its keys to their
values, and iterating over its entries is working at every key. No function here looks at a
scalar or into the items of an array, so their types are left open.
-/

namespace GrokBuild.Config

open GrokBuild.Overlay

inductive Leaf (σ ι : Type) where
  | scalar (s : σ)
  | array (items : List ι)
deriving DecidableEq, Repr

abbrev Toml (σ ι : Type) := Nested String (Leaf σ ι)

abbrev Table (σ ι : Type) := String → Option (Toml σ ι)

variable {σ ι M : Type}

namespace Table

def remove (t : Table σ ι) (key : String) : Table σ ι :=
  fun k => if k = key then none else t k

def insert (t : Table σ ι) (key : String) (v : Toml σ ι) : Table σ ι :=
  fun k => if k = key then some v else t k

end Table

def asTable : Toml σ ι → Option (Table σ ι)
  | .node t => some t
  | .leaf _ => none

def deepMergeToml (base overrides : Toml σ ι) : Toml σ ι := base.merge overrides

/-! ## Patches -/

structure ConfigOverrideEntry (M σ ι : Type) where
  metadata : M
  patch : Table σ ι

/-- From a value on: a leaf met on the way replaces everything beneath it. -/
def touchesFrom : Toml σ ι → List String → Bool
  | _, [] => true
  | .leaf _, _ :: _ => true
  | .node t, seg :: rest =>
    match t seg with
    | some v => touchesFrom v rest
    | none => false

def patchTouchesPath (patch : Table σ ι) : List String → Bool
  | [] => false
  | first :: rest =>
    match patch first with
    | none => false
    | some cur => touchesFrom cur rest

def patchStripPaths : List (List String) :=
  [["ui", "status_line"], ["ui", "notifications", "hooks"]]

def campaignStripKeys : List String :=
  ["version_overrides", "campaigns", "auth_provider", "model_providers", "auth",
    "grok_com_config"]

def stripPath (patch : Table σ ι) : List String → Table σ ι
  | [] => patch
  | [key] => patch.remove key
  | key :: next :: rest =>
    match patch key with
    | some (.node nested) => patch.insert key (.node (stripPath nested (next :: rest)))
    | some (.leaf _) => patch.remove key
    | none => patch

def hasMtlsIdentity (config : Toml σ ι) (id : String) : Bool :=
  match (asTable config).bind (· "model") with
  | some (.node models) =>
    match models id with
    | some (.node model) => (model "mtls_cert_dir").isSome
    | _ => false
  | _ => false

/-- A patch cannot select a local identity, nor change the destination of one. -/
def guardModel (bound : Bool) : Toml σ ι → Toml σ ι
  | .node model =>
    let model := Table.remove model "mtls_cert_dir"
    .node (if bound then (model.remove "base_url").remove "api_base_url" else model)
  | .leaf v => .leaf v

def guardModels (config : Toml σ ι) (patch : Table σ ι) : Table σ ι :=
  match patch "model" with
  | some (.node models) =>
    patch.insert "model"
      (.node fun id => (models id).map (guardModel (hasMtlsIdentity config id)))
  | _ => patch

def nonEmpty (table : Table σ ι) (key : String) : Bool :=
  match table key with
  | some (.leaf (.array items)) => !items.isEmpty
  | _ => false

/-- The key that is set to the empty array because only the other list is there. -/
def clearedKey (webSearch : Table σ ι) : Option String :=
  let allowed := nonEmpty webSearch "allowed_domains"
  let excluded := nonEmpty webSearch "excluded_domains"
  if allowed && !excluded then some "excluded_domains"
  else if excluded && !allowed then some "allowed_domains"
  else none

def normalizeConfigLayer (layer : Toml σ ι) : Toml σ ι :=
  match layer with
  | .leaf v => .leaf v
  | .node t =>
    match t "toolset" with
    | some (.node toolset) =>
      match toolset "web_search" with
      | some (.node webSearch) =>
        match clearedKey webSearch with
        | some key =>
          let webSearch := Table.insert webSearch key (.leaf (.array []))
          let toolset := Table.insert toolset "web_search" (.node webSearch)
          .node (Table.insert t "toolset" (.node toolset))
        | none => .node t
      | _ => .node t
    | _ => .node t

/-- What is left of a patch before it is merged. -/
def cleanPatch (config : Toml σ ι) (stripKeys : List String) (patch : Table σ ι) :
    Table σ ι :=
  let patch := stripKeys.foldl Table.remove patch
  let patch := guardModels config patch
  patchStripPaths.foldl stripPath patch

def applyPatch (stripKeys : List String) (config : Toml σ ι) (patch : Table σ ι) :
    Toml σ ι :=
  deepMergeToml config (normalizeConfigLayer (.node (cleanPatch config stripKeys patch)))

def applyPatches (config : Toml σ ι) (patches : List (Table σ ι)) (stripKeys : List String) :
    Toml σ ι :=
  patches.foldl (applyPatch stripKeys) config

/-- The entries come in order of priority, so the first is merged last. -/
def applyActiveCampaignPatches (effective : Toml σ ι)
    (active : List (ConfigOverrideEntry M σ ι)) : Toml σ ι :=
  applyPatches effective (active.reverse.map ConfigOverrideEntry.patch) campaignStripKeys

/-! ## Layers -/

structure ConfigLayers (σ ι : Type) where
  systemManaged : Toml σ ι
  managed : Toml σ ι
  user : Toml σ ι
  envOverlay : Option (Toml σ ι)
  userRequirements : Option (Toml σ ι)
  systemRequirements : Option (Toml σ ι)
  mdmRequirements : Option (Toml σ ι)

inductive OverlayInclusion where
  | included
  | excluded
deriving DecidableEq, Repr

namespace ConfigLayers

variable (layers : ConfigLayers σ ι)

def requirementsInOrder : List (Toml σ ι) :=
  [layers.userRequirements, layers.systemRequirements, layers.mdmRequirements].filterMap id

def reapplyRequirements (merged : Toml σ ι) : Toml σ ι :=
  layers.requirementsInOrder.foldl deepMergeToml merged

def mergeLayers (inclusion : OverlayInclusion) : Toml σ ι :=
  let merged := deepMergeToml (deepMergeToml layers.systemManaged layers.managed) layers.user
  let merged :=
    match inclusion, layers.envOverlay with
    | .included, some overlay => deepMergeToml merged overlay
    | _, _ => merged
  layers.requirementsInOrder.foldl deepMergeToml merged

def effectiveConfigBase : Toml σ ι := layers.mergeLayers .included

def applyCampaignOverrides (merged : Toml σ ι)
    (active : List (ConfigOverrideEntry M σ ι)) : Toml σ ι :=
  let merged := applyActiveCampaignPatches merged active
  let merged :=
    match layers.envOverlay with
    | some overlay => deepMergeToml merged overlay
    | none => merged
  layers.reapplyRequirements merged

end ConfigLayers

end GrokBuild.Config
