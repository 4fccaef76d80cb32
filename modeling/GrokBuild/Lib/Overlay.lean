import Mathlib.Data.List.Basic
import Mathlib.Logic.Basic

/-!
# Trees overlaid on trees

A tree has at each path a leaf, a node, or nothing. Overlaying one tree with another merges
nodes key by key and lets anything else of the upper tree replace what is below it. Seen
from one path this is a register: the upper tree either leaves it alone or sets it, and of
several layers the last to speak is heard.
-/

namespace GrokBuild.Overlay

inductive Nested (K V : Type) where
  | leaf (v : V)
  | node (entries : K → Option (Nested K V))

variable {K V : Type}

namespace Nested

mutual

/-- Nodes are merged, anything else is replaced. -/
@[grind] def merge : Nested K V → Nested K V → Nested K V
  | .node b, .node o => .node fun k => mergeEntry (b k) (o k)
  | _, .leaf v => .leaf v
  | .leaf _, .node o => .node o
termination_by structural _ o => o

@[grind] def mergeEntry : Option (Nested K V) → Option (Nested K V) → Option (Nested K V)
  | b, none => b
  | none, some v => some v
  | some w, some v => some (merge w v)
termination_by structural _ o => o

end

/-- The value at a path. -/
@[grind] def valueAt : Nested K V → List K → Option (Nested K V)
  | t, [] => some t
  | .leaf _, _ :: _ => none
  | .node e, k :: p => (e k).bind fun t => valueAt t p

/-- What stands at a path. -/
inductive Kind (V : Type) where
  | absent
  | leaf (v : V)
  | node

def kind : Nested K V → Kind V
  | .leaf v => .leaf v
  | .node _ => .node

@[grind] def view : Nested K V → List K → Kind V
  | t, [] => t.kind
  | .leaf _, _ :: _ => .absent
  | .node e, k :: p =>
    match e k with
    | none => .absent
    | some t => view t p

/-- What the tree, laid over another, makes of a path; `none` if it leaves it alone. -/
@[grind] def word : Nested K V → List K → Option (Kind V)
  | t, [] => some t.kind
  | .leaf _, _ :: _ => some .absent
  | .node e, k :: p =>
    match e k with
    | none => none
    | some t => word t p

theorem view_eq_word (t : Nested K V) (p : List K) : t.view p = (t.word p).getD .absent := by
  induction p generalizing t with
  | nil =>
    cases t with
    | leaf v => rfl
    | node e => rfl
  | cons k p ih =>
    cases t with
    | leaf v => rfl
    | node e =>
      simp only [view, word]
      cases e k with
      | none => rfl
      | some t => exact ih t

theorem view_merge (b o : Nested K V) (p : List K) :
    (b.merge o).view p = (o.word p).getD (b.view p) := by
  induction p generalizing b o with
  | nil =>
    cases o with
    | leaf v => cases b <;> rfl
    | node e => cases b <;> rfl
  | cons k p ih =>
    cases o with
    | leaf v => cases b <;> rfl
    | node o =>
      cases b with
      | leaf v => exact view_eq_word (.node o) (k :: p)
      | node b =>
        simp only [merge, view, word]
        cases ho : o k with
        | none => rfl
        | some t =>
          cases b k with
          | none => exact view_eq_word t p
          | some w => exact ih w t

theorem induction {P : Nested K V → Prop} (leaf : ∀ v, P (.leaf v))
    (node : ∀ e, (∀ k t, e k = some t → P t) → P (.node e)) : ∀ t, P t := by
  apply @Nested.rec K V P (fun o => ∀ t, o = some t → P t) leaf node
  · intro t h
    cases h
  · intro t ht t' h
    cases h
    exact ht

/-- Trees with the same kinds at all paths are the same. -/
theorem ext_view (a b : Nested K V) (h : ∀ p, a.view p = b.view p) : a = b := by
  revert b
  apply induction (P := fun a => ∀ b : Nested K V, (∀ p, a.view p = b.view p) → a = b)
  · intro v b h
    have h0 := h []
    cases b with
    | leaf w => exact congrArg leaf (Kind.leaf.inj h0)
    | node e => cases h0
  · intro e ih b h
    cases b with
    | leaf w => cases h []
    | node e' =>
      apply congrArg node
      funext k
      have hk (p : List K) := h (k :: p)
      simp only [view] at hk
      -- an entry on one side only would show at its own key
      cases he : e k with
      | none =>
        cases he' : e' k with
        | none => rfl
        | some t' =>
          have hroot := hk []
          rw [he, he'] at hroot
          cases t' <;> cases hroot
      | some t =>
        cases he' : e' k with
        | none =>
          have hroot := hk []
          rw [he, he'] at hroot
          cases t <;> cases hroot
        | some t' =>
          rw [he, he'] at hk
          exact congrArg some (ih k t he t' hk)

theorem view_append {t : Nested K V} {p : List K} (q : List K) :
    t.view (p ++ q) = match t.valueAt p with
      | none => .absent
      | some u => u.view q := by
  induction p generalizing t with
  | nil => cases t <;> rfl
  | cons k p ih =>
    cases t with
    | leaf v => rfl
    | node e =>
      simp only [List.cons_append, view, valueAt]
      cases e k with
      | none => rfl
      | some u => exact ih

/-- Two trees agree at a path when their kinds agree there and below. -/
theorem valueAt_eq_iff {s t : Nested K V} {p : List K} :
    s.valueAt p = t.valueAt p ↔ ∀ q, s.view (p ++ q) = t.view (p ++ q) := by
  constructor
  · intro h q
    rw [view_append, view_append, h]
  · intro h
    simp only [view_append] at h
    have hroot : ∀ u : Nested K V, u.view [] ≠ .absent := by
      intro u hu
      cases u <;> cases hu
    cases hs : s.valueAt p with
    | none =>
      cases ht : t.valueAt p with
      | none => rfl
      | some u =>
        have h0 := h []
        rw [hs, ht] at h0
        exact absurd h0.symm (hroot u)
    | some u =>
      cases ht : t.valueAt p with
      | none =>
        have h0 := h []
        rw [hs, ht] at h0
        exact absurd h0 (hroot u)
      | some u' =>
        rw [hs, ht] at h
        exact congrArg some (ext_view u u' h)

theorem view_eq_absent_iff {t : Nested K V} {p : List K} :
    t.view p = .absent ↔ t.valueAt p = none := by
  have h := view_append (t := t) (p := p) []
  rw [List.append_nil] at h
  rw [h]
  cases t.valueAt p with
  | none => simp
  | some u => cases u <;> simp [view, kind]

theorem view_eq_leaf_iff {t : Nested K V} {p : List K} {v : V} :
    t.view p = .leaf v ↔ t.valueAt p = some (.leaf v) := by
  have h := view_append (t := t) (p := p) []
  rw [List.append_nil] at h
  rw [h]
  cases t.valueAt p with
  | none => simp
  | some u => cases u <;> simp [view, kind]

/-- Below a path where nothing stands there is nothing. -/
theorem view_append_of_absent {t : Nested K V} {p : List K} (h : t.view p = .absent)
    (q : List K) : t.view (p ++ q) = .absent := by
  rw [view_append, view_eq_absent_iff.1 h]

/-- Overlaying leaves a value alone when it says of it what stands there already. -/
theorem valueAt_merge_eq_iff {b o : Nested K V} {p : List K} :
    (b.merge o).valueAt p = b.valueAt p ↔
      ∀ q w, o.word (p ++ q) = some w → b.view (p ++ q) = w := by
  rw [valueAt_eq_iff]
  constructor
  · intro h q w hw
    have hq := h q
    rw [view_merge, hw] at hq
    exact hq.symm
  · intro h q
    rw [view_merge]
    cases hw : o.word (p ++ q) with
    | none => rfl
    | some w => exact (h q w hw).symm

/-- Overlaying leaves a value alone when it says nothing from its path on. -/
theorem valueAt_merge_of_silent {b o : Nested K V} {p : List K}
    (h : ∀ q, o.word (p ++ q) = none) : (b.merge o).valueAt p = b.valueAt p := by
  rw [valueAt_merge_eq_iff]
  intro q w hw
  rw [h q] at hw
  cases hw

end Nested

/-! ## Layers -/

section Layers

open Nested

variable {layers : List (Nested K V)} {p : List K}

/-- What the last layer to speak makes of a path. -/
@[grind] def lastWord : List (Nested K V) → List K → Option (Kind V)
  | [], _ => none
  | t :: ts, p => (lastWord ts p).or (t.word p)

theorem lastWord_append (ls ls' : List (Nested K V)) (p : List K) :
    lastWord (ls ++ ls') p = (lastWord ls' p).or (lastWord ls p) := by
  induction ls with
  | nil => simp [lastWord]
  | cons t ls ih => rw [List.cons_append, lastWord, ih, lastWord, Option.or_assoc]

/-- Of several layers the last to speak is heard. -/
theorem view_foldl_merge (layers : List (Nested K V)) (t : Nested K V) (p : List K) :
    (layers.foldl merge t).view p = (lastWord layers p).getD (t.view p) := by
  induction layers generalizing t with
  | nil => rfl
  | cons l layers ih =>
    rw [List.foldl_cons, ih, lastWord, view_merge]
    cases lastWord layers p with
    | none => rfl
    | some w => rfl

/-- What the layers make of a path they make of it again. -/
theorem view_foldl_merge_again (layers : List (Nested K V)) (t : Nested K V) (p : List K) :
    (lastWord layers p).getD ((layers.foldl merge t).view p) = (layers.foldl merge t).view p := by
  rw [view_foldl_merge]
  cases lastWord layers p with
  | none => rfl
  | some w => rfl

/-- A leaf of the merged layers is a leaf of anything they are laid over. -/
theorem view_foldl_merge_of_leaf {l : Nested K V} {v : V}
    (h : (layers.foldl merge l).view p = .leaf v) (t : Nested K V) :
    ((l :: layers).foldl merge t).view p = .leaf v := by
  rw [view_foldl_merge] at h
  rw [view_foldl_merge, lastWord]
  cases hl : lastWord layers p with
  | some w =>
    rw [hl] at h
    exact h
  | none =>
    rw [hl, Option.getD_none, view_eq_word] at h
    cases hw : l.word p with
    | none =>
      rw [hw] at h
      cases h
    | some w =>
      rw [hw] at h
      exact h

end Layers

end GrokBuild.Overlay
