import Mathlib.Data.List.Basic
import Mathlib.Data.List.Perm.Basic
import GrokBuild.Lib.StepRun

/-!
# Turn-bound message delivery

The lifecycle owns every message admitted for a turn until a terminal transition hands it
back, either as a fallback (it was never projected) or as a completion. Identity, source,
content, completion, prompt id and epoch stay type parameters, as in the source.
-/

namespace GrokBuild.Delivery

structure TurnBinding (PromptId Epoch : Type*) where
  promptId : PromptId
  epoch : Epoch
deriving DecidableEq, Repr

structure DeliveryMessage (Identity Source Content : Type*) where
  identity : Identity
  source : Source
  content : Content
deriving DecidableEq, Repr

structure OwnedDelivery (Identity Source Content Completion PromptId Epoch : Type*) where
  binding : TurnBinding PromptId Epoch
  message : DeliveryMessage Identity Source Content
  completion : Completion
deriving DecidableEq, Repr

inductive DeliverySlot (Identity Source Content Completion PromptId Epoch : Type*)
  | pending (owned : OwnedDelivery Identity Source Content Completion PromptId Epoch)
  | projecting (owned : OwnedDelivery Identity Source Content Completion PromptId Epoch)
  | delivered (owned : OwnedDelivery Identity Source Content Completion PromptId Epoch)
deriving DecidableEq, Repr

inductive TerminalCause
  | completion
  | softCancel
  | rewind
  | hardTeardown
  | actorDrop
deriving DecidableEq, Repr

def TerminalCause.fallsBack : TerminalCause → Bool
  | .completion | .softCancel | .rewind => true
  | .hardTeardown | .actorDrop => false

inductive TerminalTarget (PromptId Epoch : Type*)
  | turn (binding : TurnBinding PromptId Epoch)
  | all
deriving DecidableEq, Repr

structure TerminalTransition (Identity Source Content Completion PromptId Epoch : Type*) where
  fallbacks : List (OwnedDelivery Identity Source Content Completion PromptId Epoch) := []
  completions : List (OwnedDelivery Identity Source Content Completion PromptId Epoch) := []
deriving DecidableEq, Repr

structure MessageDeliveryLifecycle
    (Identity Source Content Completion PromptId Epoch : Type*) where
  slots : List (DeliverySlot Identity Source Content Completion PromptId Epoch) := []
deriving DecidableEq, Repr

section Operations

variable {Identity Source Content Completion PromptId Epoch : Type*}

def DeliverySlot.owned :
    DeliverySlot Identity Source Content Completion PromptId Epoch →
      OwnedDelivery Identity Source Content Completion PromptId Epoch
  | .pending owned | .projecting owned | .delivered owned => owned

variable [DecidableEq Identity] [DecidableEq PromptId] [DecidableEq Epoch]

def TerminalTarget.matches (target : TerminalTarget PromptId Epoch)
    (binding : TurnBinding PromptId Epoch) : Bool :=
  match target with
  | .turn b => binding == b
  | .all => true

/-- What `begin_delivery` does to a slot. -/
def DeliverySlot.project (binding : TurnBinding PromptId Epoch) :
    DeliverySlot Identity Source Content Completion PromptId Epoch →
      DeliverySlot Identity Source Content Completion PromptId Epoch
  | .pending owned => if owned.binding = binding then .projecting owned else .pending owned
  | slot => slot

/-- What a successful `finish_delivery` does to a slot. -/
def DeliverySlot.deliver (binding : TurnBinding PromptId Epoch) :
    DeliverySlot Identity Source Content Completion PromptId Epoch →
      DeliverySlot Identity Source Content Completion PromptId Epoch
  | .projecting owned => if owned.binding = binding then .delivered owned else .projecting owned
  | slot => slot

namespace MessageDeliveryLifecycle

def containsIdentity
    (self : MessageDeliveryLifecycle Identity Source Content Completion PromptId Epoch)
    (identity : Identity) : Bool :=
  self.slots.any fun slot => slot.owned.message.identity == identity

/-- A duplicate identity is refused and handed back. -/
def admitPending
    (self : MessageDeliveryLifecycle Identity Source Content Completion PromptId Epoch)
    (binding : TurnBinding PromptId Epoch) (message : DeliveryMessage Identity Source Content)
    (completion : Completion) :
    MessageDeliveryLifecycle Identity Source Content Completion PromptId Epoch ×
      Except (DeliveryMessage Identity Source Content) Unit :=
  if self.slots.any fun slot => slot.owned.message.identity == message.identity then
    (self, .error message)
  else
    ({ slots := self.slots ++ [.pending { binding, message, completion }] }, .ok ())

def pendingMessages
    (self : MessageDeliveryLifecycle Identity Source Content Completion PromptId Epoch)
    (binding : TurnBinding PromptId Epoch) : List (DeliveryMessage Identity Source Content) :=
  self.slots.filterMap fun
    | .pending owned => if owned.binding = binding then some owned.message else none
    | _ => none

def beginDelivery
    (self : MessageDeliveryLifecycle Identity Source Content Completion PromptId Epoch)
    (binding : TurnBinding PromptId Epoch) :
    MessageDeliveryLifecycle Identity Source Content Completion PromptId Epoch ×
      List (DeliveryMessage Identity Source Content) :=
  let messages := self.pendingMessages binding
  if messages.isEmpty then (self, messages)
  else
    ({ slots := self.slots.map (.project binding) }, messages)

/-- The messages `finish_delivery` collects for its commit. -/
def projectingMessages
    (self : MessageDeliveryLifecycle Identity Source Content Completion PromptId Epoch)
    (binding : TurnBinding PromptId Epoch) : List (DeliveryMessage Identity Source Content) :=
  self.slots.filterMap fun
    | .projecting owned => if owned.binding = binding then some owned.message else none
    | _ => none

def finishDelivery {Error : Type*}
    (self : MessageDeliveryLifecycle Identity Source Content Completion PromptId Epoch)
    (binding : TurnBinding PromptId Epoch)
    (commit : List (DeliveryMessage Identity Source Content) → Except Error Unit) :
    MessageDeliveryLifecycle Identity Source Content Completion PromptId Epoch ×
      Except Error (List (DeliveryMessage Identity Source Content)) :=
  let messages := self.projectingMessages binding
  if messages.isEmpty then (self, .ok messages)
  else
    match commit messages with
    | .error e => (self, .error e)
    | .ok () =>
      ({ slots := self.slots.map (.deliver binding) }, .ok messages)

/-- One slot of the `filter_map` in `transition`: it is kept, or pushed on a list. -/
def transitionSlot (target : TerminalTarget PromptId Epoch) (cause : TerminalCause)
    (acc : List (DeliverySlot Identity Source Content Completion PromptId Epoch) ×
      TerminalTransition Identity Source Content Completion PromptId Epoch)
    (slot : DeliverySlot Identity Source Content Completion PromptId Epoch) :
    List (DeliverySlot Identity Source Content Completion PromptId Epoch) ×
      TerminalTransition Identity Source Content Completion PromptId Epoch :=
  if !target.matches slot.owned.binding then (acc.1 ++ [slot], acc.2)
  else
    match slot with
    | .pending owned =>
      if cause.fallsBack then (acc.1, { acc.2 with fallbacks := acc.2.fallbacks ++ [owned] })
      else (acc.1, { acc.2 with completions := acc.2.completions ++ [owned] })
    | .projecting owned | .delivered owned =>
      (acc.1, { acc.2 with completions := acc.2.completions ++ [owned] })

def transition
    (self : MessageDeliveryLifecycle Identity Source Content Completion PromptId Epoch)
    (target : TerminalTarget PromptId Epoch) (cause : TerminalCause) :
    MessageDeliveryLifecycle Identity Source Content Completion PromptId Epoch ×
      TerminalTransition Identity Source Content Completion PromptId Epoch :=
  let (slots, transition) := self.slots.foldl (transitionSlot target cause) ([], {})
  ({ slots }, transition)

end MessageDeliveryLifecycle

end Operations

section Spec

variable {Identity Source Content Completion PromptId Epoch : Type*}
variable [DecidableEq Identity] [DecidableEq PromptId] [DecidableEq Epoch]

def DeliverySlot.isPending :
    DeliverySlot Identity Source Content Completion PromptId Epoch → Bool
  | .pending _ => true
  | _ => false

section SlotFields

variable (d : OwnedDelivery Identity Source Content Completion PromptId Epoch)

omit [DecidableEq Identity] [DecidableEq PromptId] [DecidableEq Epoch]

@[simp] theorem DeliverySlot.owned_pending : (DeliverySlot.pending d).owned = d := rfl

@[simp] theorem DeliverySlot.owned_projecting : (DeliverySlot.projecting d).owned = d := rfl

@[simp] theorem DeliverySlot.owned_delivered : (DeliverySlot.delivered d).owned = d := rfl

@[simp] theorem DeliverySlot.isPending_pending : (DeliverySlot.pending d).isPending = true := rfl

@[simp] theorem DeliverySlot.isPending_projecting :
    (DeliverySlot.projecting d).isPending = false := rfl

@[simp] theorem DeliverySlot.isPending_delivered :
    (DeliverySlot.delivered d).isPending = false := rfl

end SlotFields

omit [DecidableEq Identity] in
@[simp] theorem DeliverySlot.owned_project (binding : TurnBinding PromptId Epoch)
    (slot : DeliverySlot Identity Source Content Completion PromptId Epoch) :
    (slot.project binding).owned = slot.owned := by
  cases slot with
  | pending owned =>
    by_cases h : owned.binding = binding
    · simp [project, h]
    · simp [project, h]
  | projecting owned => rfl
  | delivered owned => rfl

omit [DecidableEq Identity] in
@[simp] theorem DeliverySlot.owned_deliver (binding : TurnBinding PromptId Epoch)
    (slot : DeliverySlot Identity Source Content Completion PromptId Epoch) :
    (slot.deliver binding).owned = slot.owned := by
  cases slot with
  | pending owned => rfl
  | projecting owned =>
    by_cases h : owned.binding = binding
    · simp [deliver, h]
    · simp [deliver, h]
  | delivered owned => rfl

omit [DecidableEq Identity] in
/-- Projecting a turn leaves pending exactly the pending slots of the other turns. -/
theorem DeliverySlot.isPending_project (binding : TurnBinding PromptId Epoch)
    (slot : DeliverySlot Identity Source Content Completion PromptId Epoch) :
    (slot.project binding).isPending = true ↔
      slot.isPending = true ∧ slot.owned.binding ≠ binding := by
  cases slot with
  | pending owned =>
    by_cases h : owned.binding = binding
    · simp [project, h]
    · simp [project, h]
  | projecting owned => simp [project]
  | delivered owned => simp [project]

omit [DecidableEq Identity] in
theorem DeliverySlot.isPending_deliver (binding : TurnBinding PromptId Epoch)
    (slot : DeliverySlot Identity Source Content Completion PromptId Epoch) :
    (slot.deliver binding).isPending = slot.isPending := by
  cases slot with
  | pending owned => rfl
  | projecting owned =>
    by_cases h : owned.binding = binding
    · simp [deliver, h]
    · simp [deliver, h]
  | delivered owned => rfl

namespace MessageDeliveryLifecycle

variable (self : MessageDeliveryLifecycle Identity Source Content Completion PromptId Epoch)

omit [DecidableEq Identity] in
theorem mem_pendingMessages {binding : TurnBinding PromptId Epoch}
    {m : DeliveryMessage Identity Source Content} :
    m ∈ self.pendingMessages binding ↔
      ∃ slot ∈ self.slots, slot.isPending = true ∧ slot.owned.binding = binding ∧
        slot.owned.message = m := by
  unfold pendingMessages
  rw [List.mem_filterMap]
  apply exists_congr
  intro slot
  apply and_congr_right
  intro _
  cases slot with
  | pending owned => simp
  | projecting owned => simp
  | delivered owned => simp

omit [DecidableEq Identity] in
theorem mem_projectingMessages {binding : TurnBinding PromptId Epoch}
    {m : DeliveryMessage Identity Source Content}
    (h : m ∈ self.projectingMessages binding) :
    ∃ slot ∈ self.slots, slot.isPending = false ∧ slot.owned.message = m := by
  unfold projectingMessages at h
  obtain ⟨slot, hslot, hm⟩ := List.mem_filterMap.mp h
  refine ⟨slot, hslot, ?_⟩
  cases slot with
  | pending owned => simp at hm
  | projecting owned =>
    simp only [Option.ite_none_right_eq_some, Option.some.injEq] at hm
    exact ⟨rfl, hm.2⟩
  | delivered owned => simp at hm

omit [DecidableEq Identity] in
@[simp] theorem beginDelivery_messages (binding : TurnBinding PromptId Epoch) :
    (self.beginDelivery binding).2 = self.pendingMessages binding := by
  unfold beginDelivery
  by_cases h : (self.pendingMessages binding).isEmpty
  · simp [h]
  · simp [h]

omit [DecidableEq Identity] in
/-- The early return of `begin_delivery` changes nothing: without pending messages the map
is the identity. -/
theorem beginDelivery_slots (binding : TurnBinding PromptId Epoch) :
    (self.beginDelivery binding).1.slots = self.slots.map (.project binding) := by
  unfold beginDelivery
  by_cases h : self.pendingMessages binding = []
  · have hid : ∀ slot ∈ self.slots, slot.project binding = slot := by
      intro slot hslot
      cases slot with
      | pending owned =>
        have hne : owned.binding ≠ binding := by
          intro hb
          have hm := self.mem_pendingMessages.mpr ⟨_, hslot, rfl, hb, rfl⟩
          simp [h] at hm
        simp [DeliverySlot.project, hne]
      | projecting owned => rfl
      | delivered owned => rfl
    simpa [h] using (List.map_congr_left hid).symm
  · simp [h]

omit [DecidableEq Identity] in
/-- Everything a `finish_delivery` can do. -/
theorem finishDelivery_cases {Error : Type*} (binding : TurnBinding PromptId Epoch)
    (commit : List (DeliveryMessage Identity Source Content) → Except Error Unit) :
    (self.projectingMessages binding = [] ∧
        self.finishDelivery binding commit = (self, .ok [])) ∨
    (∃ e, self.projectingMessages binding ≠ [] ∧
        commit (self.projectingMessages binding) = .error e ∧
        self.finishDelivery binding commit = (self, .error e)) ∨
    (self.projectingMessages binding ≠ [] ∧
        commit (self.projectingMessages binding) = .ok () ∧
        self.finishDelivery binding commit =
          ({ slots := self.slots.map (.deliver binding) },
            .ok (self.projectingMessages binding))) := by
  unfold finishDelivery
  by_cases h : self.projectingMessages binding = []
  · left
    simp [h]
  · right
    cases hc : commit (self.projectingMessages binding) with
    | error e => left; exact ⟨e, h, rfl, by simp [h, hc]⟩
    | ok u => right; exact ⟨h, rfl, by simp [h, hc]⟩

omit [DecidableEq Identity] in
theorem foldl_transitionSlot (target : TerminalTarget PromptId Epoch) (cause : TerminalCause)
    (slots : List (DeliverySlot Identity Source Content Completion PromptId Epoch))
    (acc : List (DeliverySlot Identity Source Content Completion PromptId Epoch) ×
      TerminalTransition Identity Source Content Completion PromptId Epoch) :
    slots.foldl (transitionSlot target cause) acc =
      (acc.1 ++ slots.filter (fun slot => !target.matches slot.owned.binding),
        { fallbacks := acc.2.fallbacks ++ (slots.filter fun slot =>
            target.matches slot.owned.binding && (slot.isPending && cause.fallsBack)).map
              DeliverySlot.owned
          completions := acc.2.completions ++ (slots.filter fun slot =>
            target.matches slot.owned.binding && !(slot.isPending && cause.fallsBack)).map
              DeliverySlot.owned }) := by
  induction slots generalizing acc with
  | nil => simp
  | cons slot slots ih =>
    rw [List.foldl_cons, ih]
    unfold transitionSlot
    cases slot with
    | pending owned =>
      by_cases hm : target.matches owned.binding = true
      · by_cases hc : cause.fallsBack = true
        · simp [hm, hc]
        · simp [hm, hc]
      · simp [hm]
    | projecting owned =>
      by_cases hm : target.matches owned.binding = true
      · simp [hm]
      · simp [hm]
    | delivered owned =>
      by_cases hm : target.matches owned.binding = true
      · simp [hm]
      · simp [hm]

omit [DecidableEq Identity] in
theorem transition_slots (target : TerminalTarget PromptId Epoch) (cause : TerminalCause) :
    (self.transition target cause).1.slots =
      self.slots.filter fun slot => !target.matches slot.owned.binding := by
  simp [transition, foldl_transitionSlot]

omit [DecidableEq Identity] in
theorem transition_fallbacks (target : TerminalTarget PromptId Epoch) (cause : TerminalCause) :
    (self.transition target cause).2.fallbacks =
      (self.slots.filter fun slot =>
        target.matches slot.owned.binding && (slot.isPending && cause.fallsBack)).map
          DeliverySlot.owned := by
  simp [transition, foldl_transitionSlot]

omit [DecidableEq Identity] in
theorem transition_completions (target : TerminalTarget PromptId Epoch) (cause : TerminalCause) :
    (self.transition target cause).2.completions =
      (self.slots.filter fun slot =>
        target.matches slot.owned.binding && !(slot.isPending && cause.fallsBack)).map
          DeliverySlot.owned := by
  simp [transition, foldl_transitionSlot]

end MessageDeliveryLifecycle

end Spec

end GrokBuild.Delivery
