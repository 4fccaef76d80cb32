import GrokBuild.Delivery.Lifecycle
import Mathlib.Data.List.Nodup
import Mathlib.Data.List.Perm.Lattice
import Mathlib.Data.List.Range

/-!
# Exactly-once delivery over whole runs

The log of a run keeps what the callers of the lifecycle saw: the deliveries it admitted,
the two lists its transitions returned, the messages `begin_delivery` returned and the
messages a successful commit was given. The accounting part holds of the log as it is.
The parts about single messages need to tell two admissions of one message value apart;
they run the same generic code with the admission number carried in the source field.
-/

namespace GrokBuild.Delivery

open StepRun

structure DeliveryLog (Identity Source Content Completion PromptId Epoch : Type*) where
  lifecycle : MessageDeliveryLifecycle Identity Source Content Completion PromptId Epoch := {}
  admitted : List (OwnedDelivery Identity Source Content Completion PromptId Epoch) := []
  fallbacks : List (OwnedDelivery Identity Source Content Completion PromptId Epoch) := []
  completions : List (OwnedDelivery Identity Source Content Completion PromptId Epoch) := []
  returned : List (DeliveryMessage Identity Source Content) := []
  committed : List (DeliveryMessage Identity Source Content) := []

inductive DeliveryOp (Identity Source Content Completion PromptId Epoch Error : Type*)
  | admitPending (binding : TurnBinding PromptId Epoch)
      (message : DeliveryMessage Identity Source Content) (completion : Completion)
  | beginDelivery (binding : TurnBinding PromptId Epoch)
  | finishDelivery (binding : TurnBinding PromptId Epoch)
      (commit : List (DeliveryMessage Identity Source Content) → Except Error Unit)
  | transition (target : TerminalTarget PromptId Epoch) (cause : TerminalCause)

variable {Identity Source Content Completion PromptId Epoch Error : Type*}
variable [DecidableEq Identity] [DecidableEq PromptId] [DecidableEq Epoch]

namespace DeliveryLog

/-- One call on the lifecycle, with its outcome entered in the log. -/
def step (log : DeliveryLog Identity Source Content Completion PromptId Epoch) :
    DeliveryOp Identity Source Content Completion PromptId Epoch Error →
      DeliveryLog Identity Source Content Completion PromptId Epoch
  | .admitPending binding message completion =>
    match log.lifecycle.admitPending binding message completion with
    | (lifecycle, .ok ()) =>
      { log with lifecycle, admitted := log.admitted ++ [{ binding, message, completion }] }
    | (lifecycle, .error _) => { log with lifecycle }
  | .beginDelivery binding =>
    let (lifecycle, messages) := log.lifecycle.beginDelivery binding
    { log with lifecycle, returned := log.returned ++ messages }
  | .finishDelivery binding commit =>
    match log.lifecycle.finishDelivery binding commit with
    | (lifecycle, .ok messages) => { log with lifecycle, committed := log.committed ++ messages }
    | (lifecycle, .error _) => { log with lifecycle }
  | .transition target cause =>
    let (lifecycle, transition) := log.lifecycle.transition target cause
    { log with
      lifecycle
      fallbacks := log.fallbacks ++ transition.fallbacks
      completions := log.completions ++ transition.completions }

def held (log : DeliveryLog Identity Source Content Completion PromptId Epoch) :
    List (OwnedDelivery Identity Source Content Completion PromptId Epoch) :=
  log.lifecycle.slots.map DeliverySlot.owned

/-- All the places a delivery can be in. -/
def places (log : DeliveryLog Identity Source Content Completion PromptId Epoch) :
    List (OwnedDelivery Identity Source Content Completion PromptId Epoch) :=
  log.held ++ log.fallbacks ++ log.completions

/-- Everything a step can do. -/
theorem step_cases (log : DeliveryLog Identity Source Content Completion PromptId Epoch)
    (op : DeliveryOp Identity Source Content Completion PromptId Epoch Error) :
    (∃ d, (∀ slot ∈ log.lifecycle.slots,
          slot.owned.message.identity ≠ d.message.identity) ∧
        op = .admitPending d.binding d.message d.completion ∧
        log.step op = { log with
          lifecycle := { slots := log.lifecycle.slots ++ [.pending d] }
          admitted := log.admitted ++ [d] }) ∨
    (∃ binding, log.step op = { log with
        lifecycle := { slots := log.lifecycle.slots.map (.project binding) }
        returned := log.returned ++ log.lifecycle.pendingMessages binding }) ∨
    (∃ binding, log.step op = { log with
        lifecycle := { slots := log.lifecycle.slots.map (.deliver binding) }
        committed := log.committed ++ log.lifecycle.projectingMessages binding }) ∨
    (∃ target cause, log.step op = { log with
        lifecycle := (log.lifecycle.transition target cause).1
        fallbacks := log.fallbacks ++ (log.lifecycle.transition target cause).2.fallbacks
        completions := log.completions ++ (log.lifecycle.transition target cause).2.completions }) ∨
    log.step op = log := by
  cases op with
  | admitPending binding message completion =>
    by_cases h : log.lifecycle.slots.any fun slot =>
        slot.owned.message.identity == message.identity
    · right; right; right; right
      simp [step, MessageDeliveryLifecycle.admitPending, h]
    · left
      refine ⟨⟨binding, message, completion⟩, ?_, rfl, ?_⟩
      · simpa using h
      · simp [step, MessageDeliveryLifecycle.admitPending, h]
  | beginDelivery binding =>
    right; left
    refine ⟨binding, ?_⟩
    have hs := log.lifecycle.beginDelivery_slots binding
    have hm := log.lifecycle.beginDelivery_messages binding
    unfold step
    rw [← hs, ← hm]
  | finishDelivery binding commit =>
    right; right
    rcases log.lifecycle.finishDelivery_cases binding commit with
      ⟨_, hf⟩ | ⟨e, _, _, hf⟩ | ⟨_, _, hf⟩
    · right; right
      simp [step, hf]
    · right; right
      simp [step, hf]
    · left
      exact ⟨binding, by simp [step, hf]⟩
  | transition target cause =>
    right; right; right; left
    exact ⟨target, cause, rfl⟩

/-- The accounting invariant. -/
structure Accounted (log : DeliveryLog Identity Source Content Completion PromptId Epoch) :
    Prop where
  conserved : log.admitted.Perm log.places
  identities : (log.held.map fun d => d.message.identity).Nodup
  ordered : log.held.Sublist log.admitted

omit [DecidableEq Identity] in
theorem transition_conserves
    (lifecycle : MessageDeliveryLifecycle Identity Source Content Completion PromptId Epoch)
    (target : TerminalTarget PromptId Epoch) (cause : TerminalCause) :
    (lifecycle.slots.map DeliverySlot.owned).Perm
      ((lifecycle.transition target cause).1.slots.map DeliverySlot.owned ++
        (lifecycle.transition target cause).2.fallbacks ++
        (lifecycle.transition target cause).2.completions) := by
  rw [lifecycle.transition_slots, lifecycle.transition_fallbacks, lifecycle.transition_completions,
    ← List.map_append, ← List.map_append]
  apply List.Perm.map
  -- first split off the slots of other turns, then split the rest by where they go
  have hkeep := List.filter_append_perm
    (fun slot => !target.matches slot.owned.binding) lifecycle.slots
  have hgo := List.filter_append_perm (fun slot => slot.isPending && cause.fallsBack)
    (lifecycle.slots.filter fun slot => target.matches slot.owned.binding)
  simp only [Bool.not_not, List.filter_filter] at hkeep hgo
  rw [List.append_assoc]
  apply hkeep.symm.trans
  apply List.Perm.append_left
  simpa only [Bool.and_comm] using hgo.symm

omit [DecidableEq Identity] [DecidableEq PromptId] [DecidableEq Epoch] in
theorem Accounted.of_held
    {log log' : DeliveryLog Identity Source Content Completion PromptId Epoch}
    (h : log.Accounted) (hheld : log'.held = log.held) (hadm : log'.admitted = log.admitted)
    (hfall : log'.fallbacks = log.fallbacks) (hcomp : log'.completions = log.completions) :
    log'.Accounted := by
  constructor
  · simpa only [places, hheld, hadm, hfall, hcomp] using h.conserved
  · simpa only [hheld] using h.identities
  · simpa only [hheld, hadm] using h.ordered

theorem append_interleave {α : Type*} (a b c d : List α) :
    (a ++ (b ++ (c ++ d))).Perm (c ++ (a ++ (d ++ b))) := by
  have hab : (a ++ b ++ c ++ d).Perm (c ++ (a ++ b) ++ d) :=
    List.perm_append_comm.append_right d
  have hbd : (c ++ a ++ (b ++ d)).Perm (c ++ a ++ (d ++ b)) :=
    List.perm_append_comm.append_left (c ++ a)
  simp only [List.append_assoc] at hab hbd ⊢
  exact hab.trans hbd

theorem Accounted.step {log : DeliveryLog Identity Source Content Completion PromptId Epoch}
    (h : log.Accounted)
    (op : DeliveryOp Identity Source Content Completion PromptId Epoch Error) :
    (log.step op).Accounted := by
  rcases log.step_cases op with ⟨d, hnew, -, hs⟩ | ⟨b, hs⟩ | ⟨b, hs⟩ | ⟨target, cause, hs⟩ | hs
  · rw [hs]
    constructor
    · have hp : (log.admitted ++ [d]).Perm (log.places ++ [d]) := h.conserved.append_right [d]
      apply hp.trans
      simp only [places, held, List.map_append, List.map_cons, List.map_nil,
        DeliverySlot.owned_pending, List.append_assoc]
      apply List.Perm.append_left
      have hlast : (log.fallbacks ++ log.completions ++ [d]).Perm
          ([d] ++ (log.fallbacks ++ log.completions)) := List.perm_append_comm
      simpa using hlast
    · simp only [held, List.map_append, List.map_cons, List.map_nil, DeliverySlot.owned_pending,
        List.map_map]
      apply List.Nodup.append
      · simpa [held] using h.identities
      · simp
      · simpa using hnew
    · simp only [held, List.map_append, List.map_cons, List.map_nil, DeliverySlot.owned_pending]
      exact h.ordered.append_right [d]
  · rw [hs]
    exact h.of_held (by simp [held, Function.comp_def]) rfl rfl rfl
  · rw [hs]
    exact h.of_held (by simp [held, Function.comp_def]) rfl rfl rfl
  · rw [hs]
    have hkept : ((log.lifecycle.transition target cause).1.slots.map DeliverySlot.owned).Sublist
        log.held := by
      rw [log.lifecycle.transition_slots]
      exact List.filter_sublist.map _
    constructor
    · apply h.conserved.trans
      have ht := transition_conserves log.lifecycle target cause
      have hall := ht.append_right (log.fallbacks ++ log.completions)
      simp only [places, held, List.append_assoc] at hall ⊢
      apply hall.trans
      apply List.Perm.append_left
      exact append_interleave _ _ _ _
    · exact h.identities.sublist (hkept.map _)
    · exact hkept.trans h.ordered
  · rw [hs]
    exact h

end DeliveryLog

/-! ## Telling admissions apart -/

section Relabel

variable {Source' : Type*} (f : Source → Source')

def DeliveryMessage.mapSource (m : DeliveryMessage Identity Source Content) :
    DeliveryMessage Identity Source' Content :=
  { m with source := f m.source }

def OwnedDelivery.mapSource
    (d : OwnedDelivery Identity Source Content Completion PromptId Epoch) :
    OwnedDelivery Identity Source' Content Completion PromptId Epoch :=
  { d with message := d.message.mapSource f }

def DeliverySlot.mapSource :
    DeliverySlot Identity Source Content Completion PromptId Epoch →
      DeliverySlot Identity Source' Content Completion PromptId Epoch
  | .pending d => .pending (d.mapSource f)
  | .projecting d => .projecting (d.mapSource f)
  | .delivered d => .delivered (d.mapSource f)

def MessageDeliveryLifecycle.mapSource
    (lifecycle : MessageDeliveryLifecycle Identity Source Content Completion PromptId Epoch) :
    MessageDeliveryLifecycle Identity Source' Content Completion PromptId Epoch :=
  { slots := lifecycle.slots.map (.mapSource f) }

def DeliveryLog.mapSource
    (log : DeliveryLog Identity Source Content Completion PromptId Epoch) :
    DeliveryLog Identity Source' Content Completion PromptId Epoch where
  lifecycle := log.lifecycle.mapSource f
  admitted := log.admitted.map (.mapSource f)
  fallbacks := log.fallbacks.map (.mapSource f)
  completions := log.completions.map (.mapSource f)
  returned := log.returned.map (.mapSource f)
  committed := log.committed.map (.mapSource f)

omit [DecidableEq Identity] [DecidableEq PromptId] [DecidableEq Epoch] in
@[simp] theorem DeliverySlot.owned_mapSource
    (slot : DeliverySlot Identity Source Content Completion PromptId Epoch) :
    (slot.mapSource f).owned = slot.owned.mapSource f := by
  cases slot <;> rfl

omit [DecidableEq Identity] [DecidableEq PromptId] [DecidableEq Epoch] in
@[simp] theorem DeliverySlot.isPending_mapSource
    (slot : DeliverySlot Identity Source Content Completion PromptId Epoch) :
    (slot.mapSource f).isPending = slot.isPending := by
  cases slot <;> rfl

namespace MessageDeliveryLifecycle

variable (self : MessageDeliveryLifecycle Identity Source Content Completion PromptId Epoch)

end MessageDeliveryLifecycle

end Relabel

/-- The operation with the admission number `n` put on the message it admits. The commit
still sees the plain messages. -/
def DeliveryOp.numbered (n : ℕ) :
    DeliveryOp Identity Source Content Completion PromptId Epoch Error →
      DeliveryOp Identity (ℕ × Source) Content Completion PromptId Epoch Error
  | .admitPending binding message completion =>
    .admitPending binding (message.mapSource fun source => (n, source)) completion
  | .beginDelivery binding => .beginDelivery binding
  | .finishDelivery binding commit =>
    .finishDelivery binding fun messages => commit (messages.map (.mapSource Prod.snd))
  | .transition target cause => .transition target cause

namespace DeliveryLog

/-- What the admission numbers show: the numbers are those of the admissions, a message
leaves the pending phase only by being returned, and only pending ones fall back. -/
structure Tracked
    (log : DeliveryLog Identity (ℕ × Source) Content Completion PromptId Epoch) : Prop
    extends log.Accounted where
  numbers : log.admitted.map (fun d => d.message.source.1) = List.range log.admitted.length
  returned_admitted : ∀ m ∈ log.returned, ∃ d ∈ log.admitted, d.message = m
  projected_returned : ∀ slot ∈ log.lifecycle.slots, slot.isPending = false →
    slot.owned.message ∈ log.returned
  pending_not_returned : ∀ slot ∈ log.lifecycle.slots, slot.isPending = true →
    slot.owned.message ∉ log.returned
  fallback_not_returned : ∀ d ∈ log.fallbacks, d.message ∉ log.returned
  committed_returned : ∀ m ∈ log.committed, m ∈ log.returned

namespace Tracked

variable {log : DeliveryLog Identity (ℕ × Source) Content Completion PromptId Epoch}

omit [DecidableEq Identity] [DecidableEq PromptId] [DecidableEq Epoch] in
theorem admitted_messages_nodup (h : log.Tracked) :
    (log.admitted.map fun d => d.message).Nodup := by
  have hn : (log.admitted.map fun d => d.message.source.1).Nodup := by
    rw [h.numbers]
    exact List.nodup_range
  apply List.Nodup.of_map fun m => m.source.1
  rwa [List.map_map]

omit [DecidableEq Identity] [DecidableEq PromptId] [DecidableEq Epoch] in
theorem places_messages_nodup (h : log.Tracked) :
    (log.places.map fun d => d.message).Nodup :=
  (h.conserved.map _).nodup_iff.mp h.admitted_messages_nodup

omit [DecidableEq Identity] [DecidableEq PromptId] [DecidableEq Epoch] in
/-- Slots with one message are one delivery. -/
theorem held_inj (h : log.Tracked) {d d'} (hd : d ∈ log.held) (hd' : d' ∈ log.held)
    (heq : d.message = d'.message) : d = d' := by
  have hsub := h.ordered.map fun d => d.message
  exact List.inj_on_of_nodup_map (h.admitted_messages_nodup.sublist hsub) hd hd' heq

omit [DecidableEq Identity] [DecidableEq PromptId] [DecidableEq Epoch] in
theorem held_ne_fallback (h : log.Tracked) {d d'} (hd : d ∈ log.held)
    (hd' : d' ∈ log.fallbacks) : d.message ≠ d'.message := by
  have hn := h.places_messages_nodup
  simp only [places, List.map_append, List.append_assoc] at hn
  have hdis := List.disjoint_of_nodup_append hn
  intro heq
  apply hdis (List.mem_map_of_mem hd)
  rw [heq]
  exact List.mem_append_left _ (List.mem_map_of_mem hd')

omit [DecidableEq Identity] in
theorem begin (h : log.Tracked) (binding : TurnBinding PromptId Epoch) {log'}
    (hlog : log' = { log with
      lifecycle := { slots := log.lifecycle.slots.map (.project binding) }
      returned := log.returned ++ log.lifecycle.pendingMessages binding })
    (hacc : log'.Accounted) : log'.Tracked := by
  subst hlog
  refine { toAccounted := hacc, numbers := h.numbers, returned_admitted := ?_,
           projected_returned := ?_, pending_not_returned := ?_, fallback_not_returned := ?_,
           committed_returned := ?_ }
  · intro m hm
    rcases List.mem_append.mp hm with hold | hnew
    · exact h.returned_admitted m hold
    · obtain ⟨slot, hslot, -, -, rfl⟩ := log.lifecycle.mem_pendingMessages.mp hnew
      exact ⟨_, h.ordered.subset (List.mem_map_of_mem hslot), rfl⟩
  · intro slot' hslot' hp
    obtain ⟨slot, hslot, rfl⟩ := List.mem_map.mp hslot'
    rw [DeliverySlot.owned_project]
    apply List.mem_append.mpr
    -- a slot that is no longer pending was projected before, or is of this turn
    by_cases hold : slot.isPending = true
    · right
      apply log.lifecycle.mem_pendingMessages.mpr
      refine ⟨slot, hslot, hold, ?_, rfl⟩
      by_contra hne
      rw [(slot.isPending_project binding).mpr ⟨hold, hne⟩] at hp
      contradiction
    · left
      exact h.projected_returned slot hslot (by simpa using hold)
  · intro slot' hslot' hp hm
    obtain ⟨slot, hslot, rfl⟩ := List.mem_map.mp hslot'
    obtain ⟨hold, hne⟩ := (slot.isPending_project binding).mp hp
    rw [DeliverySlot.owned_project] at hm
    rcases List.mem_append.mp hm with hr | hnew
    · exact h.pending_not_returned slot hslot hold hr
    · obtain ⟨other, hother, -, hb, heq⟩ := log.lifecycle.mem_pendingMessages.mp hnew
      apply hne
      rw [← h.held_inj (List.mem_map_of_mem hother) (List.mem_map_of_mem hslot) heq, hb]
  · intro d hd hm
    rcases List.mem_append.mp hm with hr | hnew
    · exact h.fallback_not_returned d hd hr
    · obtain ⟨slot, hslot, -, -, heq⟩ := log.lifecycle.mem_pendingMessages.mp hnew
      exact h.held_ne_fallback (List.mem_map_of_mem hslot) hd heq
  · intro m hm
    exact List.mem_append_left _ (h.committed_returned m hm)

omit [DecidableEq Identity] in
theorem finish (h : log.Tracked) (binding : TurnBinding PromptId Epoch) {log'}
    (hlog : log' = { log with
      lifecycle := { slots := log.lifecycle.slots.map (.deliver binding) }
      committed := log.committed ++ log.lifecycle.projectingMessages binding })
    (hacc : log'.Accounted) : log'.Tracked := by
  subst hlog
  refine { toAccounted := hacc, numbers := h.numbers, returned_admitted := h.returned_admitted,
           projected_returned := ?_, pending_not_returned := ?_,
           fallback_not_returned := h.fallback_not_returned, committed_returned := ?_ }
  · intro slot' hslot' hp
    obtain ⟨slot, hslot, rfl⟩ := List.mem_map.mp hslot'
    rw [DeliverySlot.isPending_deliver] at hp
    rw [DeliverySlot.owned_deliver]
    exact h.projected_returned slot hslot hp
  · intro slot' hslot' hp
    obtain ⟨slot, hslot, rfl⟩ := List.mem_map.mp hslot'
    rw [DeliverySlot.isPending_deliver] at hp
    rw [DeliverySlot.owned_deliver]
    exact h.pending_not_returned slot hslot hp
  · intro m hm
    rcases List.mem_append.mp hm with hold | hnew
    · exact h.committed_returned m hold
    · obtain ⟨slot, hslot, hp, rfl⟩ := log.lifecycle.mem_projectingMessages hnew
      exact h.projected_returned slot hslot hp

end Tracked

omit [DecidableEq Identity] [DecidableEq PromptId] [DecidableEq Epoch] in
theorem Accounted.empty :
    ({} : DeliveryLog Identity Source Content Completion PromptId Epoch).Accounted := by
  constructor
  · exact List.Perm.refl _
  · exact List.nodup_nil
  · exact List.Sublist.refl _

omit [DecidableEq Identity] [DecidableEq PromptId] [DecidableEq Epoch] in
theorem Tracked.empty :
    ({} : DeliveryLog Identity (ℕ × Source) Content Completion PromptId Epoch).Tracked := by
  refine { toAccounted := .empty, numbers := rfl, returned_admitted := ?_,
           projected_returned := ?_, pending_not_returned := ?_, fallback_not_returned := ?_,
           committed_returned := ?_ }
  all_goals
    intro x hx
    cases hx

end DeliveryLog

end GrokBuild.Delivery
