import Mathlib.Data.List.Basic
import Mathlib.Data.List.Infix

/-!
# Runs of a step function

A deterministic system is a step function on states and operations; a run is its left
fold over a list of operations. An invariant of the step, unconditional or under a
condition that every step of the run meets, is an invariant of the run.
-/

namespace GrokBuild.StepRun

variable {S O : Type*} (step : S → O → S)

def run (s : S) (ops : List O) : S :=
  ops.foldl step s

/-- Each operation of the run from `s` meets `Q` in the state it is applied to. -/
def Meets (Q : S → O → Prop) : S → List O → Prop
  | _, [] => True
  | s, o :: ops => Q s o ∧ Meets Q (step s o) ops

variable {step}

@[simp] theorem run_nil (s : S) : run step s [] = s := rfl

@[simp] theorem run_cons (s : S) (o : O) (ops : List O) :
    run step s (o :: ops) = run step (step s o) ops := rfl

theorem run_append (s : S) (ops ops' : List O) :
    run step s (ops ++ ops') = run step (run step s ops) ops' := by
  simp [run]

theorem meets_append {Q : S → O → Prop} {s : S} {ops ops' : List O} :
    Meets step Q s (ops ++ ops') ↔ Meets step Q s ops ∧ Meets step Q (run step s ops) ops' := by
  induction ops generalizing s with
  | nil => simp [Meets]
  | cons o ops ih =>
    rw [List.cons_append, Meets, Meets, ih, run_cons]
    tauto

/-- An invariant that each step keeps when it meets `Q` holds after every run whose steps
all meet `Q`. -/
theorem invariant_of_meets {P : S → Prop} {Q : S → O → Prop}
    (hstep : ∀ s o, P s → Q s o → P (step s o)) {s : S} {ops : List O}
    (hs : P s) (hm : Meets step Q s ops) : P (run step s ops) := by
  induction ops generalizing s with
  | nil => exact hs
  | cons o ops ih => exact ih (hstep s o hs hm.1) hm.2

theorem invariant {P : S → Prop} (hstep : ∀ s o, P s → P (step s o)) {s : S}
    (hs : P s) (ops : List O) : P (run step s ops) := by
  induction ops generalizing s with
  | nil => exact hs
  | cons o ops ih => exact ih (hstep s o hs)

end GrokBuild.StepRun
