import Mathlib.Order.MinMax
import GrokBuild.Text.Str

namespace GrokBuild.Permission
open Text

inductive AccessKind
  | read (path : Option Str)
  | grep (path glob : Option Str)
  | edit (path : Str)
  | bash (cmd : Str)
  | mcpTool (name : Str)
  | webFetch (url : Str)
  | webSearch (query : Str)
  | agentMessage (subagentId : Str)
  deriving DecidableEq

inductive Decision
  | allow
  | ask
  | followupMessage (text : Str)
  | reject (reason : Str)
  | policyDeny (reason : Str)
  | cancelled
  deriving DecidableEq

inductive RuleAction
  | allow
  | deny
  | ask
  deriving DecidableEq

inductive ToolFilter
  | any
  | bash
  | edit
  | read
  | grep
  | mcp
  | webFetch
  | webSearch
  | agentMessage
  deriving DecidableEq

inductive PatternMode
  | glob
  | domain
  deriving DecidableEq

structure PermissionRule where
  action : RuleAction
  tool : ToolFilter
  pattern : Option Str
  patternMode : PatternMode
  deriving DecidableEq

/-- A gate escalation that keeps where an `Ask` came from. -/
inductive GateDecision
  | reject (reason : Str)
  | askRuleMatch
  | askFailClosed
  deriving DecidableEq

namespace GateDecision

def intoDecision : GateDecision → Decision
  | reject reason => .reject reason
  | askRuleMatch | askFailClosed => .ask

def rank : GateDecision → ℕ
  | reject _ => 3
  | askRuleMatch => 2
  | askFailClosed => 1

end GateDecision

def combineGateDecisions (a b : Option GateDecision) : Option GateDecision :=
  match a, b with
  | none, other => other
  | other, none => other
  | some a, some b => some (if a.rank ≥ b.rank then a else b)

def decisionRank : Decision → ℕ
  | .reject _ | .policyDeny _ => 3
  | .ask => 2
  | .allow => 1
  | .followupMessage _ | .cancelled => 0

def combineDecisions (a b : Option Decision) : Option Decision :=
  match a, b with
  | none, other => other
  | other, none => other
  | some a, some b => some (if decisionRank a ≥ decisionRank b then a else b)

/-- A verdict with the text of a rejection forgotten; `none` is rank 0. -/
def gateRank : Option GateDecision → ℕ
  | none => 0
  | some d => d.rank

@[simp] theorem gateRank_none : gateRank none = 0 := rfl

@[simp] theorem gateRank_reject (reason : Str) : gateRank (some (.reject reason)) = 3 := rfl

@[simp] theorem gateRank_askRuleMatch : gateRank (some .askRuleMatch) = 2 := rfl

@[simp] theorem gateRank_askFailClosed : gateRank (some .askFailClosed) = 1 := rfl

/-- The combination keeps the stronger verdict. -/
@[simp] theorem gateRank_combine (a b : Option GateDecision) :
    gateRank (combineGateDecisions a b) = max (gateRank a) (gateRank b) := by
  cases a with
  | none => simp [combineGateDecisions]
  | some x =>
    cases b with
    | none => simp [combineGateDecisions]
    | some y =>
      simp only [combineGateDecisions, gateRank, ge_iff_le]
      split_ifs with h <;> omega

theorem gateRank_le_three (a : Option GateDecision) : gateRank a ≤ 3 := by
  cases a with
  | none => simp
  | some d => cases d <;> simp

theorem gateRank_eq_three_iff {a : Option GateDecision} :
    gateRank a = 3 ↔ ∃ reason, a = some (.reject reason) := by
  cases a with
  | none => simp
  | some d => cases d <;> simp

theorem gateRank_eq_zero_iff {a : Option GateDecision} : gateRank a = 0 ↔ a = none := by
  cases a with
  | none => simp
  | some d => cases d <;> simp

/-- The gates fold their findings with `combineGateDecisions`, so a verdict has rank at least
`k` exactly when one of the findings has. -/
theorem le_gateRank_foldl {α : Type*} (f : α → Option GateDecision) (k : ℕ)
    (xs : List α) (acc : Option GateDecision) :
    k ≤ gateRank (xs.foldl (fun d x => combineGateDecisions d (f x)) acc) ↔
      k ≤ gateRank acc ∨ ∃ x ∈ xs, k ≤ gateRank (f x) := by
  induction xs generalizing acc with
  | nil => simp
  | cons x xs ih =>
    rw [List.foldl_cons, ih, gateRank_combine]
    constructor
    · rintro (h | ⟨y, hy, h⟩)
      · rcases le_max_iff.mp h with h | h
        · exact .inl h
        · exact .inr ⟨x, by simp, h⟩
      · exact .inr ⟨y, by simp [hy], h⟩
    · rintro (h | ⟨y, hy, h⟩)
      · exact .inl (le_max_of_le_left h)
      · rcases List.mem_cons.mp hy with rfl | hy
        · exact .inl (le_max_of_le_right h)
        · exact .inr ⟨y, hy, h⟩

end GrokBuild.Permission
