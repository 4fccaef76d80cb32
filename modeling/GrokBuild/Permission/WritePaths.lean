import GrokBuild.Permission.PeelFront
import GrokBuild.Permission.ShellSurround

/-!
# The write paths of a script

`command_write_paths_split` lists the paths that a script's commands write or create, for the edit
floor. It reads the literal words of a command, where the file gate reads the words that its peel
leaves behind.
-/

namespace GrokBuild.Permission
open Text

/-- `shell_program_name` in lower case. -/
def programName (word : Str) : Str := toAsciiLowercase (baseName word)

section Judged

variable {env : PolicyEnv}

theorem decision_evaluateOperand (p : CompiledPolicy env) (cwd : Str) (unpinned : Bool)
    (acc : GateAcc) (operand : FileOperand) :
    (p.evaluateOperand cwd unpinned acc operand).decision =
      combineGateDecisions acc.decision (p.evaluateShellPath operand.1 cwd operand.2 unpinned) := rfl

end Judged

/-! ## The extractor against the gate -/

end GrokBuild.Permission
