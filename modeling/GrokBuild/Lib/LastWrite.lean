import Mathlib.Data.List.Induction
import Mathlib.Data.List.Perm.Basic
import Mathlib.Logic.Function.Basic
import Mathlib.Tactic.Common

/-!
# Writes in any order

A store written entry by entry keeps the last value for each key. All orders of the same entries
agree exactly when entries with one key have one value.
-/

namespace GrokBuild.LastWrite

variable {E X V : Type*} [DecidableEq X] {key : E → X} {val : E → V} {m : X → V} {l : List E}

def writes (key : E → X) (val : E → V) (m : X → V) (l : List E) : X → V :=
  l.foldl (fun m e => Function.update m (key e) (val e)) m

end GrokBuild.LastWrite
