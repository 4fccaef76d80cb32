import GrokBuild.Permission.PathSpelling

/-!
# One path before the shell gate and before the tool

The verdict of `evaluate_shell_path` on an operand under a pinned cwd, against the verdict of
`evaluate_with_cwd` on a `Read` or `Edit` of the same path. The two collapse the path in different
ways and share the rule matcher.
-/

namespace GrokBuild.Permission
open Text

/-! ## What a verdict says about the rules -/

section Verdicts

variable {env : PolicyEnv} {rules : List PermissionRule}

theorem gateRank_pos_iff {a : Option GateDecision} : 0 < gateRank a ↔ a ≠ none := by
  rw [Nat.pos_iff_ne_zero, Ne, gateRank_eq_zero_iff]

namespace CompiledPolicy

end CompiledPolicy

namespace CompiledPolicy

/-! ## The two verdicts -/

end CompiledPolicy

end Verdicts

/-! ## The two texts of one operand -/

theorem joinCwd_some (path cwd : Str) : joinCwd path (some cwd) = pathPush cwd path := by
  unfold joinCwd pathPush
  dsimp only
  split_ifs <;> rfl

section SameText

variable {path cwd : Str}

/-- An environment with one pattern, which matches the texts of `matched`, and given links. -/
def probeEnv (matched : Str → Bool) (resolve : Str → Option Str) : PolicyEnv where
  Pattern := Unit
  globNew _ := some ()
  matchesWith _ _ text := matched text
  urlHost _ := none
  toLowercase s := s
  allCommandsFromScript _ := none
  resolveSymlinkTarget := resolve
  pathHasSymlink _ := false

def probeRule : PermissionRule where
  action := .deny
  tool := .read
  pattern := some "probe".toList
  patternMode := .glob

theorem form_mem_pathMatchForms (q cwd : Str) :
    pathMatchString (absoluteNormalizedPath q (some cwd)) ∈ pathMatchForms q (some cwd) := by
  unfold pathMatchForms
  dsimp only
  split
  · split_ifs <;> exact List.mem_cons_self
  · exact List.mem_cons_self

theorem pathMatchString_of_not_mem {q : Str} (h : '\\' ∉ q) : pathMatchString q = q := by
  have hself : ∀ c ∈ q, (if c == '\\' then '/' else c) = id c := by
    intro c hc
    have hne : c ≠ '\\' := fun he => h (he ▸ hc)
    rw [if_neg (by simpa using hne)]
    rfl
  exact (List.map_congr_left hself).trans (List.map_id q)

end SameText

end GrokBuild.Permission
