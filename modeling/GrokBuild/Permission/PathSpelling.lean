import GrokBuild.Permission.PathCollapse

/-!
# Respelling an operand

What `normalize_shell_path_raw` does to a text: quotes at either end go, backslashes become
slashes, and a leading `/c/` becomes a drive letter.
-/

namespace GrokBuild.Permission
open Text

def isQuote (c : Char) : Bool := c == '"' || c == '\''

theorem length_pathMatchString (q : Str) : (pathMatchString q).length = q.length := by
  simp [pathMatchString, replaceChar]

theorem pathMatchString_append (x y : Str) :
    pathMatchString (x ++ y) = pathMatchString x ++ pathMatchString y := by
  simp [pathMatchString, replaceChar]

theorem isAbsolute_cons (c : Char) (q : Str) : isAbsolute (c :: q) = (c == '/') := by
  simp [isAbsolute, startsWith, List.isPrefixOf, Bool.beq_comm]

end GrokBuild.Permission
