import GrokBuild.Permission.PeelChain
import GrokBuild.Permission.WrapperPeel

/-!
# The words in front of a command

How many words a wrapper takes is decided by these words and the first one behind them: the rest of
the command can change without moving the command's start.
-/

namespace GrokBuild.Permission
open Text

/-! ## Options -/

end GrokBuild.Permission
