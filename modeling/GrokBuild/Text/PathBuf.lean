import GrokBuild.Text.Str

/-!
# Paths

A path as its components, with the operations of `std::path` that the modelled functions
call.
-/

namespace GrokBuild.Text

structure PathBuf where
  absolute : Bool
  components : List Str
deriving DecidableEq, Repr

namespace PathBuf

def stripPrefix (path base : PathBuf) : Option PathBuf :=
  if path.absolute = base.absolute ∧ base.components <+: path.components then
    some { absolute := false, components := path.components.drop base.components.length }
  else none

def join (base path : PathBuf) : PathBuf :=
  if path.absolute then path
  else { base with components := base.components ++ path.components }

def display (path : PathBuf) : Str :=
  (if path.absolute then ['/'] else []) ++ ['/'].intercalate path.components

end PathBuf

end GrokBuild.Text
