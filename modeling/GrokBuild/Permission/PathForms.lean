import GrokBuild.Permission.Types

/-!
# Lexical path forms

Paths are the strings of a Unix `Path`. A path rule is matched against several spellings of
the accessed path: the normalized absolute one and, below the working directory, the
relative ones.
-/

namespace GrokBuild.Permission
open Text

inductive Component
  | rootDir
  | curDir
  | parentDir
  | normal (name : Str)
  deriving DecidableEq

def Component.asStr : Component → Str
  | rootDir => "/".toList
  | curDir => ".".toList
  | parentDir => "..".toList
  | normal name => name

def isAbsolute (path : Str) : Bool := startsWith path "/".toList

def isSignificant (segment : Str) : Bool := !segment.isEmpty && segment != ".".toList

def segmentComponent (segment : Str) : Component :=
  if segment = "..".toList then .parentDir else .normal segment

/-- `Path::components`: empty and `.` segments vanish, except a leading `.`. -/
def components (path : Str) : List Component :=
  let segments := splitOnChar '/' path
  let body := (segments.filter isSignificant).map segmentComponent
  if isAbsolute path then .rootDir :: body
  else if segments.head? = some ".".toList then .curDir :: body
  else body

/-- `PathBuf::push`. -/
def pathPush (base path : Str) : Str :=
  if isAbsolute path then path
  else if base.isEmpty || endsWith base "/".toList then base ++ path
  else base ++ "/".toList ++ path

/-- One component of `normalize_lexically`; the stack of components is reversed. -/
def normalizeComponent (stack : List Component) : Component → List Component
  | .curDir => stack
  | .parentDir =>
    match stack with
    | .normal _ :: stack => stack
    | .rootDir :: stack => .rootDir :: stack
    | stack => .parentDir :: stack
  | component => component :: stack

def normalizeLexically (path : Str) : Str :=
  match ((components path).foldl normalizeComponent []).reverse with
  | [] => ".".toList
  | normalized => normalized.foldl (fun p c => pathPush p c.asStr) []

def dropSignificant : ℕ → List Str → List Str
  | 0, segments => segments
  | _ + 1, [] => []
  | n + 1, segment :: segments =>
    if isSignificant segment then dropSignificant n segments
    else dropSignificant (n + 1) segments

/-- `Path::strip_prefix`: what follows `base`, without separators at either end. -/
def pathStripPrefix (path base : Str) : Option Str :=
  if (components base).isPrefixOf (components path) then
    -- the root or a leading `.` is a component but not a significant segment
    let leading := (components path).head?.any fun c => c = .rootDir ∨ c = .curDir
    let consumed := (components base).length - if leading then 1 else 0
    let rest := dropSignificant consumed (splitOnChar '/' path)
    some (['/'].intercalate
      ((rest.dropWhile (!isSignificant ·)).rdropWhile (!isSignificant ·)))
  else none

def pathMatchString (path : Str) : Str := replaceChar '\\' '/' path

def pathHasParentDir (path : Str) : Bool := (components path).contains .parentDir

/-- The tools expand a leading `~` after the gate, so such a path is never relative to the cwd. -/
def isTildePath (path : Str) : Bool :=
  match (components path).head? with
  | some (.normal first) => startsWith first "~".toList
  | _ => false

def joinCwd (path : Str) (cwd : Option Str) : Str :=
  match cwd with
  | some cwd => if isAbsolute path then path else pathPush cwd path
  | none => path

def absoluteNormalizedPath (path : Str) (cwd : Option Str) : Str :=
  if isTildePath path then path else normalizeLexically (joinCwd path cwd)

def rawAbsoluteToolPath (path : Str) (cwd : Option Str) : Option Str :=
  if isTildePath path then none
  else
    let joined := joinCwd path cwd
    if isAbsolute joined then some (pathMatchString joined) else none

def pathMatchForms (path : Str) (cwd : Option Str) : List Str :=
  let abs := absoluteNormalizedPath path cwd
  let form := pathMatchString abs
  match cwd with
  | some cwd =>
    match pathStripPrefix abs (normalizeLexically cwd) with
    | some rel =>
      let rel := pathMatchString rel
      if rel.isEmpty || rel == ".".toList then [form, ".".toList, "./".toList]
      else [form, "./".toList ++ rel, rel]
    | none => [form]
  | none =>
    if !isAbsolute abs && !pathHasParentDir abs && !isTildePath abs then
      if form != ".".toList && !form.isEmpty then [form, "./".toList ++ form] else [form]
    else [form]

end GrokBuild.Permission
