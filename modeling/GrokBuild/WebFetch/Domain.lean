import Mathlib
import GrokBuild.Text.Lowercase

/-!
# The domain allowlist

Entries are folded into one map from hosts to what each may serve. Only ASCII texts stand in a
parsed URL, so its bytes are its characters.
-/

namespace GrokBuild.WebFetch

open Text

/-- What URL parsing promises about the two parts that are looked at. -/
structure ParsedUrl where
  host : Option Str
  path : Str
  host_plain : ∀ h ∈ host, ∀ c ∈ h,
    c.toNat < 128 ∧ c.toLower = c ∧ c ≠ '/' ∧ isWhitespace c = false
  path_ascii : IsAscii path
  path_rooted : path.head? = some '/'

def stripWww (s : Str) : Str := (stripPrefix s ['w', 'w', 'w', '.']).getD s

/-- The prefix goes before lower-casing. -/
def normalizeDomain (L : Lowercase) (raw : Str) : Str :=
  L.lower (stripWww (trimEndMatches (· == '.') (trimEndMatches (· == '/') (trim raw))))

inductive HostEntry where
  | anyPath
  | pathPrefixes (prefixes : List Str)
deriving DecidableEq

abbrev HostEntries := Str → Option HostEntry

def insertEntry (entries : HostEntries) (host : Str) (entry : HostEntry) : HostEntries :=
  Function.update entries host (some entry)

def addPathPrefix (entries : HostEntries) (host pathPrefix : Str) : HostEntries :=
  match entries host with
  | some .anyPath => entries
  | some (.pathPrefixes prefixes) =>
    if pathPrefix ∈ prefixes then entries
    else insertEntry entries host (.pathPrefixes (prefixes ++ [pathPrefix]))
  | none => insertEntry entries host (.pathPrefixes [pathPrefix])

def hostPart (s : Str) : Str := s.takeWhile fun c => !(c == '/')

def pathPart (s : Str) : Str := s.dropWhile fun c => !(c == '/')

def addRawPath (entries : HostEntries) (host rawPath : Str) : HostEntries :=
  if entries host = some .anyPath then entries
  else
    let pathPrefix := trimEndMatches (· == '/') rawPath
    if pathPrefix = [] ∨ pathPrefix = ['/'] then insertEntry entries host .anyPath
    else if startsWith pathPrefix ['/'] then addPathPrefix entries host pathPrefix
    else addPathPrefix entries host ('/' :: pathPrefix)

def addEntry (L : Lowercase) (entries : HostEntries) (raw : Str) : HostEntries :=
  let normalized := normalizeDomain L raw
  if normalized = [] then entries
  else if pathPart normalized = [] then insertEntry entries (hostPart normalized) .anyPath
  else addRawPath entries (hostPart normalized) (pathPart normalized)

def domainMatcher (L : Lowercase) (rawEntries : List Str) : HostEntries :=
  rawEntries.foldl (addEntry L) fun _ => none

structure DomainNotAllowed where
  domain : Str
deriving DecidableEq

def pathMatches (urlPath pathPrefix : Str) : Bool :=
  urlPath == pathPrefix ||
    (startsWith urlPath pathPrefix && urlPath[pathPrefix.length]? == some '/')

/-- Nothing is returned if the URL is permitted. -/
def check (L : Lowercase) (entries : HostEntries) (url : ParsedUrl) : Option DomainNotAllowed :=
  match url.host with
  | none => some ⟨[]⟩
  | some rawHost =>
    let host := normalizeDomain L rawHost
    match entries host with
    | some .anyPath => none
    | some (.pathPrefixes prefixes) =>
      if prefixes.any (pathMatches (L.lower url.path)) then none else some ⟨host⟩
    | none => some ⟨host⟩

/-! ## What an entry says -/

/-- A host with a path, which is empty for the whole host. -/
structure Reading where
  host : Str
  path : Str
deriving DecidableEq

def Reading.Admits (r : Reading) (host path : Str) : Prop :=
  r.host = host ∧ (r.path = [] ∨ path = r.path ∨ r.path ++ ['/'] <+: path)

instance (r : Reading) (host path : Str) : Decidable (r.Admits host path) :=
  inferInstanceAs (Decidable (_ ∧ _))

/-- How the fold reads an entry. -/
def readAs (L : Lowercase) (raw : Str) : Option Reading :=
  let normalized := normalizeDomain L raw
  if normalized = [] then none
  else some ⟨hostPart normalized, trimEndMatches (· == '/') (pathPart normalized)⟩

/-- An entry without slashes at its end and blanks around it. -/
def trimmedEntry (raw : Str) : Str := trimEndMatches (· == '/') (trim raw)

/-- What an entry means: the host without its last dots and then without `www.`, and the path as it
is. Dots alone name no host. -/
def declares (L : Lowercase) (raw : Str) : Option Reading :=
  let entry := trimmedEntry (L.lower raw)
  if trimEndMatches (· == '.') entry = [] then none
  else some ⟨stripWww (trimEndMatches (· == '.') (hostPart entry)), pathPart entry⟩

/-- A spelling that the fold reads otherwise: a capital in `www.`, or dots at the end of a host
with a path or of the path. -/
def Misspelled (raw : Str) : Prop :=
  let entry := trimmedEntry raw
  (toAsciiLowercase (entry.take 4) = ['w', 'w', 'w', '.'] ∧
      entry.take 4 ≠ ['w', 'w', 'w', '.']) ∨
    ('/' ∈ entry ∧ ((hostPart entry).getLast? = some '.' ∨ entry.getLast? = some '.'))

instance (raw : Str) : Decidable (Misspelled raw) := inferInstanceAs (Decidable (_ ∨ _))

/-- An entry of the list declares the URL. -/
def Declared (L : Lowercase) (rawEntries : List Str) (url : ParsedUrl) : Prop :=
  ∃ rawHost ∈ url.host, ∃ raw ∈ rawEntries, ∃ r ∈ declares L raw,
    r.Admits (stripWww (trimEndMatches (· == '.') rawHost)) (L.lower url.path)

/-- An entry of the list admits the URL as the fold reads it. -/
def Admitted (L : Lowercase) (rawEntries : List Str) (url : ParsedUrl) : Prop :=
  ∃ rawHost ∈ url.host, ∃ raw ∈ rawEntries, ∃ r ∈ readAs L raw,
    r.Admits (stripWww (trimEndMatches (· == '.') rawHost)) (L.lower url.path)

end GrokBuild.WebFetch
