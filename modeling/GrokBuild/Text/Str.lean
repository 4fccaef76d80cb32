import Mathlib.Data.List.DropRight
import Mathlib.Tactic.Common

/-!
# String operations of the source

Strings are lists of characters. The operations below are the `str` methods that the
modelled functions call, with the behaviour documented for them.
-/

namespace GrokBuild.Text

abbrev Str := List Char

instance lawfulBEqStr : LawfulBEq Str := inferInstance

/-- `char::is_whitespace`: the Unicode property `White_Space`. -/
def isWhitespace (c : Char) : Bool :=
  let n := c.toNat
  (9 ≤ n && n ≤ 13) || n == 0x20 || n == 0x85 || n == 0xA0 || n == 0x1680 ||
    (0x2000 ≤ n && n ≤ 0x200A) || n == 0x2028 || n == 0x2029 || n == 0x202F ||
    n == 0x205F || n == 0x3000

def trimStart (s : Str) : Str := s.dropWhile isWhitespace

def trimEndMatches (p : Char → Bool) (s : Str) : Str := s.rdropWhile p

@[grind] def trim (s : Str) : Str := trimEndMatches isWhitespace (trimStart s)

@[grind] def startsWith (s p : Str) : Bool := p.isPrefixOf s

def endsWith (s p : Str) : Bool := p.isSuffixOf s

@[grind] def stripPrefix (s p : Str) : Option Str :=
  if startsWith s p then some (s.drop p.length) else none

def stripSuffix (s p : Str) : Option Str :=
  if endsWith s p then some (s.take (s.length - p.length)) else none

/-- `words.join(" ")`. -/
def joinWords (words : List Str) : Str := [' '].intercalate words

/-- `s.rsplit(['/', '\\']).next()`: what follows the last separator. -/
def baseName (s : Str) : Str :=
  (s.reverse.takeWhile fun c => c != '/' && c != '\\').reverse

def toAsciiLowercase (s : Str) : Str := s.map Char.toLower

/-- `s.replace(a, b)` for single characters. -/
def replaceChar (a b : Char) (s : Str) : Str := s.map fun c => if c == a then b else c

@[grind] def splitOnChar (sep : Char) : Str → List Str
  | [] => [[]]
  | c :: s =>
    if c == sep then [] :: splitOnChar sep s
    else
      match splitOnChar sep s with
      | [] => [[c]]
      | piece :: pieces => (c :: piece) :: pieces

/-! ## Blank texts -/

theorem trim_eq_nil_iff {s : Str} : trim s = [] ↔ ∀ c ∈ s, isWhitespace c = true := by
  rw [trim, trimEndMatches, List.rdropWhile_eq_nil_iff, trimStart]
  constructor
  · intro h c hc
    rw [← List.takeWhile_append_dropWhile (p := isWhitespace) (l := s), List.mem_append] at hc
    rcases hc with hc | hc
    · exact List.mem_takeWhile_imp hc
    · exact h c hc
  · intro h c hc
    exact h c (List.dropWhile_subset _ hc)

theorem trim_append_of_left {x : Str} (h : trim x = []) (y : Str) : trim (x ++ y) = trim y := by
  rw [trim_eq_nil_iff] at h
  rw [trim, trimStart, List.dropWhile_append_of_pos h]
  rfl

theorem trim_append_of_right (x : Str) {y : Str} (h : trim y = []) : trim (x ++ y) = trim x := by
  by_cases hx : trim x = []
  · rw [trim_append_of_left hx, h, hx]
  · rw [trim_eq_nil_iff] at h
    have hne : x.dropWhile isWhitespace ≠ [] := by
      intro hnil
      exact hx (by rw [trim, trimStart, hnil]; rfl)
    have hstart : trimStart (x ++ y) = trimStart x ++ y := by
      rw [trimStart, trimStart, List.dropWhile_append, if_neg (by simpa using hne)]
    have hrev : ∀ c ∈ y.reverse, isWhitespace c = true := fun c hc => h c (List.mem_reverse.1 hc)
    rw [trim, hstart, trim, trimEndMatches, trimEndMatches, List.rdropWhile, List.reverse_append,
      List.dropWhile_append_of_pos hrev]
    rfl

theorem trim_append_eq_nil_iff {x y : Str} : trim (x ++ y) = [] ↔ trim x = [] ∧ trim y = [] := by
  simp only [trim_eq_nil_iff, List.mem_append]
  exact ⟨fun h => ⟨fun c hc => h c (.inl hc), fun c hc => h c (.inr hc)⟩,
    fun h c hc => hc.elim (h.1 c) (h.2 c)⟩

end GrokBuild.Text
