import Mathlib.Data.Char
import Mathlib.Data.UInt
import Mathlib.Tactic.Common

/-!
# The grammar of JSON texts

What bytes spell a value, with the layout left as it is written. Strings are lists of items, so that
what a string decodes to is read off its items.
-/

namespace GrokBuild.JsonGrammar

abbrev Bytes := List UInt8

/-! ## Strings -/

def hexDigit (b : UInt8) : Option ℕ :=
  if 0x30 ≤ b ∧ b ≤ 0x39 then some (b.toNat - 0x30)
  else if 0x61 ≤ b ∧ b ≤ 0x66 then some (b.toNat - 0x61 + 10)
  else if 0x41 ≤ b ∧ b ≤ 0x46 then some (b.toNat - 0x41 + 10)
  else none

structure HexDigit where
  byte : UInt8
  value : ℕ
  spells : hexDigit byte = some value

/-- The byte that a short escape stands for. -/
def shortEscape (b : UInt8) : Option UInt8 :=
  if b = 0x22 ∨ b = 0x5c ∨ b = 0x2f then some b
  else if b = 0x62 then some 0x08
  else if b = 0x66 then some 0x0c
  else if b = 0x6e then some 0x0a
  else if b = 0x72 then some 0x0d
  else if b = 0x74 then some 0x09
  else none

inductive StringItem where
  | plain (b : UInt8) (h : 0x20 ≤ b ∧ b ≠ 0x22 ∧ b ≠ 0x5c)
  | short (b mapped : UInt8) (h : shortEscape b = some mapped)
  | unicode (d₁ d₂ d₃ d₄ : HexDigit)

def StringItem.text : StringItem → Bytes
  | .plain b _ => [b]
  | .short b _ _ => [0x5c, b]
  | .unicode d₁ d₂ d₃ d₄ => [0x5c, 0x75, d₁.byte, d₂.byte, d₃.byte, d₄.byte]

def itemsText (items : List StringItem) : Bytes := items.flatMap StringItem.text

def stringText (items : List StringItem) : Bytes := 0x22 :: (itemsText items ++ [0x22])

def codeUnit (d₁ d₂ d₃ d₄ : HexDigit) : ℕ :=
  ((d₁.value * 16 + d₂.value) * 16 + d₃.value) * 16 + d₄.value

/-- The bytes of a string. A surrogate stands with the other half of its pair. -/
def decoded : List StringItem → Option Bytes
  | [] => some []
  | .plain b _ :: items => (decoded items).map (b :: ·)
  | .short _ mapped _ :: items => (decoded items).map (mapped :: ·)
  | .unicode d₁ d₂ d₃ d₄ :: .unicode e₁ e₂ e₃ e₄ :: items =>
    let unit := codeUnit d₁ d₂ d₃ d₄
    let low := codeUnit e₁ e₂ e₃ e₄
    if 0xd800 ≤ unit ∧ unit ≤ 0xdbff then
      if 0xdc00 ≤ low ∧ low ≤ 0xdfff then
        (decoded items).map (String.utf8EncodeChar
          (Char.ofNat (0x10000 + (unit - 0xd800) * 0x400 + (low - 0xdc00))) ++ ·)
      else none
    else if 0xdc00 ≤ unit ∧ unit ≤ 0xdfff then none
    else (decoded (.unicode e₁ e₂ e₃ e₄ :: items)).map
      (String.utf8EncodeChar (Char.ofNat unit) ++ ·)
  | .unicode d₁ d₂ d₃ d₄ :: items =>
    let unit := codeUnit d₁ d₂ d₃ d₄
    if 0xd800 ≤ unit ∧ unit ≤ 0xdfff then none
    else (decoded items).map (String.utf8EncodeChar (Char.ofNat unit) ++ ·)

/-! ## Numbers -/

def IsDigit (b : UInt8) : Prop := 0x30 ≤ b ∧ b ≤ 0x39

def IntPart (text : Bytes) : Prop :=
  text = [0x30] ∨ ∃ first digits, text = first :: digits ∧ 0x31 ≤ first ∧ first ≤ 0x39 ∧
    ∀ b ∈ digits, IsDigit b

def FracPart (text : Bytes) : Prop :=
  text = [] ∨ ∃ digits, text = 0x2e :: digits ∧ digits ≠ [] ∧ ∀ b ∈ digits, IsDigit b

def ExpPart (text : Bytes) : Prop :=
  text = [] ∨ ∃ letter sign digits, text = letter :: (sign ++ digits) ∧
    (letter = 0x65 ∨ letter = 0x45) ∧ (sign = [] ∨ sign = [0x2b] ∨ sign = [0x2d]) ∧
      digits ≠ [] ∧ ∀ b ∈ digits, IsDigit b

def IsNumber (text : Bytes) : Prop :=
  ∃ minus int frac exp, text = minus ++ (int ++ (frac ++ exp)) ∧ (minus = [] ∨ minus = [0x2d]) ∧
    IntPart int ∧ FracPart frac ∧ ExpPart exp

/-! ## Values -/

def IsSpace (text : Bytes) : Prop := ∀ b ∈ text, b = 0x20 ∨ b = 0x09 ∨ b = 0x0a ∨ b = 0x0d

def literals : List Bytes :=
  [[0x74, 0x72, 0x75, 0x65], [0x66, 0x61, 0x6c, 0x73, 0x65], [0x6e, 0x75, 0x6c, 0x6c]]

inductive Nonterminal where
  | value
  | elements
  | members

/-- The texts that a nonterminal derives. -/
inductive Derives : Nonterminal → Bytes → Prop
  | literal {word : Bytes} : word ∈ literals → Derives .value word
  | number {text : Bytes} : IsNumber text → Derives .value text
  | string (items : List StringItem) : Derives .value (stringText items)
  | emptyArray {space : Bytes} : IsSpace space → Derives .value (0x5b :: (space ++ [0x5d]))
  | array {text : Bytes} : Derives .elements text → Derives .value (0x5b :: (text ++ [0x5d]))
  | emptyObject {space : Bytes} : IsSpace space → Derives .value (0x7b :: (space ++ [0x7d]))
  | object {text : Bytes} : Derives .members text → Derives .value (0x7b :: (text ++ [0x7d]))
  | element {before value after : Bytes} : IsSpace before → Derives .value value →
      IsSpace after → Derives .elements (before ++ (value ++ after))
  | elements {first rest : Bytes} : Derives .elements first → Derives .elements rest →
      Derives .elements (first ++ 0x2c :: rest)
  | member {before afterKey beforeValue value after : Bytes} (key : List StringItem) :
      IsSpace before → IsSpace afterKey → IsSpace beforeValue → Derives .value value →
      IsSpace after → Derives .members (before ++ (stringText key ++ (afterKey ++ 0x3a ::
        (beforeValue ++ (value ++ after)))))
  | members {first rest : Bytes} : Derives .members first → Derives .members rest →
      Derives .members (first ++ 0x2c :: rest)

/-- A member of an object with its layout. -/
structure Member where
  before : Bytes
  key : List StringItem
  afterKey : Bytes
  beforeValue : Bytes
  value : Bytes
  after : Bytes
  before_space : IsSpace before
  afterKey_space : IsSpace afterKey
  beforeValue_space : IsSpace beforeValue
  isValue : Derives .value value
  after_space : IsSpace after

def Member.text (m : Member) : Bytes :=
  m.before ++ (stringText m.key ++ (m.afterKey ++ 0x3a :: (m.beforeValue ++ (m.value ++ m.after))))

/-- Members with commas between them; blanks alone stand in an object without members. -/
def membersText (space : Bytes) : List Member → Bytes
  | [] => space
  | [m] => m.text
  | m :: members => m.text ++ 0x2c :: membersText space members

def objectText (space : Bytes) (members : List Member) : Bytes :=
  0x7b :: (membersText space members ++ [0x7d])

theorem membersText_cons (space : Bytes) (m : Member) {members : List Member} (h : members ≠ []) :
    membersText space (m :: members) = m.text ++ 0x2c :: membersText space members := by
  cases members with
  | nil => exact absurd rfl h
  | cons m' members => rfl

theorem membersText_append (space : Bytes) {members₁ members₂ : List Member}
    (h₁ : members₁ ≠ []) (h₂ : members₂ ≠ []) :
    membersText space (members₁ ++ members₂) =
      membersText space members₁ ++ 0x2c :: membersText space members₂ := by
  induction members₁ with
  | nil => exact absurd rfl h₁
  | cons m members₁ ih =>
    cases members₁ with
    | nil => exact membersText_cons space m h₂
    | cons next members₁ =>
      have hne : next :: members₁ ≠ [] := List.cons_ne_nil next members₁
      rw [List.cons_append,
        membersText_cons space m (List.append_ne_nil_of_left_ne_nil hne members₂), ih hne,
        membersText_cons space m hne, List.append_assoc, List.cons_append]

end GrokBuild.JsonGrammar
