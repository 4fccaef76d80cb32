import GrokBuild.Text.Utf8
import Mathlib.Data.UInt

/-!
# The lexical bound on content

Before a row goes to the JSON parser its bytes are scanned for the member `c`. An index or a slice
out of bounds and a depth below zero are panics here, and a loop that takes more rounds than there
are bytes is one that does not end.
-/

namespace GrokBuild.AttemptStore

open Text

inductive CodecError where
  | invalid (what : String)
  | limit (field : String) (actual max : ℕ)
deriving DecidableEq

/-- How a scan ends without a result. -/
inductive Halt (ε : Type) where
  | error (e : ε)
  | panic
  | endless
deriving DecidableEq

abbrev Scan (ε α : Type) := Except (Halt ε) α

/-- `ok_or`. -/
def okOr {α : Type} (e : CodecError) : Scan Unit α → Scan CodecError α
  | .ok a => .ok a
  | .error (.error _) => .error (.error e)
  | .error .panic => .error .panic
  | .error .endless => .error .endless

abbrev quote : UInt8 := 0x22
abbrev backslash : UInt8 := 0x5c
abbrev comma : UInt8 := 0x2c
abbrev colon : UInt8 := 0x3a
abbrev openBrace : UInt8 := 0x7b
abbrev closeBrace : UInt8 := 0x7d
abbrev openBracket : UInt8 := 0x5b
abbrev closeBracket : UInt8 := 0x5d
abbrev letterC : UInt8 := 0x63
abbrev letterU : UInt8 := 0x75

variable {ε : Type}

/-- `bytes[i]`. -/
def byteAt (bytes : Bytes) (i : ℕ) : Scan ε UInt8 :=
  match bytes[i]? with
  | some b => .ok b
  | none => .error .panic

/-- `&bytes[a..b]`. -/
def range (bytes : Bytes) (a b : ℕ) : Scan ε Bytes :=
  if a ≤ b ∧ b ≤ bytes.length then .ok ((bytes.take b).drop a) else .error .panic

def stripBytes (bytes start : Bytes) : Option Bytes :=
  if start <+: bytes then some (bytes.drop start.length) else none

/-- `strip_suffix` of one byte. -/
def stripLast (bytes : Bytes) (last : UInt8) : Option Bytes :=
  if bytes.getLast? = some last then some bytes.dropLast else none

def isBlank (b : UInt8) : Bool := b == 0x20 || b == 0x09

def trimStart (bytes : Bytes) : Bytes := bytes.dropWhile isBlank

/-! ## Strings -/

def jsonStringLoop : ℕ → Bytes → ℕ → Scan Unit (Bytes × Bytes)
  | 0, _, _ => .error .endless
  | fuel + 1, rest, index =>
    if index < rest.length then do
      let byte ← byteAt rest index
      if byte = quote then
        let interior ← range rest 0 index
        let after ← range rest (index + 1) rest.length
        pure (interior, after)
      else if byte = backslash then
        if rest.length ≤ index + 1 then .error (.error ())
        else
          let escape ← byteAt rest (index + 1)
          if escape = letterU then jsonStringLoop fuel rest (index + 1 + 4 + 1)
          else jsonStringLoop fuel rest (index + 1 + 1)
      else if byte < 0x20 then .error (.error ())
      else jsonStringLoop fuel rest (index + 1)
    else .error (.error ())

def jsonString (input : Bytes) : Scan Unit (Bytes × Bytes) :=
  match stripBytes input [quote] with
  | some rest => jsonStringLoop (rest.length + 1) rest 0
  | none => .error (.error ())

def hexDigit (b : UInt8) : Option ℕ :=
  if 0x30 ≤ b ∧ b ≤ 0x39 then some (b.toNat - 0x30)
  else if 0x61 ≤ b ∧ b ≤ 0x66 then some (b.toNat - 0x61 + 10)
  else if 0x41 ≤ b ∧ b ≤ 0x46 then some (b.toNat - 0x41 + 10)
  else none

/-- Four digits stay within 16 bits. -/
def hexValue (hex : Bytes) : Option ℕ :=
  hex.foldlM (fun value b => (hexDigit b).map (value * 16 + ·)) 0

/-- The byte that a short escape stands for. -/
def shortEscape (b : UInt8) : Option UInt8 :=
  if b = 0x22 ∨ b = 0x5c ∨ b = 0x2f then some b
  else if b = 0x62 then some 0x08
  else if b = 0x66 then some 0x0c
  else if b = 0x6e then some 0x0a
  else if b = 0x72 then some 0x0d
  else if b = 0x74 then some 0x09
  else none

def agentTextField : CodecError := .invalid "agent text field"

def agentTextBase64url : CodecError := .invalid "agent text base64url"

/-- The byte at an index of a key with how many bytes spell it; nothing if it is above ASCII. -/
def keyByte (key : Bytes) (index : ℕ) : Scan CodecError (Option (UInt8 × ℕ)) := do
  let byte ← byteAt key index
  if byte = backslash then
    match key[index + 1]? with
    | none => .error (.error agentTextField)
    | some escape =>
      match shortEscape escape with
      | some mapped => pure (some (mapped, 2))
      | none =>
        if escape = letterU ∧ index + 6 ≤ key.length then
          let hex ← range key (index + 2) (index + 6)
          match hexValue hex with
          | none => .error (.error agentTextField)
          | some value =>
            if 0x7f < value then pure none else pure (some (UInt8.ofNat value, 6))
        else .error (.error agentTextField)
  else if 0x20 ≤ byte ∧ byte ≠ quote then pure (some (byte, 1))
  else .error (.error agentTextField)

/-- `decoded` holds at most one byte. -/
def keyIsCLoop : ℕ → Bytes → Option UInt8 → ℕ → Scan CodecError Bool
  | 0, _, _, _ => .error .endless
  | fuel + 1, key, decoded, index =>
    if index < key.length then do
      match ← keyByte key index with
      | none => pure false
      | some (byte, consumed) =>
        if decoded.isSome then pure false
        else keyIsCLoop fuel key (some byte) (index + consumed)
    else pure (decoded == some letterC)

def keyIsC (key : Bytes) : Scan CodecError Bool := keyIsCLoop (key.length + 1) key none 0

/-! ## Values -/

def jsonContainerLoop : ℕ → Bytes → UInt8 → UInt8 → ℕ → ℕ → Scan Unit (Bytes × Bytes)
  | 0, _, _, _, _, _ => .error .endless
  | fuel + 1, input, opening, closing, depth, index =>
    if index < input.length then do
      let byte ← byteAt input index
      if byte = opening then
        jsonContainerLoop fuel input opening closing (depth + 1) (index + 1)
      else if byte = closing then
        if depth = 0 then .error .panic
        else if depth - 1 = 0 then
          let value ← range input 0 (index + 1)
          let after ← range input (index + 1) input.length
          pure (value, after)
        else jsonContainerLoop fuel input opening closing (depth - 1) (index + 1)
      else if byte = quote then
        let string ← range input index input.length
        let (_, rest) ← jsonString string
        if rest.length ≤ input.length then
          jsonContainerLoop fuel input opening closing depth (input.length - rest.length)
        else .error .panic
      else jsonContainerLoop fuel input opening closing depth (index + 1)
    else .error (.error ())

def jsonContainer (input : Bytes) (opening closing : UInt8) : Scan Unit (Bytes × Bytes) :=
  if input.head? = some opening then
    jsonContainerLoop (input.length + 1) input opening closing 0 0
  else .error (.error ())

def isNumberByte (b : UInt8) : Bool :=
  (0x30 ≤ b && b ≤ 0x39) || b == 0x2d || b == 0x2b || b == 0x2e || b == 0x65 || b == 0x45

def trueWord : Bytes := [0x74, 0x72, 0x75, 0x65]

def falseWord : Bytes := [0x66, 0x61, 0x6c, 0x73, 0x65]

def nullWord : Bytes := [0x6e, 0x75, 0x6c, 0x6c]

def jsonValue (input : Bytes) : Scan Unit (Bytes × Bytes) :=
  match input.head? with
  | none => .error (.error ())
  | some first =>
    if first = quote then do
      let (interior, rest) ← jsonString input
      let value ← range input 0 (interior.length + 2)
      pure (value, rest)
    else if first = openBrace then jsonContainer input openBrace closeBrace
    else if first = openBracket then jsonContainer input openBracket closeBracket
    else if trueWord <+: input then pure (input.take 4, input.drop 4)
    else if falseWord <+: input then pure (input.take 5, input.drop 5)
    else if nullWord <+: input then pure (input.take 4, input.drop 4)
    else if first = 0x2d ∨ (0x30 ≤ first ∧ first ≤ 0x39) then
      pure (input.takeWhile isNumberByte, input.dropWhile isNumberByte)
    else .error (.error ())

/-! ## The check -/

def maxMessageRawBytes : ℕ := 32 * 1024

def maxContentEncodedBytes : ℕ := (maxMessageRawBytes * 4 + 3 - 1) / 3

def isBase64url (b : UInt8) : Bool :=
  (0x30 ≤ b && b ≤ 0x39) || (0x41 ≤ b && b ≤ 0x5a) || (0x61 ≤ b && b ≤ 0x7a) || b == 0x2d ||
    b == 0x5f

def boundContentString (value : Bytes) : Scan CodecError Unit :=
  match (stripBytes value [quote]).bind (stripLast · quote) with
  | none => .error (.error agentTextField)
  | some encoded =>
    if backslash ∈ encoded then .error (.error agentTextBase64url)
    else if maxContentEncodedBytes < encoded.length then
      .error (.error (.limit "encoded agent text" encoded.length maxContentEncodedBytes))
    else if encoded.all isBase64url then pure ()
    else .error (.error agentTextBase64url)

/-- A member with the bytes behind it. -/
def readMember (fields : Bytes) : Scan CodecError (Bytes × Bytes × Bytes) := do
  let (key, afterKey) ← okOr agentTextField (jsonString (trimStart fields))
  match stripBytes (trimStart afterKey) [colon] with
  | none => .error (.error agentTextField)
  | some afterColon =>
    let (value, afterValue) ← okOr agentTextField (jsonValue (trimStart afterColon))
    pure (key, value, afterValue)

/-- Whether a content was seen after the member. -/
def noteContent (key value : Bytes) (seenContent : Bool) : Scan CodecError Bool := do
  if ← keyIsC key then
    boundContentString value
    if seenContent then .error (.error agentTextField) else pure true
  else pure seenContent

def checkFields : ℕ → Bytes → Bool → Scan CodecError Unit
  | 0, _, _ => .error .endless
  | fuel + 1, fields, seenContent =>
    if fields = [] then
      if seenContent then pure () else .error (.error agentTextField)
    else do
      let (key, value, afterValue) ← readMember fields
      let seenContent ← noteContent key value seenContent
      let rest := trimStart afterValue
      if rest = [] then
        if seenContent then pure () else .error (.error agentTextField)
      else
        match stripBytes rest [comma] with
        | none => .error (.error agentTextField)
        | some fields => checkFields fuel fields seenContent

def checkContentEncodedLen (body : Bytes) : Scan CodecError Unit :=
  match (stripBytes body [openBrace]).bind (stripLast · closeBrace) with
  | none => .error (.error (.invalid "record object"))
  | some fields => checkFields (fields.length + 1) fields false

end GrokBuild.AttemptStore
