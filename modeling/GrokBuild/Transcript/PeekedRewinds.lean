import Mathlib
import GrokBuild.Transcript.ForkCopy

/-!
# Rewinds of lines and of updates

`session/storage/mod.rs` filters rewinds of raw lines, which it only peeks at, and of updates that
are read in full. A peek borrows its strings, and a field that it cannot take fails the whole peek.
-/

namespace GrokBuild.Transcript.Peeked

open GrokBuild.Text

section Wire

/-- A value of JSON as it stands in a text: a string with whether it is written with escapes, a
number as 64 unsigned bits where it is one. -/
inductive Wire where
  | null
  | bool (b : Bool)
  | number (unsigned : Option ℕ)
  | string (text : Str) (escaped : Bool := false)
  | array (items : List Wire)
  | object (fields : List (Str × Wire))

mutual

/-- The strings of a value that are written without escapes. -/
def Wire.verbatim : Wire → List Str
  | .string text escaped => if escaped then [] else [text]
  | .array items => verbatimItems items
  | .object fields => verbatimFields fields
  | _ => []

def verbatimItems : List Wire → List Str
  | [] => []
  | item :: items => item.verbatim ++ verbatimItems items

def verbatimFields : List (Str × Wire) → List Str
  | [] => []
  | (_, value) :: fields => value.verbatim ++ verbatimFields fields

end

def Wire.asU64 : Wire → Option ℕ
  | .number unsigned => unsigned
  | _ => none

def Wire.asBool : Wire → Option Bool
  | .bool b => some b
  | _ => none

/-- A field of a derived reader; one that comes twice is an error. -/
def field (fields : List (Str × Wire)) (name : Str) : Option (Option Wire) :=
  match fields.filter (·.1 = name) with
  | [] => some none
  | [found] => some (some found.2)
  | _ => none

/-- What a derived reader finds for two fields that it knows: an object has them by name, an array
by position. -/
def twoFields (value : Wire) (first second : Str) : Option (Option Wire × Option Wire) :=
  match value with
  | .object fields => (field fields first).bind fun a => (field fields second).map fun b => (a, b)
  | .array items => if items.length ≤ 2 then some (items[0]?, items[1]?) else none
  | _ => none

/-- `Option<&str>`. -/
def borrowedStr : Option Wire → Option (Option Str)
  | none => some none
  | some .null => some none
  | some (.string text false) => some (some text)
  | some _ => none

/-- `Option<u64>`, and `Option<usize>`. -/
def optionalU64 : Option Wire → Option (Option ℕ)
  | none => some none
  | some .null => some none
  | some (.number (some n)) => some (some n)
  | some _ => none

def optionalBool : Option Wire → Option (Option Bool)
  | none => some none
  | some .null => some none
  | some (.bool b) => some (some b)
  | some _ => none

end Wire

section Peeks

def methodField : Str := "method".toList

def paramsField : Str := "params".toList

def updateField : Str := "update".toList

def metaField : Str := "_meta".toList

def sessionUpdateField : Str := "sessionUpdate".toList

def statusField : Str := "status".toList

def targetPromptIndexField : Str := "target_prompt_index".toList

def promptIndexField : Str := "promptIndex".toList

def hostTurnField : Str := "hostTurn".toList

/-- The method of a `RawLinePeek`, and its params unless they are null. -/
def rawLinePeek (value : Wire) : Option (Option Str × Option Wire) :=
  (twoFields value methodField paramsField).bind fun found =>
    (borrowedStr found.1).map fun method =>
      (method, match found.2 with
        | some .null => none
        | params => params)

def rawChunkMetaPeek (value : Wire) : Option ChunkMeta :=
  (twoFields value promptIndexField hostTurnField).bind fun found =>
    (optionalU64 found.1).bind fun promptIndex =>
      (optionalBool found.2).map fun hostTurn => { promptIndex, hostTurn }

/-- `Option<RawChunkMetaPeek>`. -/
def optionalChunkMeta : Option Wire → Option (Option ChunkMeta)
  | none => some none
  | some .null => some none
  | some value => (rawChunkMetaPeek value).map some

/-- The four fields of a `RawUpdatePeek`, of which the tag has to be there. -/
def rawUpdateOf (tag status target chunkMeta : Option Wire) : Option RawUpdatePeek :=
  match tag with
  | some (.string sessionUpdate false) =>
    (borrowedStr status).bind fun status => (optionalU64 target).bind fun targetPromptIndex =>
      (optionalChunkMeta chunkMeta).map fun chunkMeta =>
        { sessionUpdate, status, targetPromptIndex, chunkMeta }
  | _ => none

def rawUpdatePeek : Wire → Option RawUpdatePeek
  | .object fields =>
    (field fields sessionUpdateField).bind fun tag => (field fields statusField).bind fun status =>
      (field fields targetPromptIndexField).bind fun target =>
        (field fields metaField).bind fun chunkMeta => rawUpdateOf tag status target chunkMeta
  | .array items =>
    if items.length ≤ 4 then rawUpdateOf items[0]? items[1]? items[2]? items[3]? else none
  | _ => none

/-- The update of a `RawParamsPeek`. -/
def rawParamsPeek (value : Wire) : Option (Option RawUpdatePeek) :=
  (twoFields value updateField metaField).bind fun found =>
    match found.1 with
    | none => some none
    | some .null => some none
    | some update => (rawUpdatePeek update).map some

/-- The value that is peeked into, and whether it was sent by the method of the extensions. -/
def peekedParams (value : Wire) : Wire × Bool :=
  match rawLinePeek value with
  | some (method, params) => (params.getD value, method = some xaiSessionUpdateMethod)
  | none => (value, false)

def rewindStepForValue (value : Wire) : RewindStep :=
  match (rawParamsPeek (peekedParams value).1).join with
  | none => .other
  | some u =>
    rewindStepForLine { isXai := (peekedParams value).2, tag := u.tag, chunkMeta := u.chunkMeta
                        targetPromptIndex := u.targetPromptIndex }

end Peeks

section Updates

/-- An update of the protocol: of a user chunk its metadata are looked at. -/
inductive AcpUpdate (A : Type) where
  | userMessageChunk (chunkMeta : Option (List (Str × Wire))) (chunk : A)
  | other (update : A)

inductive XaiUpdate (X : Type) where
  | rewindMarker (targetPromptIndex : ℕ) (marker : X)
  | other (update : X)

abbrev Update (A X : Type) := LoadedUpdate (AcpUpdate A) (XaiUpdate X)

/-- `serde_json`, and the full readers of the two notifications. -/
structure TypedReader (A X : Type) where
  read : Str → Option Wire
  acp : Wire → Option (AcpUpdate A)
  xai : Wire → Option (XaiUpdate X)

variable {A X : Type}

/-- The method and the params of a `BorrowedEnvelope`. -/
def borrowedEnvelope (value : Wire) : Option (Option Str × Wire) :=
  (twoFields value methodField paramsField).bind fun found =>
    (borrowedStr found.1).bind fun method => found.2.map fun params => (method, params)

def updateOfValue (reader : TypedReader A X) (value : Wire) : Option (Update A X) :=
  match borrowedEnvelope value with
  | some (method, params) =>
    if method = some xaiSessionUpdateMethod then (reader.xai params).map .xai
    else (reader.acp params).map .acp
  | none => (reader.acp value).map .acp

/-- `SessionUpdateEnvelope::from_str`. -/
def fromStr (reader : TypedReader A X) (line : Str) : Option (Update A X) :=
  (reader.read line).bind (updateOfValue reader)

/-- A map of metadata has the last value of a key. -/
def metaGet (chunkMeta : Option (List (Str × Wire))) (key : Str) : Option Wire :=
  chunkMeta.bind fun fields => (fields.reverse.find? (·.1 = key)).map (·.2)

def acpUserChunkPromptIndex (chunkMeta : Option (List (Str × Wire))) : Option ℕ :=
  (metaGet chunkMeta promptIndexField).bind Wire.asU64

def isHostTurnChunk (chunkMeta : Option (List (Str × Wire))) : Bool :=
  (metaGet chunkMeta hostTurnField).bind Wire.asBool = some true

def rewindStepForUpdate : Update A X → RewindStep
  | .xai (.rewindMarker target _) => .rewind target
  | .acp (.userMessageChunk chunkMeta _) =>
    if isHostTurnChunk chunkMeta then .other else .userChunk (acpUserChunkPromptIndex chunkMeta)
  | _ => .other

def isRewindMarker : Update A X → Bool
  | .xai (.rewindMarker _ _) => true
  | _ => false

def rewindStepForText (reader : TypedReader A X) (line : Str) : RewindStep :=
  match reader.read line with
  | none => .other
  | some value => rewindStepForValue value

def filterRewindUpdates (updates : List (Update A X)) : List (Update A X) :=
  if !updates.any isRewindMarker then updates else filterRewindBy updates rewindStepForUpdate

/-- A notification is an object with an update, and the update one with a tag. -/
def Tagged (value : Wire) (tag : Str) (updateFields : List (Str × Wire)) : Prop :=
  ∃ fields escaped, value = .object fields ∧
    field fields updateField = some (some (.object updateFields)) ∧
    field updateFields sessionUpdateField = some (some (.string tag escaped))

/-- The metadata of a chunk are an object, null or not there. -/
def HasChunkMeta (updateFields : List (Str × Wire)) : Option (List (Str × Wire)) → Prop
  | none => field updateFields metaField = some none ∨
      field updateFields metaField = some (some .null)
  | some chunkMeta => field updateFields metaField = some (some (.object chunkMeta))

/-- The tag of a notification says what it is read as, and `_meta` is what a chunk has. A string
without escapes stands in the text as it is. -/
structure TypedReader.Lawful (reader : TypedReader A X) : Prop where
  verbatim : ∀ line value, reader.read line = some value → ∀ s ∈ value.verbatim, s <:+: line
  userChunk : ∀ value chunkMeta chunk,
    reader.acp value = some (.userMessageChunk chunkMeta chunk) →
      ∃ updateFields, Tagged value userMessageChunkTag updateFields ∧
        HasChunkMeta updateFields chunkMeta
  acpOther : ∀ value update, reader.acp value = some (.other update) →
    ∃ tag updateFields, Tagged value tag updateFields ∧ tag ≠ userMessageChunkTag ∧
      tag ≠ rewindMarkerTag
  marker : ∀ value target marker, reader.xai value = some (.rewindMarker target marker) →
    ∃ updateFields, Tagged value rewindMarkerTag updateFields ∧
      field updateFields targetPromptIndexField = some (some (.number (some target)))
  xaiOther : ∀ value update, reader.xai value = some (.other update) →
    ∃ tag updateFields, Tagged value tag updateFields ∧ tag ≠ rewindMarkerTag

/-- The line is read, and the peek and the full reader take it for the same. -/
def Alike (reader : TypedReader A X) (line : Str) : Prop :=
  ∃ update, fromStr reader line = some update ∧
    rewindStepForText reader line = rewindStepForUpdate update

end Updates

/-! ## What a peek finds -/

section Found

end Found

section Steps

end Steps

section Filters

variable {A X : Type} {reader : TypedReader A X}

theorem filterRewindUpdates_eq (updates : List (Update A X)) :
    filterRewindUpdates updates = filterRewindBy updates rewindStepForUpdate := by
  rw [filterRewindUpdates]
  split
  · next hnone =>
    rw [Bool.not_eq_true', List.any_eq_false] at hnone
    refine (filterRewindBy_eq_self fun update hmem target hstep => hnone update hmem ?_).symm
    rw [rewindStepForUpdate.eq_def] at hstep
    split at hstep
    · rfl
    · split at hstep <;> cases hstep
    · cases hstep
  · rfl

end Filters

/-! ## Peeked and read -/

section Sound

variable {A X : Type} {reader : TypedReader A X}

end Sound

/-! ## A prompt index that is a string -/

section OddIndex

def chunkText : Str := acpLine (chunkParams userMessageChunkTag 'a' [])

end OddIndex

end GrokBuild.Transcript.Peeked
