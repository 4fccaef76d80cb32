import GrokBuild.Text.Str

/-!
# JSON values
-/

namespace GrokBuild.Text

/-- `serde_json::Value`. -/
inductive Value where
  | null
  | bool (b : Bool)
  | number (text : Str)
  | string (s : Str)
  | array (items : List Value)
  | object (fields : List (Str × Value))

namespace Value

def get (v : Value) (key : Str) : Option Value :=
  match v with
  | .object fields => (fields.find? fun field => field.1 = key).map (·.2)
  | _ => none

def asStr : Value → Option Str
  | .string s => some s
  | _ => none

end Value

end GrokBuild.Text
