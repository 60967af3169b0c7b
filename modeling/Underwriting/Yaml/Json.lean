import Underwriting.Json.Strict
import Underwriting.Yaml.Node

/-! # JSON documents as YAML trees

JSON text is YAML text as well. Its tree has quoted scalars for strings and keys, and
plain scalars for numbers and truth values.
-/
namespace Underwriting.Yaml.Node

def ofNumber (x : Float) : Node :=
  match Json.numberText? x with
  | some cs => plain (String.ofList cs)
  | none => .null

mutual
def ofValue : Value → Node
  | .unset => .null
  | .null => .null
  | .bool b => plain (if b then "true" else "false")
  | .number x => ofNumber x
  | .string s => quoted s
  | .list items => .sequence (ofItems items)
  | .object members => .map (ofMembers members)

def ofItems : List Value → List Node
  | [] => []
  | v :: vs => ofValue v :: ofItems vs

def ofMembers : List (String × Value) → List (Node × Node)
  | [] => []
  | (key, v) :: ms => (quoted key, ofValue v) :: ofMembers ms
end

def ofJson (text : String) : Option Node :=
  match Json.strict.parse text with
  | .ok v => some (ofValue v)
  | .error _ => none

end Underwriting.Yaml.Node
