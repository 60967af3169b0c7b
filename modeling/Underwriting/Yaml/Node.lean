import Underwriting.Text
import Underwriting.Value.Basic

/-! # YAML documents as trees

The tree of a document and the value that it stands for. What is under a key and what a
scalar converts to is for a library to say. A scalar with the tag of quoted ones is always
a text; any other scalar is null, a truth value or a number if it reads as one.
-/
namespace Underwriting.Yaml

inductive Node where
  /-- A node that a lookup did not find, or an empty document. -/
  | undefined
  | null
  | scalar (text tag : String)
  | sequence (items : List Node)
  | map (entries : List (Node × Node))

structure Error where
  detail : String
  deriving DecidableEq, Repr

def Error.message (e : Error) : String := Text.untilNul e.detail

structure Library where
  /-- The node under a key, if it is defined. -/
  lookup : String → Node → Except Error (Option Node)
  string : Node → Except Error String
  integer : Node → Except Error Int32
  boolean : Node → Except Error Bool
  /-- The number that the text of a scalar reads as. -/
  number? : String → Option Float

def quotedTag : String := "!"

def plainTag : String := "?"

def nullWords : List String := ["~", "null", "Null", "NULL"]

def trueWords : List String := ["true", "True", "TRUE"]

def falseWords : List String := ["false", "False", "FALSE"]

namespace Node

def plain (text : String) : Node := .scalar text plainTag

def quoted (text : String) : Node := .scalar text quotedTag

def isMap : Node → Bool
  | map _ => true
  | _ => false

def scalarValue (yaml : Library) (text tag : String) : Except Error Value :=
  if tag = quotedTag then .ok (.string text)
  else if nullWords.contains text then .ok .null
  else if (trueWords ++ falseWords).contains text then
    (yaml.boolean (.scalar text tag)).map .bool
  else
    match yaml.number? text with
    | some x => .ok (.number x)
    | none => .ok (.string text)

mutual
/-- The value that a tree stands for. Keys must be texts; of equal keys the last one
counts. -/
def toValue (yaml : Library) : Node → Except Error Value
  | undefined => .ok .null
  | null => .ok .null
  | scalar text tag => scalarValue yaml text tag
  | sequence items => (itemValues yaml items).map .list
  | map entries => (entryValues yaml [] entries).map .object

def itemValues (yaml : Library) : List Node → Except Error (List Value)
  | [] => .ok []
  | n :: ns =>
    match toValue yaml n, itemValues yaml ns with
    | .ok v, .ok vs => .ok (v :: vs)
    | .error e, _ => .error e
    | _, .error e => .error e

def entryValues (yaml : Library) (members : Members) :
    List (Node × Node) → Except Error Members
  | [] => .ok members
  | (key, n) :: rest =>
    match toValue yaml n, yaml.string key with
    | .ok v, .ok k => entryValues yaml (members.insert k v) rest
    | .error e, _ => .error e
    | _, .error e => .error e
end

end Node
end Underwriting.Yaml
