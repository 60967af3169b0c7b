import Underwriting.Number.Integer
import Underwriting.Value.Basic

/-! # Contexts and dotted paths

A context is the members of an object. A dotted path names a value in it: its segments,
the texts between its dots, are keys of objects and indices of lists in turn. Every text
is a path, and empty segments are keys like any others.
-/
namespace Underwriting

namespace Path

/-- The texts between the dots. There is one more of them than there are dots. -/
def split : List Char → List (List Char)
  | [] => [[]]
  | c :: rest =>
    if c = '.' then [] :: split rest
    else
      match split rest with
      | [] => [[c]]
      | segment :: segments => (c :: segment) :: segments

def segments (path : String) : List String := (split path.toList).map String.ofList

/-- Indices have at most this many digits. -/
def maxIndexDigits : Nat := 9

/-- The list index that a segment writes: decimal digits without needless zeros. -/
def index? (segment : String) : Option Nat :=
  let digits := segment.toList
  if digits.isEmpty || digits.length > maxIndexDigits then none
  else if digits.head? = some '0' ∧ digits.length > 1 then none
  else if digits.all Char.isDigit then some (Integer.ofDigits digits)
  else none

end Path

namespace Value

def step (v : Value) (segment : String) : Option Value :=
  match v with
  | object members => Members.get? members segment
  | list items => (Path.index? segment).bind fun i => items[i]?
  | _ => none

def follow : Value → List String → Option Value
  | v, [] => some v
  | v, segment :: segments => (v.step segment).bind fun w => follow w segments

def membersOrEmpty : Option Value → Members
  | some (object members) => members
  | _ => []

end Value

namespace Members

def resolve (context : Members) (path : String) : Option Value :=
  (Value.object context).follow (Path.segments path)

/-- Writes a value where segments lead to. Objects are made on the way; whatever is not
an object gives way to one. -/
def writeAt : Members → List String → Value → Members
  | members, [], _ => members
  | members, [segment], v => members.insert segment v
  | members, segment :: segments, v =>
    members.insert segment
      (.object (writeAt (Value.membersOrEmpty (members.get? segment)) segments v))

def write (members : Members) (path : String) (v : Value) : Members :=
  members.writeAt (Path.segments path) v

end Members

def contextNamespaces : List String :=
  ["risk", "policy", "coverage", "pricing", "location", "insured", "custom"]

def isContextNamespace (name : String) : Bool := contextNamespaces.contains name

/-- Whether a path goes on below one of these sections. -/
def Path.isWritable (path : String) : Bool :=
  match Path.segments path with
  | [] => false
  | name :: rest => isContextNamespace name && !rest.isEmpty && rest != [""]

end Underwriting
