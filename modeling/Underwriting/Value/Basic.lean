/-! # Values

Operands, action values and contexts are trees of tagged values. An object keeps its
members in the order in which their keys were first written; the order never decides
anything.
-/
namespace Underwriting

inductive Value where
  /-- A value that was never given a kind: neither null nor absent. -/
  | unset
  | null
  | bool (b : Bool)
  | number (x : Float)
  | string (s : String)
  | list (items : List Value)
  | object (members : List (String × Value))
  deriving Inhabited

/-- The members of an object. A context is such a list of members. -/
abbrev Members := List (String × Value)

namespace Members

def get? (members : Members) (key : String) : Option Value :=
  match members with
  | [] => none
  | (k, v) :: rest => if k = key then some v else get? rest key

def contains (members : Members) (key : String) : Bool := (get? members key).isSome

/-- Writes a member: a new key goes to the end, a known one keeps its place. -/
def insert (members : Members) (key : String) (value : Value) : Members :=
  match members with
  | [] => [(key, value)]
  | (k, v) :: rest =>
    if k = key then (k, value) :: rest else (k, v) :: insert rest key value

def ofList (entries : List (String × Value)) : Members :=
  entries.foldl (fun members e => insert members e.1 e.2) []

theorem get?_insert_self (members : Members) (key : String) (value : Value) :
    (members.insert key value).get? key = some value := by
  induction members with
  | nil => simp [insert, get?]
  | cons e rest ih =>
    by_cases h : e.1 = key
    · simp [insert, get?, h]
    · simp [insert, get?, h, ih]

theorem get?_insert_of_ne (members : Members) {key other : String} (value : Value)
    (h : other ≠ key) : (members.insert key value).get? other = members.get? other := by
  induction members with
  | nil => simp [insert, get?, Ne.symm h]
  | cons e rest ih =>
    by_cases hk : e.1 = key
    · simp [insert, get?, hk, Ne.symm h]
    · simp [insert, get?, hk, ih]

end Members

namespace Value

inductive Kind where
  | unset | null | bool | number | string | list | object
  deriving DecidableEq, Repr

def kind : Value → Kind
  | unset => .unset
  | null => .null
  | bool _ => .bool
  | number _ => .number
  | string _ => .string
  | list _ => .list
  | object _ => .object

def Kind.name : Kind → String
  | .unset => "unset"
  | .null => "null"
  | .bool => "bool"
  | .number => "number"
  | .string => "string"
  | .list => "list"
  | .object => "object"

end Value
end Underwriting
