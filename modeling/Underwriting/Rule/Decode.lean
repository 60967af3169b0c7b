import Underwriting.Json.Library
import Underwriting.Number.Binary64
import Underwriting.Rule.Basic

/-! # Reading rules from values

A document is checked from the outside in and from left to right, and the first fault is
reported with its place. Members that no rule uses are ignored. In an object, `op`
together with `conditions` makes a group, whatever else it holds; `field` together with
`operator` makes a condition.
-/
namespace Underwriting

inductive Branch where
  | thenBranch | elseBranch
  deriving DecidableEq, Repr

def Branch.key : Branch → String
  | .thenBranch => "then"
  | .elseBranch => "else"

inductive Location where
  | document
  /-- An entry of the condition tree, by the indices that lead to it from its root. -/
  | condition (path : List Nat)
  | actions (branch : Branch)
  | action (branch : Branch) (index : Nat)
  deriving DecidableEq, Repr

namespace Location

def root : Location := .condition []

def entry (index : Nat) : Location → Location
  | .condition path => .condition (path ++ [index])
  | other => other

def text : Location → String
  | .document => "logic"
  | .condition path =>
    path.foldl (fun s i => s ++ ".conditions[" ++ toString i ++ "]") "if"
  | .actions branch => branch.key
  | .action branch index => branch.key ++ "[" ++ toString index ++ "]"

end Location

/-- The largest number of groups inside one another. -/
def maxGroupDepth : Nat := 8

inductive Fault where
  | notAnObject (found : Value.Kind)
  | missing (key : String)
  | notAString (key : String)
  | notAnInteger (key : String)
  | notABoolean (key : String)
  | notAList (key : String)
  | notActions
  | unknownWord (e : UnknownWord)
  | missingValue (operator : Operator)
  | badRange
  | neitherConditionNorGroup
  | nestedTooDeep
  deriving DecidableEq, Repr

def Fault.message : Fault → String
  | .notAnObject found => "expected an object, got " ++ found.name
  | .missing key => "missing required field '" ++ key ++ "'"
  | .notAString key => "'" ++ key ++ "' must be a string"
  | .notAnInteger key => "'" ++ key ++ "' must be an integer"
  | .notABoolean key => "'" ++ key ++ "' must be a boolean"
  | .notAList key => "'" ++ key ++ "' must be a list"
  | .notActions => "must be a list of actions"
  | .unknownWord e => e.message
  | .missingValue operator =>
    "operator '" ++ Vocabulary.spelling operator ++ "' requires a 'value'"
  | .badRange => "operator 'between' requires a 2-element [low, high] value"
  | .neitherConditionNorGroup =>
    "entry must be a condition (field + operator) or a group (op + conditions)"
  | .nestedTooDeep =>
    "condition groups nest deeper than " ++ toString maxGroupDepth ++ " levels"

/-! ## Members of one object -/

namespace Members

def expect (v : Value) : Except Fault Members :=
  match v with
  | .object members => .ok members
  | other => .error (.notAnObject other.kind)

def required (ms : Members) (key : String) : Except Fault Value :=
  match ms.get? key with
  | some v => .ok v
  | none => .error (.missing key)

def string (ms : Members) (key : String) : Except Fault String :=
  match ms.get? key with
  | some (.string s) => .ok s
  | some _ => .error (.notAString key)
  | none => .error (.missing key)

def optionalString (ms : Members) (key : String) : Except Fault (Option String) :=
  match ms.get? key with
  | none => .ok none
  | some .null => .ok none
  | some (.string s) => .ok (some s)
  | some _ => .error (.notAString key)

def word {α : Type} [Vocabulary α] (ms : Members) (key : String) : Except Fault α :=
  match ms.string key with
  | .error e => .error e
  | .ok text =>
    match Vocabulary.read text with
    | .ok w => .ok w
    | .error e => .error (.unknownWord e)

/-- A word that may be absent, but not null. -/
def optionalWord {α : Type} [Vocabulary α] (ms : Members) (key : String) :
    Except Fault (Option α) :=
  if ms.contains key then (ms.word key).map some else .ok none

/-- An integer that may be absent, but not null. -/
def integer (ms : Members) (key : String) (default : Int32) : Except Fault Int32 :=
  match ms.get? key with
  | none => .ok default
  | some (.number x) =>
    match Binary64.toInt32? x with
    | some n => .ok n
    | none => .error (.notAnInteger key)
  | some _ => .error (.notAnInteger key)

/-- A truth value that may be absent, but not null. -/
def boolean (ms : Members) (key : String) (default : Bool) : Except Fault Bool :=
  match ms.get? key with
  | none => .ok default
  | some (.bool b) => .ok b
  | some _ => .error (.notABoolean key)

def list (ms : Members) (key : String) : Except Fault (List Value) :=
  match ms.get? key with
  | none => .error (.missing key)
  | some (.list items) => .ok items
  | some _ => .error (.notAList key)

end Members

def Operator.checkValue (operator : Operator) (value : Option Value) : Except Fault Unit :=
  if operator.requiresValue && value.isNone then .error (.missingValue operator)
  else if operator = .between then
    match value with
    | some (.list [_, _]) => .ok ()
    | _ => .error .badRange
  else .ok ()

def Condition.ofMembers (ms : Members) : Except Fault Condition := do
  let field ← ms.string "field"
  let operator : Operator ← ms.word "operator"
  let value := ms.get? "value"
  let valueType ← ms.optionalWord "valueType"
  let description ← ms.optionalString "description"
  operator.checkValue value
  return ⟨field, operator, value, valueType, description.getD ""⟩

def Action.ofMembers (ms : Members) : Except Fault Action := do
  let kind ← ms.word "type"
  let target ← ms.optionalString "target"
  let adjustment ← ms.optionalWord "operator"
  let value := ms.get? "value"
  let message ← ms.optionalString "message"
  let severity ← ms.optionalWord "severity"
  let description ← ms.optionalString "description"
  return ⟨kind, target.getD "", adjustment, value, message, severity, description.getD ""⟩

/-! ## Documents -/

structure DecodeError where
  location : Location
  fault : Fault
  deriving DecidableEq, Repr

def DecodeError.message (e : DecodeError) : String :=
  "[RULE LOGIC] " ++ e.location.text ++ ": " ++ e.fault.message

def Location.check {α : Type} (location : Location) (r : Except Fault α) :
    Except DecodeError α :=
  match r with
  | .ok a => .ok a
  | .error fault => .error ⟨location, fault⟩

def readEach {α ε : Type} (read : Nat → Value → Except ε α) :
    Nat → List Value → Except ε (List α)
  | _, [] => .ok []
  | i, v :: vs =>
    match read i v with
    | .error e => .error e
    | .ok a =>
      match readEach read (i + 1) vs with
      | .error e => .error e
      | .ok as => .ok (a :: as)

/-- What an object in a group is, by the keys it has. -/
inductive Entry.Shape where
  | condition | group
  deriving DecidableEq, Repr

def Entry.Shape.ofMembers (ms : Members) : Except Fault Entry.Shape :=
  if ms.contains "op" && ms.contains "conditions" then .ok .group
  else if ms.contains "field" && ms.contains "operator" then .ok .condition
  else .error .neitherConditionNorGroup

/-- Reads an entry of a group, given how to read nested groups. -/
def Entry.ofValue (nested : Location → Value → Except DecodeError ConditionGroup)
    (location : Location) (v : Value) : Except DecodeError Entry := do
  let ms ← location.check (Members.expect v)
  match ← location.check (Shape.ofMembers ms) with
  | .group => return (← nested location v).toEntry
  | .condition => return .condition (← location.check (Condition.ofMembers ms))

/-- Reads a group in which groups may nest this many levels deep, itself included. -/
def ConditionGroup.ofValue : Nat → Location → Value → Except DecodeError ConditionGroup
  | 0, location, _ => .error ⟨location, .nestedTooDeep⟩
  | levels + 1, location, v => do
    let ms ← location.check (Members.expect v)
    let connective ← location.check (ms.word "op")
    let items ← location.check (ms.list "conditions")
    let entries ←
      readEach (fun i => Entry.ofValue (ConditionGroup.ofValue levels) (location.entry i)) 0 items
    return ⟨connective, entries⟩

def Action.ofValue (location : Location) (v : Value) : Except DecodeError Action :=
  location.check (Members.expect v >>= Action.ofMembers)

def actionsOfValue (branch : Branch) (v : Value) : Except DecodeError (List Action) :=
  match v with
  | .list items => readEach (fun i => Action.ofValue (.action branch i)) 0 items
  | _ => .error ⟨.actions branch, .notActions⟩

/-- Actions that may be absent or null. -/
def optionalActions (branch : Branch) (v : Option Value) :
    Except DecodeError (Option (List Action)) :=
  match v with
  | none => .ok none
  | some .null => .ok none
  | some v => (actionsOfValue branch v).map some

def Logic.ofValue (v : Value) : Except DecodeError Logic := do
  let ms ← Location.document.check (Members.expect v)
  let version ← Location.document.check (ms.integer "version" 1)
  let tree ← Location.document.check (ms.required "if")
  let condition ← ConditionGroup.ofValue maxGroupDepth .root tree
  let actions ← Location.document.check (ms.required "then")
  let thenActions ← actionsOfValue .thenBranch actions
  let elseActions ← optionalActions .elseBranch (ms.get? "else")
  return ⟨version, condition, thenActions, elseActions⟩

/-! ## Texts -/

inductive Logic.ReadError where
  | json (e : Json.Error)
  | decode (e : DecodeError)
  deriving DecidableEq, Repr

def Logic.ReadError.message : Logic.ReadError → String
  | .json e => "[RULE LOGIC] " ++ e.message
  | .decode e => e.message

def Logic.ofJson (json : Json.Library) (text : String) : Except Logic.ReadError Logic :=
  match json.parse text with
  | .error e => .error (.json e)
  | .ok v => (Logic.ofValue v).mapError .decode

end Underwriting
