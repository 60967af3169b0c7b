import Underwriting.Text

/-! # The words of rules

Closed sets of words: the operators, kinds and severities that rules are written with.
Every word has one spelling, and no other text is accepted for it.
-/
namespace Underwriting

class Vocabulary (α : Type) where
  /-- What the words are called in messages. -/
  noun : String
  /-- All words, in the order in which messages list them. -/
  words : List α
  spelling : α → String

structure UnknownWord where
  noun : String
  text : String
  valid : List String
  deriving DecidableEq, Repr

def UnknownWord.message (e : UnknownWord) : String :=
  Text.untilNul
    ("Invalid " ++ e.noun ++ ": '" ++ e.text ++ "'. Valid values: " ++ ", ".intercalate e.valid)

namespace Vocabulary

def read {α : Type} [Vocabulary α] (text : String) : Except UnknownWord α :=
  match (words : List α).find? fun w => spelling w == text with
  | some w => .ok w
  | none => .error ⟨noun α, text, (words : List α).map spelling⟩

end Vocabulary

inductive Operator where
  | equals | notEquals | memberOf | notMemberOf | greater | greaterOrEqual | less
  | lessOrEqual | contains | notContains | present | absent | between | startsWith
  | endsWith | matchesPattern
  deriving DecidableEq, Repr

instance : Vocabulary Operator where
  noun := "condition operator"
  words :=
    [.equals, .notEquals, .memberOf, .notMemberOf, .greater, .greaterOrEqual, .less,
     .lessOrEqual, .contains, .notContains, .present, .absent, .between, .startsWith,
     .endsWith, .matchesPattern]
  spelling
    | .equals => "equals"
    | .notEquals => "notEquals"
    | .memberOf => "in"
    | .notMemberOf => "notIn"
    | .greater => "gt"
    | .greaterOrEqual => "gte"
    | .less => "lt"
    | .lessOrEqual => "lte"
    | .contains => "contains"
    | .notContains => "notContains"
    | .present => "exists"
    | .absent => "notExists"
    | .between => "between"
    | .startsWith => "startsWith"
    | .endsWith => "endsWith"
    | .matchesPattern => "matches"

def Operator.requiresValue : Operator → Bool
  | .present => false
  | .absent => false
  | _ => true

/-- A hint on the type of an expected value, kept and reported but never checked. -/
inductive ValueType where
  | string | number | boolean | array | date
  deriving DecidableEq, Repr

instance : Vocabulary ValueType where
  noun := "valueType"
  words := [.string, .number, .boolean, .array, .date]
  spelling
    | .string => "string"
    | .number => "number"
    | .boolean => "boolean"
    | .array => "array"
    | .date => "date"

inductive Connective where
  | and | or
  deriving DecidableEq, Repr

instance : Vocabulary Connective where
  noun := "group op"
  words := [.and, .or]
  spelling
    | .and => "AND"
    | .or => "OR"

inductive ActionKind where
  | set | add | remove | block | require | applyFactor | attachForm | detachForm
  | addMessage | setCoverage | setLimit | setDeductible | custom
  deriving DecidableEq, Repr

instance : Vocabulary ActionKind where
  noun := "action type"
  words :=
    [.set, .add, .remove, .block, .require, .applyFactor, .attachForm, .detachForm,
     .addMessage, .setCoverage, .setLimit, .setDeductible, .custom]
  spelling
    | .set => "set"
    | .add => "add"
    | .remove => "remove"
    | .block => "block"
    | .require => "require"
    | .applyFactor => "applyFactor"
    | .attachForm => "attachForm"
    | .detachForm => "detachForm"
    | .addMessage => "addMessage"
    | .setCoverage => "setCoverage"
    | .setLimit => "setLimit"
    | .setDeductible => "setDeductible"
    | .custom => "custom"

inductive Adjustment where
  | equals | add | subtract | multiply | divide
  deriving DecidableEq, Repr

instance : Vocabulary Adjustment where
  noun := "action operator"
  words := [.equals, .add, .subtract, .multiply, .divide]
  spelling
    | .equals => "equals"
    | .add => "add"
    | .subtract => "subtract"
    | .multiply => "multiply"
    | .divide => "divide"

inductive Severity where
  | info | warning | error | success
  deriving DecidableEq, Repr

instance : Vocabulary Severity where
  noun := "severity"
  words := [.info, .warning, .error, .success]
  spelling
    | .info => "info"
    | .warning => "warning"
    | .error => "error"
    | .success => "success"

end Underwriting
