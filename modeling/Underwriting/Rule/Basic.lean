import Underwriting.Rule.Vocabulary
import Underwriting.Value.Basic

/-! # Rules

The logic of a rule is a tree of conditions, joined by AND and OR, and two lists of
actions: one for when the tree holds, and possibly one for when it does not.
-/
namespace Underwriting

structure Condition where
  field : String
  operator : Operator
  value : Option Value
  valueType : Option ValueType
  description : String

inductive Entry where
  | condition (c : Condition)
  | group (connective : Connective) (entries : List Entry)

structure ConditionGroup where
  connective : Connective
  entries : List Entry

def ConditionGroup.toEntry (g : ConditionGroup) : Entry := .group g.connective g.entries

structure Action where
  kind : ActionKind
  target : String
  adjustment : Option Adjustment
  value : Option Value
  message : Option String
  severity : Option Severity
  description : String

structure Logic where
  version : Int32
  condition : ConditionGroup
  thenActions : List Action
  elseActions : Option (List Action)

end Underwriting
