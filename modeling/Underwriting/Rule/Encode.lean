import Underwriting.Json.Library
import Underwriting.Number.Binary64
import Underwriting.Rule.Basic

/-! # Rules as values

The document form of a rule. Optional parts that are absent are left out, and so is an
empty description; the target of an action is always written.
-/
namespace Underwriting

def Value.word {α : Type} [Vocabulary α] (w : α) : Value := .string (Vocabulary.spelling w)

/-- A member that is there only when its value is. -/
def Members.optional {α : Type} (key : String) (toValue : α → Value) : Option α → Members
  | none => []
  | some a => [(key, toValue a)]

/-- A member that is there only when its text is not empty. -/
def Members.unlessEmpty (key text : String) : Members :=
  if text = "" then [] else [(key, .string text)]

namespace Condition

def members (c : Condition) : Members :=
  [("field", .string c.field), ("operator", .word c.operator)] ++
    Members.optional "value" id c.value ++
    Members.optional "valueType" .word c.valueType ++
    Members.unlessEmpty "description" c.description

def toValue (c : Condition) : Value := .object c.members

end Condition

mutual
def Entry.toValue : Entry → Value
  | .condition c => c.toValue
  | .group connective entries =>
    .object [("op", .word connective), ("conditions", .list (Entry.toValues entries))]

def Entry.toValues : List Entry → List Value
  | [] => []
  | e :: es => Entry.toValue e :: Entry.toValues es
end

def ConditionGroup.toValue (g : ConditionGroup) : Value := g.toEntry.toValue

namespace Action

def members (a : Action) : Members :=
  [("type", .word a.kind), ("target", .string a.target)] ++
    Members.optional "operator" .word a.adjustment ++
    Members.optional "value" id a.value ++
    Members.optional "message" .string a.message ++
    Members.optional "severity" .word a.severity ++
    Members.unlessEmpty "description" a.description

def toValue (a : Action) : Value := .object a.members

end Action

namespace Logic

def members (l : Logic) : Members :=
  [("version", .number (Binary64.ofInt32 l.version)), ("if", l.condition.toValue),
   ("then", .list (l.thenActions.map Action.toValue))] ++
    Members.optional "else" (fun actions => .list (actions.map Action.toValue)) l.elseActions

def toValue (l : Logic) : Value := .object l.members

def toJson (json : Json.Library) (layout : Json.Layout) (l : Logic) :
    Except Json.PrintError String :=
  json.print layout l.toValue

end Logic
end Underwriting
