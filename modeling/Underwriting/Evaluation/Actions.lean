import Underwriting.Context
import Underwriting.Rule.Basic

/-! # Selecting and applying actions

The outcome of the condition tree selects one of the two lists of actions. Its messages
and blocks are reported; its `set` actions describe changes to the context, which are
collected in a delta and never applied to the context itself.
-/
namespace Underwriting

structure RuleMessage where
  text : String
  severity : Severity
  deriving DecidableEq, Repr

def Logic.select (l : Logic) (matched : Bool) : List Action :=
  if matched then l.thenActions else l.elseActions.getD []

namespace Action

/-- The message of an action: a message action keeps its severity, or is informative; a
block reports an error. -/
def report? (a : Action) : Option RuleMessage :=
  match a.kind, a.message with
  | .addMessage, some text => some ⟨text, a.severity.getD .info⟩
  | .block, some text => some ⟨text, .error⟩
  | _, _ => none

def isBlock (a : Action) : Bool := a.kind = .block

/-- Arithmetic on two numbers. Division by zero has no result. -/
def calculate? (adjustment : Adjustment) (x y : Float) : Option Float :=
  match adjustment with
  | .equals => some y
  | .add => some (x + y)
  | .subtract => some (x - y)
  | .multiply => some (x * y)
  | .divide => if y == 0.0 then none else some (x / y)

def adjust? (adjustment : Adjustment) (current : Option Value) (value : Value) :
    Option Value :=
  match adjustment with
  | .equals => some value
  | _ =>
    match current, value with
    | some (.number x), .number y => (calculate? adjustment x y).map .number
    | _, _ => none

def setting? (a : Action) : Option Value :=
  if a.kind = .set ∧ Path.isWritable a.target then a.value else none

/-- The value that an action gives to its target. What earlier actions have written
counts before what the context holds. -/
def effect? (context delta : Members) (a : Action) : Option Value :=
  match a.setting? with
  | none => none
  | some value =>
    adjust? (a.adjustment.getD .equals)
      ((delta.resolve a.target).or (context.resolve a.target)) value

def applyTo (context delta : Members) (a : Action) : Members :=
  match a.effect? context delta with
  | none => delta
  | some v => delta.write a.target v

end Action

def contextDelta (context : Members) (actions : List Action) : Members :=
  actions.foldl (Action.applyTo context) []

end Underwriting
