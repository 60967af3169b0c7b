import Underwriting.Comparison
import Underwriting.Context
import Underwriting.Rule.Basic

/-! # Evaluating conditions

A group is evaluated from left to right, and evaluation stops at the first entry that
decides it. The trace lists the conditions that were evaluated, in that order, whatever
group they stand in.
-/
namespace Underwriting

/-- What came of one condition: the operands are kept so that the decision can be
explained later. -/
structure ConditionResult where
  condition : Condition
  matched : Bool
  actual : Option Value
  expected : Option Value
  field : String

def Condition.evaluate (context : Members) (c : Condition) : ConditionResult :=
  let actual := context.resolve c.field
  ⟨c, c.operator.compare actual c.value, actual, c.value, c.field⟩

structure GroupResult where
  matched : Bool
  trace : List ConditionResult

/-- Whether an entry with this outcome settles a group without the entries after it. -/
def Connective.isDecided (connective : Connective) (matched : Bool) : Bool :=
  match connective with
  | .and => !matched
  | .or => matched

def Connective.otherwise : Connective → Bool
  | .and => true
  | .or => false

mutual
def Entry.evaluate (context : Members) : Entry → GroupResult
  | .condition c => let r := c.evaluate context; ⟨r.matched, [r]⟩
  | .group connective entries => Entry.evaluateAll context connective entries

/-- The entries of a group, up to the first one that settles it. -/
def Entry.evaluateAll (context : Members) (connective : Connective) :
    List Entry → GroupResult
  | [] => ⟨connective.otherwise, []⟩
  | e :: es =>
    let first := Entry.evaluate context e
    if connective.isDecided first.matched then first
    else
      let others := Entry.evaluateAll context connective es
      ⟨others.matched, first.trace ++ others.trace⟩
end

def ConditionGroup.evaluate (context : Members) (g : ConditionGroup) : GroupResult :=
  Entry.evaluateAll context g.connective g.entries

end Underwriting
