import Underwriting.Evaluation.Actions
import Underwriting.Evaluation.Conditions

/-! # Evaluating rules -/
namespace Underwriting

structure BranchOutcome where
  actions : List Action
  messages : List RuleMessage
  blocked : Bool

def Logic.outcome (l : Logic) (matched : Bool) : BranchOutcome :=
  let actions := l.select matched
  ⟨actions, actions.filterMap Action.report?, actions.any Action.isBlock⟩

structure Evaluation where
  matched : Bool
  conditions : List ConditionResult
  actions : List Action
  messages : List RuleMessage
  blocked : Bool
  delta : Members

def Evaluation.blank : Evaluation := ⟨false, [], [], [], false, []⟩

def Logic.evaluate (l : Logic) (context : Members) : Evaluation :=
  let tree := l.condition.evaluate context
  let outcome := l.outcome tree.matched
  ⟨tree.matched, tree.trace, outcome.actions, outcome.messages, outcome.blocked,
    contextDelta context outcome.actions⟩

end Underwriting
