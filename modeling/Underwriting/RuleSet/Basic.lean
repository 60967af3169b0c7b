import Underwriting.Evaluation.Basic
import Underwriting.RuleSet.WorkerPool

/-! # Sets of rules

A set holds rules under distinct identifiers. Its enabled rules are evaluated against one
context, by descending priority, and what they report is put together in that order.
-/
namespace Underwriting

structure Rule where
  id : String
  name : String
  priority : Int32
  enabled : Bool
  logic : Logic

structure RuleSet where
  /-- All rules in the order in which they were added. -/
  rules : List Rule

structure DuplicateRule where
  id : String
  deriving DecidableEq, Repr

def DuplicateRule.message (e : DuplicateRule) : String :=
  Text.untilNul ("[RuleSet] Duplicate rule ID: " ++ e.id)

structure RuleOutcome where
  ruleId : String
  priority : Int32
  result : Evaluation

structure RuleSetOutcome where
  outcomes : List RuleOutcome
  blocked : Bool
  messages : List RuleMessage
  matchedIds : List String

namespace RuleSet

def empty : RuleSet := ⟨[]⟩

def size (s : RuleSet) : Nat := s.rules.length

def find? (s : RuleSet) (id : String) : Option Rule := s.rules.find? fun r => r.id = id

/-- Adds a rule: the refusal, if its identifier is taken, and the set after it. -/
def add (s : RuleSet) (r : Rule) : Option DuplicateRule × RuleSet :=
  if (s.find? r.id).isSome then (some ⟨r.id⟩, s) else (none, ⟨s.rules ++ [r]⟩)

/-- The enabled rules by descending priority; rules of one priority stay in the order in
which they were added. -/
def ordered (s : RuleSet) : List Rule :=
  (s.rules.filter (·.enabled)).mergeSort fun a b => decide (b.priority ≤ a.priority)

def evaluations (rules : List Rule) (context : Members) (workers : Nat) : List Evaluation :=
  if workers ≤ 1 ∨ rules.length ≤ 1 then rules.map fun r => r.logic.evaluate context
  else
    let job (i : Nat) : Evaluation :=
      match rules[i]? with
      | some r => r.logic.evaluate context
      | none => .blank
    WorkerPool.results job (min workers rules.length) rules.length .blank

def summarize (outcomes : List RuleOutcome) : RuleSetOutcome :=
  ⟨outcomes, outcomes.any fun o => o.result.blocked,
    outcomes.flatMap fun o => o.result.messages,
    (outcomes.filter fun o => o.result.matched).map (·.ruleId)⟩

def evaluateAll (s : RuleSet) (context : Members) (workers : Nat) : RuleSetOutcome :=
  let rules := s.ordered
  summarize
    (List.zipWith (fun r result => ⟨r.id, r.priority, result⟩) rules
      (evaluations rules context workers))

end RuleSet
end Underwriting
