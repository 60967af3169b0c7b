import Underwriting.Draft.Prompt
import Underwriting.Draft.Reply
import Underwriting.RuleSet.Basic

/-! # Requests and responses

The messages that a client and the rule provider exchange. A response carries a status
and, when the status says that all went well, the answer to its request.
-/
namespace Underwriting

inductive LogicSource where
  | ruleId (id : String)
  | json (text : String)
  deriving DecidableEq, Repr

inductive Payload where
  | hello (protocolVersion : String)
  | listRules
  | evaluate (source : Option LogicSource) (context : Members)
  | evaluateAll (context : Members) (workers : UInt32)
  | validateDraft (draft : String)
  | extractDraft (content generationError : String)
  | buildPrompt (request : BuilderRequest)
  | refinePrompt (draft instructions : String)
  | getHealth

structure Request where
  id : UInt64
  payload : Option Payload

inductive StatusCode where
  | unspecified | ok | invalidArgument | notFound | failedPrecondition | internal
  | unimplemented
  deriving DecidableEq, Repr

structure Status where
  code : StatusCode
  message : String
  deriving DecidableEq, Repr

structure ConditionReport where
  field : String
  operator : String
  matched : Bool
  actual : Option Value
  expected : Option Value
  condition : Value

structure EvaluationReport where
  matched : Bool
  conditions : List ConditionReport
  actions : List Value
  messages : List RuleMessage
  blocked : Bool
  delta : Members

def ConditionReport.ofResult (r : ConditionResult) : ConditionReport :=
  ⟨r.field, Vocabulary.spelling r.condition.operator, r.matched, r.actual, r.expected,
    r.condition.toValue⟩

def EvaluationReport.ofEvaluation (e : Evaluation) : EvaluationReport :=
  ⟨e.matched, e.conditions.map ConditionReport.ofResult, e.actions.map Action.toValue,
    e.messages, e.blocked, e.delta⟩

structure Greeting where
  protocolVersion : String
  providerName : String
  providerVersion : String
  metadata : List (String × String)
  deriving DecidableEq, Repr

structure RuleInfo where
  id : String
  name : String
  priority : Int32
  enabled : Bool
  logicVersion : Int32
  deriving DecidableEq, Repr

def RuleInfo.ofRule (r : Rule) : RuleInfo :=
  ⟨r.id, r.name, r.priority, r.enabled, r.logic.version⟩

structure RuleReport where
  ruleId : String
  priority : Int32
  result : EvaluationReport

structure RuleSetReport where
  results : List RuleReport
  blocked : Bool
  messages : List RuleMessage
  matchedIds : List String

def RuleSetReport.ofOutcome (o : RuleSetOutcome) : RuleSetReport :=
  ⟨o.outcomes.map fun r => ⟨r.ruleId, r.priority, .ofEvaluation r.result⟩, o.blocked,
    o.messages, o.matchedIds⟩

/-- A reply as it is reported: texts that are absent are empty, and so is the text of a
draft; an absent confidence is zero. -/
structure ReplyReport where
  success : Bool
  message : String
  error : String
  needsMoreInfo : Bool
  confidence : Int32
  draft : String
  deriving DecidableEq, Repr

inductive HealthState where
  | ok | degraded
  deriving DecidableEq, Repr

structure Health where
  state : HealthState
  message : String
  metrics : List (String × String)
  deriving DecidableEq, Repr

inductive Answer where
  | hello (greeting : Greeting)
  | listRules (rules : List RuleInfo)
  | evaluate (report : EvaluationReport)
  | evaluateAll (report : RuleSetReport)
  | validateDraft (valid : Bool) (error : String)
  | extractDraft (reply : ReplyReport)
  | prompt (messages : List ChatMessage)
  | getHealth (health : Health)

structure Response where
  id : UInt64
  status : Status
  answer : Option Answer

def Response.fresh : Response := ⟨0, ⟨.unspecified, ""⟩, none⟩

end Underwriting
