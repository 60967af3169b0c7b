import Underwriting.Frame
import Underwriting.Service.Message

/-! # Answering requests

Every request gets one response. A handler fills the response while it works, so that one
that throws leaves a response with part of an answer in it; what it has filled in is taken
out again then.
-/
namespace Underwriting

def maxWorkers : Nat := 64

structure Provider where
  name : String
  workers : Nat
  systemPrompt : String
  rules : RuleSet

def Provider.defaultName : String := "rulekit-provider"

def protocolVersion : String := "v1"

def providerVersion : String := "0.1.0"

inductive Refusal where
  | protocolVersion
  | unknownRule (id : String)
  | disabledRule (id : String)
  | noLogic
  | badLogic (e : Logic.ReadError)
  | badDraft (e : Draft.ReadError)
  | noText
  | noInstructions
  | noOperation
  deriving DecidableEq, Repr

namespace Refusal

def code : Refusal → StatusCode
  | .protocolVersion => .failedPrecondition
  | .unknownRule _ => .notFound
  | .disabledRule _ => .failedPrecondition
  | .noLogic => .invalidArgument
  | .badLogic _ => .invalidArgument
  | .badDraft _ => .invalidArgument
  | .noText => .invalidArgument
  | .noInstructions => .invalidArgument
  | .noOperation => .unimplemented

def message : Refusal → String
  | .protocolVersion => "unsupported protocol_version; expected v1"
  | .unknownRule id => "unknown rule_id: " ++ id
  | .disabledRule id => "rule is disabled: " ++ id
  | .noLogic => "rule_id or logic_json is required"
  | .badLogic e => e.message
  | .badDraft e => e.message
  | .noText => "text is required"
  | .noInstructions => "instructions are required"
  | .noOperation => "operation not implemented"

def status (r : Refusal) : Status := ⟨r.code, r.message⟩

end Refusal

def Health.ofRuleCount (count : Nat) : Health :=
  let metrics := [("rule_count", toString count)]
  if count = 0 then ⟨.degraded, "no rules configured", metrics⟩ else ⟨.ok, "ok", metrics⟩

/-- A reply as it is reported, but for its draft. -/
def ReplyReport.ofReply (r : Reply) : ReplyReport :=
  ⟨r.success, r.message, r.error.getD "", r.needsMoreInfo, r.confidence.getD 0, ""⟩

/-- What a handler makes of a response: it returns it, or throws and leaves it as it is. -/
inductive Handled where
  | returned (r : Response)
  | threw (message : String) (r : Response)

namespace Response

def withStatus (r : Response) (s : Status) : Response := { r with status := s }

def withAnswer (r : Response) (a : Answer) : Response := { r with answer := some a }

def answered (r : Response) (a : Answer) : Handled :=
  .returned ((r.withAnswer a).withStatus ⟨.ok, "ok"⟩)

def refused (r : Response) (refusal : Refusal) : Handled :=
  .returned (r.withStatus refusal.status)

end Response

/-- The response to a request once its handler is done. A response whose handler threw
loses the answer that it has so far. -/
def Handled.response : Handled → Response
  | .returned r => r
  | .threw message r => { r with answer := none, status := ⟨.internal, message⟩ }

/-! ## Handlers

A handler is given a response that has no answer yet. -/

namespace Provider

def hello (p : Provider) (version : String) (r : Response) : Handled :=
  if version = protocolVersion then
    r.answered (.hello ⟨protocolVersion, p.name, providerVersion,
      [("transport", "stdio+uint32_le"), ("max_frame_bytes", toString Frame.maxPayload.toNat),
       ("rule_count", toString p.rules.size)]⟩)
  else r.refused .protocolVersion

def listRules (p : Provider) (r : Response) : Handled :=
  r.answered (.listRules (p.rules.rules.map RuleInfo.ofRule))

def logicOf (json : Json.Library) (p : Provider) : Option LogicSource → Except Refusal Logic
  | none => .error .noLogic
  | some (.ruleId id) =>
    match p.rules.find? id with
    | none => .error (.unknownRule id)
    | some r => if r.enabled then .ok r.logic else .error (.disabledRule id)
  | some (.json text) => (Logic.ofJson json text).mapError .badLogic

def evaluate (json : Json.Library) (p : Provider) (source : Option LogicSource)
    (context : Members) (r : Response) : Handled :=
  match p.logicOf json source with
  | .error refusal => r.refused refusal
  | .ok l => r.answered (.evaluate (.ofEvaluation (l.evaluate context)))

/-- The number of workers for a request: what it asks for, within limits, or else what
the provider is set to. -/
def workersFor (p : Provider) (requested : UInt32) : Nat :=
  if requested = 0 then p.workers else min requested.toNat maxWorkers

def evaluateAll (p : Provider) (context : Members) (workers : UInt32) (r : Response) : Handled :=
  r.answered (.evaluateAll (.ofOutcome (p.rules.evaluateAll context (p.workersFor workers))))

def validateDraft (json : Json.Library) (text : String) (r : Response) : Handled :=
  match Draft.ofJson json text with
  | .error e => r.refused (.badDraft e)
  | .ok d =>
    match d.flaw? with
    | some flaw => r.answered (.validateDraft false flaw.message)
    | none => r.answered (.validateDraft true "")

/-- The answer stands in the response before the text of a draft is added to it. -/
def extractDraft (json : Json.Library) (content generationError : String) (r : Response) :
    Handled :=
  let reply := if generationError = "" then Reply.ofContent json content
    else Reply.ofFailure generationError
  let report := ReplyReport.ofReply reply
  match reply.draft with
  | none => r.answered (.extractDraft report)
  | some d =>
    match d.toJson json .compact with
    | .error e => .threw e.message (r.withAnswer (.extractDraft report))
    | .ok text => r.answered (.extractDraft { report with draft := text })

def buildPrompt (p : Provider) (request : BuilderRequest) (r : Response) : Handled :=
  if request.text = "" then r.refused .noText
  else r.answered (.prompt (Prompt.build p.systemPrompt request))

def refinePrompt (json : Json.Library) (p : Provider) (text instructions : String)
    (r : Response) : Handled :=
  if instructions = "" then r.refused .noInstructions
  else
    match Draft.ofJson json text with
    | .error e => r.refused (.badDraft e)
    | .ok d =>
      match Prompt.refine json p.systemPrompt d instructions with
      | .error e => .threw e.message r
      | .ok messages => r.answered (.prompt messages)

def getHealth (p : Provider) (r : Response) : Handled :=
  r.answered (.getHealth (.ofRuleCount p.rules.size))

def handle (json : Json.Library) (p : Provider) : Option Payload → Response → Handled
  | none => fun r => r.refused .noOperation
  | some (.hello version) => p.hello version
  | some .listRules => p.listRules
  | some (.evaluate source context) => p.evaluate json source context
  | some (.evaluateAll context workers) => p.evaluateAll context workers
  | some (.validateDraft text) => validateDraft json text
  | some (.extractDraft content generationError) => extractDraft json content generationError
  | some (.buildPrompt request) => p.buildPrompt request
  | some (.refinePrompt text instructions) => p.refinePrompt json text instructions
  | some .getHealth => p.getHealth

def dispatch (json : Json.Library) (p : Provider) (request : Request) : Response :=
  let begun : Response :=
    { Response.fresh with id := request.id, status := ⟨.internal, "uninitialized"⟩ }
  (p.handle json request.payload begun).response

section Outcomes
variable {json : Json.Library} {p : Provider} {request : UInt64} {payload : Option Payload}

theorem dispatch_of_answered {a : Answer} (h : ∀ r, p.handle json payload r = r.answered a) :
    p.dispatch json ⟨request, payload⟩ = ⟨request, ⟨.ok, "ok"⟩, some a⟩ := by
  rw [dispatch, h]
  rfl

theorem dispatch_of_refused {refusal : Refusal}
    (h : ∀ r, p.handle json payload r = r.refused refusal) :
    p.dispatch json ⟨request, payload⟩ = ⟨request, refusal.status, none⟩ := by
  rw [dispatch, h]
  rfl

end Outcomes
end Provider
end Underwriting
