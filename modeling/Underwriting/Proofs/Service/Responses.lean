import Underwriting.Proofs.Service.Drafts

/-! # Responses

Every request gets one response, whatever the provider knows, whatever the request holds and
whatever the library for JSON does. It carries the answer that belongs to its request, or the
status that says why there is none. A library that can write what it reads never makes a
handler fail halfway.
-/
namespace Underwriting

/-- The answers that belong to a payload. Both requests for a prompt get one. -/
inductive Payload.AnsweredBy : Payload → Answer → Prop where
  | hello {version : String} {greeting : Greeting} :
    AnsweredBy (.hello version) (.hello greeting)
  | listRules {rules : List RuleInfo} : AnsweredBy .listRules (.listRules rules)
  | evaluate {source : Option LogicSource} {context : Members} {report : EvaluationReport} :
    AnsweredBy (.evaluate source context) (.evaluate report)
  | evaluateAll {context : Members} {workers : UInt32} {report : RuleSetReport} :
    AnsweredBy (.evaluateAll context workers) (.evaluateAll report)
  | validateDraft {draft error : String} {valid : Bool} :
    AnsweredBy (.validateDraft draft) (.validateDraft valid error)
  | extractDraft {content generationError : String} {reply : ReplyReport} :
    AnsweredBy (.extractDraft content generationError) (.extractDraft reply)
  | buildPrompt {request : BuilderRequest} {messages : List ChatMessage} :
    AnsweredBy (.buildPrompt request) (.prompt messages)
  | refinePrompt {draft instructions : String} {messages : List ChatMessage} :
    AnsweredBy (.refinePrompt draft instructions) (.prompt messages)
  | getHealth {health : Health} : AnsweredBy .getHealth (.getHealth health)

/-- What it takes for a payload to be answered. -/
def Payload.Acceptable (json : Json.Library) (p : Provider) : Payload → Prop
  | .hello version => version = protocolVersion
  | .listRules => True
  | .evaluate none _ => False
  | .evaluate (some (.ruleId id)) _ => ∃ r, p.rules.find? id = some r ∧ r.enabled = true
  | .evaluate (some (.json text)) _ => ∃ l, Logic.ofJson json text = .ok l
  | .evaluateAll _ _ => True
  | .validateDraft text => ∃ d, Draft.ofJson json text = .ok d
  | .extractDraft _ _ => True
  | .buildPrompt request => request.text ≠ ""
  | .refinePrompt text instructions =>
    instructions ≠ "" ∧ ∃ d, Draft.ofJson json text = .ok d
  | .getHealth => True

def Refusal.Declines (refusal : Refusal) : Prop :=
  refusal.code = .invalidArgument ∨ refusal.code = .notFound ∨ refusal.code = .failedPrecondition

theorem Refusal.Declines.notMem {refusal : Refusal} (h : refusal.Declines) {codes : List StatusCode}
    (hcodes : ∀ code ∈ codes, code ≠ .invalidArgument ∧ code ≠ .notFound ∧
      code ≠ .failedPrecondition) : refusal.code ∉ codes := by
  intro hmem
  obtain ⟨hinvalid, hunknown, hfailed⟩ := hcodes _ hmem
  rcases h with h | h | h
  · exact hinvalid h
  · exact hunknown h
  · exact hfailed h

/-- What the handler of a payload makes of a response: it answers an acceptable payload and
declines any other. It may fail on the way, with part of an answer filled in, but not if what
is read can be written. -/
inductive Payload.Outcome (json : Json.Library) (p : Provider) (payload : Payload)
    (r : Response) : Handled → Prop where
  | answered {a : Answer} : payload.Acceptable json p → payload.AnsweredBy a →
    Outcome json p payload r (r.answered a)
  | declined {refusal : Refusal} : ¬ payload.Acceptable json p → refusal.Declines →
    Outcome json p payload r (r.refused refusal)
  | failed {message : String} {filled : Response} : ¬ json.Closed → filled.id = r.id →
    Outcome json p payload r (.threw message filled)

namespace Provider
variable (json : Json.Library) (p : Provider) (r : Response)

/-! ## Payloads, one by one -/

theorem outcome_hello (version : String) :
    (Payload.hello version).Outcome json p r (p.hello version r) := by
  by_cases hversion : version = protocolVersion
  · rw [hello, if_pos hversion]
    exact .answered hversion .hello
  · rw [hello, if_neg hversion]
    exact .declined hversion (Or.inr (Or.inr rfl))

theorem outcome_evaluate_rule (id : String) (context : Members) :
    (Payload.evaluate (some (.ruleId id)) context).Outcome json p r
      (p.evaluate json (some (.ruleId id)) context r) := by
  cases hfind : p.rules.find? id with
  | none =>
    simp only [evaluate, logicOf, hfind]
    refine .declined ?_ (Or.inr (Or.inl rfl))
    rintro ⟨rule, hfound, -⟩
    cases hfind.symm.trans hfound
  | some rule =>
    by_cases henabled : rule.enabled = true
    · simp only [evaluate, logicOf, hfind, if_pos henabled]
      exact .answered ⟨rule, hfind, henabled⟩ .evaluate
    · simp only [evaluate, logicOf, hfind, if_neg henabled]
      refine .declined ?_ (Or.inr (Or.inr rfl))
      rintro ⟨other, hfound, hother⟩
      obtain rfl := Option.some.inj (hfind.symm.trans hfound)
      exact henabled hother

theorem outcome_evaluate_text (text : String) (context : Members) :
    (Payload.evaluate (some (.json text)) context).Outcome json p r
      (p.evaluate json (some (.json text)) context r) := by
  cases hread : Logic.ofJson json text with
  | error e =>
    simp only [evaluate, logicOf, hread]
    exact .declined (not_exists_ok_of_eq_error hread) (Or.inl rfl)
  | ok l =>
    simp only [evaluate, logicOf, hread]
    exact .answered ⟨l, hread⟩ .evaluate

theorem outcome_validateDraft (text : String) :
    (Payload.validateDraft text).Outcome json p r (validateDraft json text r) := by
  cases hread : Draft.ofJson json text with
  | error e =>
    simp only [validateDraft, hread]
    exact .declined (not_exists_ok_of_eq_error hread) (Or.inl rfl)
  | ok d =>
    simp only [validateDraft, hread]
    split
    · exact .answered ⟨d, hread⟩ .validateDraft
    · exact .answered ⟨d, hread⟩ .validateDraft

theorem exists_text_of_draft {content generationError : String} {d : Draft}
    (h : (if generationError = "" then Reply.ofContent json content
      else Reply.ofFailure generationError).draft = some d) :
    ∃ text, Draft.ofJson json text = .ok d := by
  split at h
  · obtain ⟨_, _, _, hproposes⟩ := Reply.draft_eq_some_iff.mp h
    exact ⟨_, hproposes.read⟩
  · cases h

theorem not_closed_of_toJson {text : String} {d : Draft} {layout : Json.Layout}
    {e : Json.PrintError} (hread : Draft.ofJson json text = .ok d)
    (hprint : d.toJson json layout = .error e) : ¬ json.Closed := by
  intro hclosed
  obtain ⟨printed, hprinted⟩ := Draft.exists_toJson_of_ofJson hclosed hread layout
  cases hprint.symm.trans hprinted

/-- Only the text of a draft can fail, when the rest of the report stands in the response. -/
theorem outcome_extractDraft (content generationError : String) :
    (Payload.extractDraft content generationError).Outcome json p r
      (extractDraft json content generationError r) := by
  rw [extractDraft]
  split
  · exact .answered trivial .extractDraft
  · rename_i d hdraft
    split
    · rename_i e hprint
      obtain ⟨text, hread⟩ := exists_text_of_draft json hdraft
      exact .failed (not_closed_of_toJson json hread hprint) rfl
    · exact .answered trivial .extractDraft

theorem outcome_buildPrompt (request : BuilderRequest) :
    (Payload.buildPrompt request).Outcome json p r (p.buildPrompt request r) := by
  by_cases htext : request.text = ""
  · rw [buildPrompt, if_pos htext]
    exact .declined (absurd htext) (Or.inl rfl)
  · rw [buildPrompt, if_neg htext]
    exact .answered htext .buildPrompt

theorem outcome_refinePrompt (text instructions : String) :
    (Payload.refinePrompt text instructions).Outcome json p r
      (p.refinePrompt json text instructions r) := by
  by_cases hinstructions : instructions = ""
  · rw [refinePrompt, if_pos hinstructions]
    refine .declined ?_ (Or.inl rfl)
    rintro ⟨hsome, -⟩
    exact hsome hinstructions
  · rw [refinePrompt, if_neg hinstructions]
    cases hread : Draft.ofJson json text with
    | error e =>
      refine .declined ?_ (Or.inl rfl)
      rintro ⟨-, hread'⟩
      exact not_exists_ok_of_eq_error hread hread'
    | ok d =>
      cases hprint : d.toJson json .pretty with
      | error e =>
        simp only [Prompt.refine, hprint]
        exact .failed (not_closed_of_toJson json hread hprint) rfl
      | ok printed =>
        simp only [Prompt.refine, hprint]
        exact .answered ⟨hinstructions, d, hread⟩ .refinePrompt

theorem outcome_handle (payload : Payload) :
    payload.Outcome json p r (p.handle json (some payload) r) := by
  match payload with
  | .hello version => exact outcome_hello json p r version
  | .listRules => exact .answered trivial .listRules
  | .evaluate none context => exact .declined id (Or.inl rfl)
  | .evaluate (some (.ruleId id)) context => exact outcome_evaluate_rule json p r id context
  | .evaluate (some (.json text)) context => exact outcome_evaluate_text json p r text context
  | .evaluateAll context workers => exact .answered trivial .evaluateAll
  | .validateDraft text => exact outcome_validateDraft json p r text
  | .extractDraft content generationError =>
    exact outcome_extractDraft json p r content generationError
  | .buildPrompt request => exact outcome_buildPrompt json p r request
  | .refinePrompt text instructions => exact outcome_refinePrompt json p r text instructions
  | .getHealth => exact .answered trivial .getHealth

/-! ## Responses -/

/-- A response that settles a request: it has the request's identifier, and either the answer
that belongs to the payload or a status that says why there is none. -/
structure Settles (request : Request) (response : Response) : Prop where
  id : response.id = request.id
  answered_iff : response.answer.isSome = true ↔ response.status.code = .ok
  belongs : ∀ a, response.answer = some a →
    ∃ payload, request.payload = some payload ∧ payload.AnsweredBy a
  unimplemented_iff : response.status.code = .unimplemented ↔ request.payload = none
  specified : response.status.code ≠ .unspecified

/-- A response that also tells acceptable requests from others. -/
structure Decides (request : Request) (response : Response) : Prop where
  ok_iff : response.status.code = .ok ↔
    ∃ payload, request.payload = some payload ∧ payload.Acceptable json p
  not_internal : response.status.code ≠ .internal

variable {json} {p} {r} {request : UInt64} {payload : Payload}

theorem settles_of_answered {a : Answer} (hid : r.id = request) (hanswered : payload.AnsweredBy a) :
    Settles ⟨request, some payload⟩ (r.answered a).response where
  id := hid
  answered_iff := iff_of_true rfl rfl
  belongs := by
    rintro _ ⟨⟩
    exact ⟨payload, rfl, hanswered⟩
  unimplemented_iff := iff_of_false nofun nofun
  specified := nofun

/-- A response with no answer settles a request with a payload, whatever its status, unless
that says that there is an answer or nothing to be answered. -/
theorem settles_of_no_answer {response : Response} (hid : response.id = request)
    (hanswer : response.answer = none)
    (hcode : response.status.code ∉ [.ok, .unimplemented, .unspecified]) :
    Settles ⟨request, some payload⟩ response := by
  simp only [List.mem_cons, List.not_mem_nil, or_false, not_or] at hcode
  obtain ⟨hok, hunimplemented, hunspecified⟩ := hcode
  refine ⟨hid, iff_of_false ?_ hok, ?_, iff_of_false hunimplemented nofun, hunspecified⟩
  · simp [hanswer]
  · simp [hanswer]

theorem settles_of_outcome (hid : r.id = request) (hanswer : r.answer = none) {handled : Handled}
    (h : payload.Outcome json p r handled) :
    Settles ⟨request, some payload⟩ handled.response := by
  cases h with
  | answered _ hanswered => exact settles_of_answered hid hanswered
  | declined _ hdeclines =>
    exact settles_of_no_answer hid hanswer (hdeclines.notMem (by decide))
  | failed _ hfilled =>
    exact settles_of_no_answer (hfilled.trans hid) rfl (by simp [Handled.response])

theorem decides_of_outcome (hclosed : json.Closed) {handled : Handled}
    (h : payload.Outcome json p r handled) :
    Decides json p ⟨request, some payload⟩ handled.response := by
  cases h with
  | answered hacceptable _ => exact ⟨iff_of_true rfl ⟨payload, rfl, hacceptable⟩, nofun⟩
  | @declined refusal hacceptable hdeclines =>
    have hcode : refusal.code ∉ [.ok, .internal] := hdeclines.notMem (by decide)
    simp only [List.mem_cons, List.not_mem_nil, or_false, not_or] at hcode
    refine ⟨iff_of_false hcode.1 ?_, hcode.2⟩
    rintro ⟨_, ⟨⟩, hother⟩
    exact hacceptable hother
  | failed hopen _ => exact absurd hclosed hopen

theorem settles_of_no_payload (json : Json.Library) (p : Provider) :
    Settles ⟨request, none⟩ (p.dispatch json ⟨request, none⟩) ∧
      Decides json p ⟨request, none⟩ (p.dispatch json ⟨request, none⟩) := by
  have hdispatch : p.dispatch json ⟨request, none⟩ =
      ⟨request, Refusal.noOperation.status, none⟩ := dispatch_of_refused fun _ => rfl
  rw [hdispatch]
  exact ⟨⟨rfl, iff_of_false nofun nofun, nofun, iff_of_true rfl rfl, nofun⟩,
    iff_of_false nofun nofun, nofun⟩

theorem settles_dispatch (json : Json.Library) (p : Provider) (request : Request) :
    Settles request (p.dispatch json request) := by
  obtain ⟨id, payload⟩ := request
  cases payload with
  | none => exact (settles_of_no_payload json p).1
  | some payload =>
    have houtcome := outcome_handle json p
      { Response.fresh with id := id, status := ⟨.internal, "uninitialized"⟩ } payload
    exact settles_of_outcome rfl rfl houtcome

theorem decides_dispatch {json : Json.Library} (hclosed : json.Closed) (p : Provider)
    (request : Request) : Decides json p request (p.dispatch json request) := by
  obtain ⟨id, payload⟩ := request
  cases payload with
  | none => exact (settles_of_no_payload json p).2
  | some payload =>
    have houtcome := outcome_handle json p
      { Response.fresh with id := id, status := ⟨.internal, "uninitialized"⟩ } payload
    exact decides_of_outcome hclosed houtcome

/-- Every request is settled by one response, also when its handler fails halfway: what it has
filled in by then is taken out again. Only a request without a payload asks for nothing that is
implemented. If what the library reads can be written, then no request fails for an internal
reason, and those that are acceptable are answered. -/
theorem dispatch_settles (json : Json.Library) (p : Provider) (request : Request) :
    Settles request (p.dispatch json request) ∧
      (json.Closed → Decides json p request (p.dispatch json request)) :=
  ⟨settles_dispatch json p request, fun hclosed => decides_dispatch hclosed p request⟩

/-- A draft in a reply is answered with the strict library. -/
theorem dispatch_roofReply_decided :
    Json.strict.Closed ∧ ((Provider.mk defaultName 1 "" .empty).dispatch Json.strict
      ⟨1, some (.extractDraft roofReply "")⟩).status.code = .ok := by
  have hclosed := Json.strict_lawful.toClosed
  obtain ⟨-, hdecides⟩ := dispatch_settles Json.strict ⟨defaultName, 1, "", .empty⟩
    ⟨1, some (.extractDraft roofReply "")⟩
  exact ⟨hclosed, (hdecides hclosed).ok_iff.mpr ⟨_, rfl, trivial⟩⟩

end Provider
end Underwriting
