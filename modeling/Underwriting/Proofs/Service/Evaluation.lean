import Underwriting.Json.Strict
import Underwriting.Proofs.RuleSet.Identifiers
import Underwriting.Service.Dispatch

/-! # One rule and all rules

A request to evaluate a rule by its identifier and a request to evaluate all rules go
different ways: the one looks the identifier up, the other filters and sorts. In a set whose
identifiers are distinct they come to the same result.
-/
namespace Underwriting

def RuleReport.ofRule (context : Members) (r : Rule) : RuleReport :=
  ⟨r.id, r.priority, .ofEvaluation (r.logic.evaluate context)⟩

namespace Provider
variable {p : Provider} {context : Members} {id : String}

def reportOnAll (p : Provider) (context : Members) (workers : UInt32) : RuleSetReport :=
  .ofOutcome (p.rules.evaluateAll context (p.workersFor workers))

theorem results_reportOnAll (p : Provider) (context : Members) (workers : UInt32) :
    (p.reportOnAll context workers).results = p.rules.ordered.map (RuleReport.ofRule context) := by
  rw [reportOnAll, RuleSet.evaluateAll_eq_summarize, RuleSetReport.ofOutcome, RuleSet.summarize,
    List.map_map]
  rfl

theorem matchedIds_reportOnAll (p : Provider) (context : Members) (workers : UInt32) :
    (p.reportOnAll context workers).matchedIds =
      (p.rules.ordered.filter fun r => r.logic.condition.denotes context).map (·.id) :=
  RuleSet.matchedIds_evaluateAll p.rules context (p.workersFor workers)

theorem ruleIds_reportOnAll (p : Provider) (context : Members) (workers : UInt32) :
    (p.reportOnAll context workers).results.map (·.ruleId) = p.rules.ordered.map (·.id) := by
  rw [results_reportOnAll, List.map_map]
  rfl

/-! ## The three outcomes of a look-up -/

section LookUp
variable (json : Json.Library) (request : UInt64)

theorem dispatch_evaluate_of_enabled {r : Rule} (hfind : p.rules.find? id = some r)
    (henabled : r.enabled = true) :
    p.dispatch json ⟨request, some (.evaluate (some (.ruleId id)) context)⟩ =
      ⟨request, ⟨.ok, "ok"⟩, some (.evaluate (.ofEvaluation (r.logic.evaluate context)))⟩ := by
  apply dispatch_of_answered
  intro response
  simp only [handle, evaluate, logicOf, hfind, if_pos henabled]

theorem dispatch_evaluate_of_disabled {r : Rule} (hfind : p.rules.find? id = some r)
    (hdisabled : r.enabled = false) :
    p.dispatch json ⟨request, some (.evaluate (some (.ruleId id)) context)⟩ =
      ⟨request, (Refusal.disabledRule id).status, none⟩ := by
  have hno : ¬ r.enabled = true := by simp [hdisabled]
  apply dispatch_of_refused
  intro response
  simp only [handle, evaluate, logicOf, hfind, if_neg hno]

theorem dispatch_evaluate_of_unknown (hfind : p.rules.find? id = none) :
    p.dispatch json ⟨request, some (.evaluate (some (.ruleId id)) context)⟩ =
      ⟨request, (Refusal.unknownRule id).status, none⟩ := by
  apply dispatch_of_refused
  intro response
  simp only [handle, evaluate, logicOf, hfind]

end LookUp

/-- An enabled rule is among the matched ones when its own result is matched. -/
theorem mem_matchedIds_iff (hbuilt : p.rules.Built) {r : Rule} (hr : r ∈ p.rules.rules)
    (henabled : r.enabled = true) (workers : UInt32) :
    r.id ∈ (p.reportOnAll context workers).matchedIds ↔
      (RuleReport.ofRule context r).result.matched = true := by
  have hmatched : (RuleReport.ofRule context r).result.matched =
      r.logic.condition.denotes context := r.logic.matched_evaluate context
  rw [matchedIds_reportOnAll, hmatched, List.mem_map]
  constructor
  · rintro ⟨x, hx, hid⟩
    obtain ⟨hmem, hdenotes⟩ := List.mem_filter.mp hx
    rwa [hbuilt.eq_of_id_eq (RuleSet.mem_ordered.mp hmem).1 hr hid] at hdenotes
  · intro h
    exact ⟨r, List.mem_filter.mpr ⟨RuleSet.mem_ordered.mpr ⟨hr, henabled⟩, h⟩, rfl⟩

/-! ## Agreement -/

/-- What it takes for a response on the rule with an identifier to agree with a report on all
of these rules: the rule is answered exactly when it is reported on, which happens at most
once; refusals carry no answer, and their status tells rules that do not exist from disabled
ones. -/
structure Agree (rules : List Rule) (id : String) (response : Response)
    (report : RuleSetReport) : Prop where
  ok_iff : response.status.code = .ok ↔ id ∈ report.results.map (·.ruleId)
  same : response.status.code = .ok →
    ∃ r, report.results.filter (·.ruleId = id) = [r] ∧
      response.answer = some (.evaluate r.result) ∧
      (id ∈ report.matchedIds ↔ r.result.matched = true)
  refused : response.status.code ≠ .ok → response.answer = none ∧
    (response.status.code = .notFound ∨ response.status.code = .failedPrecondition)
  notFound_iff : response.status.code = .notFound ↔ ∀ r ∈ rules, r.id ≠ id
  failedPrecondition_iff :
    response.status.code = .failedPrecondition ↔ ∃ r ∈ rules, r.id = id ∧ r.enabled = false

theorem agree_of_unknown (hfind : p.rules.find? id = none) (request : UInt64)
    (workers : UInt32) :
    Agree p.rules.rules id ⟨request, (Refusal.unknownRule id).status, none⟩
      (p.reportOnAll context workers) := by
  have hnone : ∀ r ∈ p.rules.rules, r.id ≠ id := RuleSet.find?_eq_none.mp hfind
  have hordered : id ∉ (p.reportOnAll context workers).results.map (·.ruleId) := by
    rw [ruleIds_reportOnAll]
    intro hid
    obtain ⟨x, hx, rfl⟩ := List.mem_map.mp hid
    exact hnone x (RuleSet.mem_ordered.mp hx).1 rfl
  have hno : ¬ ∃ r ∈ p.rules.rules, r.id = id ∧ r.enabled = false := by
    rintro ⟨r, hr, hid, -⟩
    exact hnone r hr hid
  exact ⟨iff_of_false nofun hordered, nofun, fun _ => ⟨rfl, Or.inl rfl⟩, iff_of_true rfl hnone,
    iff_of_false nofun hno⟩

theorem agree_of_disabled (hbuilt : p.rules.Built) {r : Rule} (hr : r ∈ p.rules.rules)
    (hdisabled : r.enabled = false) (request : UInt64) (workers : UInt32) :
    Agree p.rules.rules r.id ⟨request, (Refusal.disabledRule r.id).status, none⟩
      (p.reportOnAll context workers) := by
  have hordered : r.id ∉ (p.reportOnAll context workers).results.map (·.ruleId) := by
    rw [ruleIds_reportOnAll]
    intro hid
    obtain ⟨x, hx, hsame⟩ := List.mem_map.mp hid
    obtain ⟨hmem, henabled⟩ := RuleSet.mem_ordered.mp hx
    rw [hbuilt.eq_of_id_eq hmem hr hsame, hdisabled] at henabled
    cases henabled
  have hknown : ¬ ∀ x ∈ p.rules.rules, x.id ≠ r.id := fun h => h r hr rfl
  exact ⟨iff_of_false nofun hordered, nofun, fun _ => ⟨rfl, Or.inr rfl⟩,
    iff_of_false nofun hknown, iff_of_true rfl ⟨r, hr, rfl, hdisabled⟩⟩

theorem agree_of_enabled (hbuilt : p.rules.Built) {r : Rule} (hr : r ∈ p.rules.rules)
    (henabled : r.enabled = true) (request : UInt64) (workers : UInt32) :
    Agree p.rules.rules r.id
      ⟨request, ⟨.ok, "ok"⟩, some (.evaluate (.ofEvaluation (r.logic.evaluate context)))⟩
      (p.reportOnAll context workers) := by
  have hordered : r.id ∈ (p.reportOnAll context workers).results.map (·.ruleId) := by
    rw [ruleIds_reportOnAll]
    exact List.mem_map_of_mem (RuleSet.mem_ordered.mpr ⟨hr, henabled⟩)
  have honce : (p.reportOnAll context workers).results.filter (·.ruleId = r.id) =
      [RuleReport.ofRule context r] := by
    rw [results_reportOnAll, List.filter_map]
    exact congrArg (List.map _) (hbuilt.filter_ordered hr henabled)
  have hknown : ¬ ∀ x ∈ p.rules.rules, x.id ≠ r.id := fun h => h r hr rfl
  have hno : ¬ ∃ x ∈ p.rules.rules, x.id = r.id ∧ x.enabled = false := by
    rintro ⟨x, hx, hid, hdisabled⟩
    rw [hbuilt.eq_of_id_eq hx hr hid, henabled] at hdisabled
    cases hdisabled
  exact ⟨iff_of_true rfl hordered,
    fun _ => ⟨_, honce, rfl, mem_matchedIds_iff hbuilt hr henabled workers⟩,
    fun h => absurd rfl h, iff_of_false nofun hknown, iff_of_false nofun hno⟩

/-- Evaluating one rule and evaluating all of them agree. -/
theorem evaluate_agrees_with_evaluateAll (json : Json.Library) (p : Provider)
    (hbuilt : p.rules.Built) (context : Members) (id : String) (request others : UInt64)
    (workers : UInt32) :
    ∃ report,
      p.dispatch json ⟨others, some (.evaluateAll context workers)⟩ =
        ⟨others, ⟨.ok, "ok"⟩, some (.evaluateAll report)⟩ ∧
      Agree p.rules.rules id
        (p.dispatch json ⟨request, some (.evaluate (some (.ruleId id)) context)⟩) report := by
  refine ⟨p.reportOnAll context workers, rfl, ?_⟩
  cases hfind : p.rules.find? id with
  | none =>
    rw [dispatch_evaluate_of_unknown json request hfind]
    exact agree_of_unknown hfind request workers
  | some r =>
    obtain ⟨hr, rfl⟩ := RuleSet.mem_of_find? hfind
    cases henabled : r.enabled with
    | false =>
      rw [dispatch_evaluate_of_disabled json request hfind henabled]
      exact agree_of_disabled hbuilt hr henabled request workers
    | true =>
      rw [dispatch_evaluate_of_enabled json request hfind henabled]
      exact agree_of_enabled hbuilt hr henabled request workers

/-- A rule of this name that always matches and does nothing. -/
def idleRule (id : String) (enabled : Bool) : Rule :=
  ⟨id, id, 0, enabled, ⟨1, ⟨.and, []⟩, [], none⟩⟩

/-- A provider of an enabled and a disabled rule. -/
def idleProvider : Provider :=
  ⟨Provider.defaultName, 2, "", ⟨[idleRule "on" true, idleRule "off" false]⟩⟩

theorem built_idleProvider : idleProvider.rules.Built := by
  have hfirst : RuleSet.Built ⟨[idleRule "on" true]⟩ := .add (r := idleRule "on" true) .empty
  exact .add (r := idleRule "off" false) hfirst

/-- The disabled rule is refused, though it is there. -/
theorem evaluate_off_of_idleProvider :
    idleProvider.rules.Built ∧
      (idleProvider.dispatch Json.strict
        ⟨7, some (.evaluate (some (.ruleId "off")) [])⟩).status.code =
        .failedPrecondition := by
  obtain ⟨report, -, hagree⟩ :=
    evaluate_agrees_with_evaluateAll Json.strict idleProvider built_idleProvider [] "off" 7 8 0
  exact ⟨built_idleProvider, hagree.failedPrecondition_iff.mpr
    ⟨idleRule "off" false, by simp [idleProvider], rfl, rfl⟩⟩

end Provider
end Underwriting
