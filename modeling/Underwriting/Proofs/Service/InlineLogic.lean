import Underwriting.Proofs.Evaluation.Order
import Underwriting.Proofs.Json.Strict
import Underwriting.Proofs.Rule.Layers
import Underwriting.Proofs.Service.Evaluation

/-! # Rules by name and rules by text

A request for an evaluation names a rule of the provider or brings a text along. The text of a
rule is read as that very rule, apart from the order of members, so both requests get the same
response.
-/
namespace Underwriting

/-! ## Reports -/

theorem Members.forall₂_self {ms : Members} (h : ∀ e ∈ ms, e.2.IsAtom) :
    List.Forall₂ (fun e d => e.1 = d.1 ∧ Value.Same e.2 d.2) ms ms :=
  List.forall₂_same.mpr fun e he => ⟨rfl, .atom (h e he)⟩

theorem Members.forall₂_optional (key : String) {v w : Option Value}
    (h : Option.Rel Value.Same v w) :
    List.Forall₂ (fun e d => e.1 = d.1 ∧ Value.Same e.2 d.2) (Members.optional key id v)
      (Members.optional key id w) := by
  cases h with
  | none => exact .nil
  | some hvalue => exact .cons ⟨rfl, hvalue⟩ .nil

theorem Condition.toValue_same {c d : Condition} (h : c.Same d) : c.toValue.Same d.toValue := by
  refine .object c.distinct_members d.distinct_members (Members.same_of_forall₂ ?_)
  rw [h.others]
  refine List.rel_append (List.rel_append (List.rel_append (Members.forall₂_self ?_)
    (Members.forall₂_optional _ h.value)) (Members.forall₂_self ?_)) (Members.forall₂_self ?_)
  · simp only [List.forall_mem_cons]
    exact ⟨trivial, trivial, by simp⟩
  · exact Members.forall_mem_optional _ fun _ _ => trivial
  · exact Members.forall_mem_unlessEmpty _ trivial

theorem Action.toValue_same {a b : Action} (h : a.Same b) : a.toValue.Same b.toValue := by
  refine .object a.distinct_members b.distinct_members (Members.same_of_forall₂ ?_)
  rw [h.others]
  refine List.rel_append (List.rel_append (List.rel_append (List.rel_append (List.rel_append
    (Members.forall₂_self ?_) (Members.forall₂_self ?_)) (Members.forall₂_optional _ h.value))
    (Members.forall₂_self ?_)) (Members.forall₂_self ?_)) (Members.forall₂_self ?_)
  · simp only [List.forall_mem_cons]
    exact ⟨trivial, trivial, by simp⟩
  · exact Members.forall_mem_optional _ fun _ _ => trivial
  · exact Members.forall_mem_optional _ fun _ _ => trivial
  · exact Members.forall_mem_optional _ fun _ _ => trivial
  · exact Members.forall_mem_unlessEmpty _ trivial

structure ConditionReport.Same (r s : ConditionReport) : Prop where
  expected : Option.Rel Value.Same r.expected s.expected
  condition : r.condition.Same s.condition
  others : s = { r with expected := s.expected, condition := s.condition }

/-- Reports that differ in the order of members at most. -/
structure EvaluationReport.Same (r s : EvaluationReport) : Prop where
  matched : r.matched = s.matched
  conditions : List.Forall₂ ConditionReport.Same r.conditions s.conditions
  actions : List.Forall₂ Value.Same r.actions s.actions
  messages : r.messages = s.messages
  blocked : r.blocked = s.blocked
  delta : (Value.object r.delta).Same (.object s.delta)

theorem ConditionReport.ofResult_same {r s : ConditionResult} (h : r.Same s) :
    (ofResult r).Same (ofResult s) := by
  refine ⟨h.expected, Condition.toValue_same h.condition, ?_⟩
  have hoperator : s.condition.operator = r.condition.operator := by rw [h.condition.others]
  have hfield : s.field = r.field := by rw [h.others]
  have hmatched : s.matched = r.matched := by rw [h.others]
  have hactual : s.actual = r.actual := by rw [h.others]
  simp only [ofResult, hoperator, hfield, hmatched, hactual]

theorem EvaluationReport.ofEvaluation_same {e f : Evaluation} (h : e.Same f) :
    (ofEvaluation e).Same (ofEvaluation f) where
  matched := h.matched
  conditions := List.rel_map (fun _ _ hresult => ConditionReport.ofResult_same hresult) h.conditions
  actions := List.rel_map (fun _ _ haction => Action.toValue_same haction) h.actions
  messages := h.messages
  blocked := h.blocked
  delta := h.delta

/-! ## Rules and their texts -/

namespace Logic
variable {json : Json.Library} {layout : Json.Layout} {l : Logic} {text : String}

theorem exists_ofJson_of_toJson (hjson : json.Lawful) (hwf : l.WellFormed)
    (hprintable : l.toValue.Printable) (hdepth : l.toValue.depth ≤ Json.maxNesting)
    (h : l.toJson json layout = .ok text) : ∃ m, ofJson json text = .ok m ∧ l.Same m := by
  obtain ⟨w, hparse⟩ := (hjson.exists_parse_iff hprintable h).mpr hdepth
  have hagree := ofValue_agree (hjson.same_of_parse hprintable h hparse)
  rw [ofValue_toValue_eq_ok.mpr ⟨hwf, rfl⟩] at hagree
  obtain ⟨m, hread, hsame⟩ := hagree.exists_of_ok
  exact ⟨m, ofJson_eq_ok_iff.mpr ⟨w, hparse, hread⟩, hsame⟩

theorem eq_of_ofJson_toJson (horder : json.KeepsOrder) (hprintable : l.toValue.Printable)
    (h : l.toJson json layout = .ok text) {m : Logic} (hread : ofJson json text = .ok m) :
    m = l := by
  obtain ⟨w, hparse, hvalue⟩ := ofJson_eq_ok_iff.mp hread
  obtain rfl := horder.eq_of_parse hprintable h hparse
  exact (ofValue_toValue_eq_ok.mp hvalue).2

end Logic

/-! ## Both requests -/

namespace Provider
variable {json : Json.Library} (p : Provider)

theorem dispatch_evaluate_of_text {text : String} {l : Logic}
    (hread : Logic.ofJson json text = .ok l) (context : Members) (request : UInt64) :
    p.dispatch json ⟨request, some (.evaluate (some (.json text)) context)⟩ =
      ⟨request, ⟨.ok, "ok"⟩, some (.evaluate (.ofEvaluation (l.evaluate context)))⟩ := by
  apply dispatch_of_answered
  intro r
  simp only [handle, evaluate, logicOf, hread, Except.mapError]

/-- The text of an enabled rule evaluates like the rule itself. The rule was read from some
document, and its own document has finite numbers, nothing unset and one value under each key,
and nests at most 32 levels deep; then it has a text, and a request that brings the text along
gets the same report as the request that names the rule. If the library keeps the order of
members, the responses are equal to the last member. -/
theorem evaluate_text_eq_evaluate_rule (hjson : json.Lawful) (hbuilt : p.rules.Built) {r : Rule}
    (hr : r ∈ p.rules.rules) (henabled : r.enabled = true) {v : Value}
    (hread : Logic.ofValue v = .ok r.logic) (hprintable : r.logic.toValue.PrintableWithin 32)
    (layout : Json.Layout) :
    ∃ text, r.logic.toJson json layout = .ok text ∧ ∀ request context,
      p.dispatch json ⟨request, some (.evaluate (some (.ruleId r.id)) context)⟩ =
          ⟨request, ⟨.ok, "ok"⟩, some (.evaluate (.ofEvaluation (r.logic.evaluate context)))⟩ ∧
        (∃ report,
          p.dispatch json ⟨request, some (.evaluate (some (.json text)) context)⟩ =
            ⟨request, ⟨.ok, "ok"⟩, some (.evaluate report)⟩ ∧
          (EvaluationReport.ofEvaluation (r.logic.evaluate context)).Same report) ∧
        (json.KeepsOrder →
          p.dispatch json ⟨request, some (.evaluate (some (.json text)) context)⟩ =
            p.dispatch json ⟨request, some (.evaluate (some (.ruleId r.id)) context)⟩) := by
  have hwf := Logic.wellFormed_of_ofValue hread
  obtain ⟨hsome, hdepth⟩ := Value.printableWithin_iff.mp hprintable
  obtain ⟨text, hprint⟩ := hjson.exists_print layout hsome
  obtain ⟨m, hagain, hsame⟩ := Logic.exists_ofJson_of_toJson hjson hwf hsome hdepth hprint
  have hfind : p.rules.find? r.id = some r := hbuilt.find?_eq_some_iff.mpr ⟨hr, rfl⟩
  refine ⟨text, hprint, fun request context => ?_⟩
  rw [dispatch_evaluate_of_enabled json request hfind henabled,
    p.dispatch_evaluate_of_text hagain context request]
  refine ⟨rfl, ⟨_, rfl, ?_⟩, fun horder => ?_⟩
  · exact EvaluationReport.ofEvaluation_same (Logic.evaluate_same hsame context)
  · rw [Logic.eq_of_ofJson_toJson horder hsome hprint hagain]

/-- A rule that is read from its text, with a range and an empty other branch. -/
def coastalText : String :=
  "\x7b\"if\":\x7b\"op\":\"OR\",\"conditions\":[\x7b\"field\":\"miles\"," ++
    "\"operator\":\"between\",\"value\":[0.5,5]\x7d]\x7d,\"then\":[],\"else\":[]\x7d"

theorem isOk_coastalText : (Logic.ofJson Json.strict coastalText).isOk = true := by
  decide +kernel

def only (r : Rule) : Provider := ⟨Provider.defaultName, 1, "", ⟨[r]⟩⟩

/-- Its text, written with one member a line, evaluates like the rule. -/
theorem evaluate_coastalText :
    ∃ l printed, Logic.ofJson Json.strict coastalText = .ok l ∧
      l.toJson Json.strict .pretty = .ok printed ∧
      ∀ request context,
        (only ⟨"coast", "", 5, true, l⟩).dispatch Json.strict
            ⟨request, some (.evaluate (some (.json printed)) context)⟩ =
          (only ⟨"coast", "", 5, true, l⟩).dispatch Json.strict
            ⟨request, some (.evaluate (some (.ruleId "coast")) context)⟩ := by
  obtain ⟨l, hl⟩ : ∃ l, Logic.ofJson Json.strict coastalText = .ok l := by
    cases hread : Logic.ofJson Json.strict coastalText with
    | ok l => exact ⟨l, rfl⟩
    | error e => cases hread ▸ isOk_coastalText
  obtain ⟨v, hparse, hread⟩ := Logic.ofJson_eq_ok_iff.mp hl
  have hprintable := Logic.layered_of_ofValue Value.layered_printable hread
    (Json.printableWithin_of_strict_parse hparse)
  have hbuilt : (only ⟨"coast", "", 5, true, l⟩).rules.Built :=
    .add (r := ⟨"coast", "", 5, true, l⟩) .empty
  obtain ⟨printed, hprinted, hsame⟩ := evaluate_text_eq_evaluate_rule _ Json.strict_lawful hbuilt
    (List.mem_singleton.mpr rfl) rfl hread hprintable .pretty
  refine ⟨l, printed, hl, hprinted, fun request context => ?_⟩
  obtain ⟨-, -, hequal⟩ := hsame request context
  exact hequal Json.strict_keepsOrder

end Provider
end Underwriting
