import Underwriting.Proofs.RuleSet.Parallel
import Underwriting.Proofs.Tree.Trace

/-! # Rule sets in priority order

The enabled rules of a set stand by descending priority, those of one priority in the order
in which they were added. What the set reports is read off the meanings of their condition
trees and the branches that these select, in that order.
-/
namespace Underwriting

/-! ## One rule -/

/-- The actions of the branch that the meaning of the condition tree selects. -/
def Logic.branch (l : Logic) (context : Members) : List Action :=
  if l.condition.denotes context then l.thenActions else l.elseActions.getD []

theorem Action.report?_eq_some_iff {a : Action} {m : RuleMessage} :
    a.report? = some m ↔ a.message = some m.text ∧
      (a.kind = .addMessage ∧ m.severity = a.severity.getD .info ∨
        a.kind = .block ∧ m.severity = .error) := by
  obtain ⟨text, severity⟩ := m
  unfold report?
  cases hmessage : a.message with
  | none => cases a.kind <;> simp
  | some text' => cases a.kind <;> simp [eq_comm]

theorem Logic.matched_evaluate (l : Logic) (context : Members) :
    (l.evaluate context).matched = l.condition.denotes context :=
  congrArg GroupResult.matched (Entry.evaluateAll_eq l.condition.connective l.condition.entries)

theorem Logic.actions_evaluate (l : Logic) (context : Members) :
    (l.evaluate context).actions = l.branch context := by
  change l.select (l.evaluate context).matched = l.branch context
  rw [matched_evaluate]
  rfl

theorem Logic.messages_evaluate (l : Logic) (context : Members) :
    (l.evaluate context).messages = (l.branch context).filterMap Action.report? := by
  rw [← actions_evaluate]
  rfl

theorem Logic.blocked_evaluate (l : Logic) (context : Members) :
    (l.evaluate context).blocked = true ↔ ∃ a ∈ l.branch context, a.kind = .block := by
  change (l.evaluate context).actions.any Action.isBlock = true ↔ _
  rw [actions_evaluate, List.any_eq_true]
  simp only [Action.isBlock, decide_eq_true_eq]

namespace RuleSet

/-! ## The order of rules -/

theorem ordered_perm (s : RuleSet) : s.ordered.Perm (s.rules.filter (·.enabled)) :=
  List.mergeSort_perm _ _

theorem mem_ordered {s : RuleSet} {r : Rule} :
    r ∈ s.ordered ↔ r ∈ s.rules ∧ r.enabled = true := by
  rw [(ordered_perm s).mem_iff, List.mem_filter]

theorem priority_trans (a b c : Rule) (hab : decide (b.priority ≤ a.priority) = true)
    (hbc : decide (c.priority ≤ b.priority) = true) :
    decide (c.priority ≤ a.priority) = true := by
  rw [decide_eq_true_eq] at hab hbc ⊢
  exact Int32.le_trans hbc hab

theorem priority_total (a b : Rule) :
    (decide (b.priority ≤ a.priority) || decide (a.priority ≤ b.priority)) = true := by
  rw [Bool.or_eq_true, decide_eq_true_eq, decide_eq_true_eq]
  exact Int32.le_total _ _

theorem ordered_sorted (s : RuleSet) :
    s.ordered.Pairwise fun a b => b.priority ≤ a.priority := by
  have hsorted := List.pairwise_mergeSort priority_trans priority_total
    (s.rules.filter (·.enabled))
  exact hsorted.imp fun h => of_decide_eq_true h

/-- Sorting does not move rules of one priority past each other: they are in order already,
so they are still a sublist, and none can have come in between. -/
theorem filter_priority_ordered (s : RuleSet) (priority : Int32) :
    s.ordered.filter (·.priority = priority) =
      (s.rules.filter (·.enabled)).filter (·.priority = priority) := by
  have hsame : ((s.rules.filter (·.enabled)).filter (·.priority = priority)).Pairwise
      fun a b => decide (b.priority ≤ a.priority) = true := by
    refine List.pairwise_of_forall_mem_list ?_
    intro a ha b hb
    have hpa : a.priority = priority := by simpa using (List.mem_filter.mp ha).2
    have hpb : b.priority = priority := by simpa using (List.mem_filter.mp hb).2
    rw [decide_eq_true_eq, hpa, hpb]
    exact Int32.le_refl _
  have hsub := List.sublist_mergeSort priority_trans priority_total hsame List.filter_sublist
  have hfiltered := hsub.filter (·.priority = priority)
  rw [List.filter_filter] at hfiltered
  simp only [Bool.and_self] at hfiltered
  have hlength := ((ordered_perm s).filter (·.priority = priority)).length_eq
  exact (hfiltered.eq_of_length hlength.symm).symm

/-! ## What a set reports -/

theorem outcomeOf_evaluations (rules : List Rule) (context : Members) :
    outcomeOf rules (rules.map fun r => r.logic.evaluate context) =
      summarize (rules.map fun r => ⟨r.id, r.priority, r.logic.evaluate context⟩) := by
  rw [outcomeOf, List.zipWith_map_right]
  congr 1
  induction rules with
  | nil => rfl
  | cons r rules ih => rw [List.zipWith_cons_cons, ih, List.map_cons]

theorem evaluateAll_eq_summarize (s : RuleSet) (context : Members) (workers : Nat) :
    s.evaluateAll context workers =
      summarize (s.ordered.map fun r => ⟨r.id, r.priority, r.logic.evaluate context⟩) := by
  rw [evaluateAll_eq, outcomeOf_evaluations]

theorem matchedIds_evaluateAll (s : RuleSet) (context : Members) (workers : Nat) :
    (s.evaluateAll context workers).matchedIds =
      (s.ordered.filter fun r => r.logic.condition.denotes context).map (·.id) := by
  rw [evaluateAll_eq_summarize, summarize, List.filter_map, List.map_map]
  simp only [Function.comp_def, Logic.matched_evaluate]

theorem messages_evaluateAll (s : RuleSet) (context : Members) (workers : Nat) :
    (s.evaluateAll context workers).messages =
      s.ordered.flatMap fun r => (r.logic.branch context).filterMap Action.report? := by
  rw [evaluateAll_eq_summarize, summarize, List.flatMap_map]
  simp only [Logic.messages_evaluate]

theorem blocked_evaluateAll (s : RuleSet) (context : Members) (workers : Nat) :
    (s.evaluateAll context workers).blocked = true ↔
      ∃ r ∈ s.rules, r.enabled = true ∧ ∃ a ∈ r.logic.branch context, a.kind = .block := by
  rw [evaluateAll_eq_summarize, summarize, List.any_map, List.any_eq_true]
  simp only [Function.comp_apply, Logic.blocked_evaluate, mem_ordered, and_assoc]

/-- A set evaluates its enabled rules by descending priority, first come first served, and
reports each outcome, the matched rules, the messages and whether one blocks in that order.
Matching is the meaning of a rule's conditions; messages and blocks are those of the branch
that the meaning selects. -/
theorem evaluateAll_in_priority_order (s : RuleSet) (context : Members) (workers : Nat) :
    (s.ordered.Perm (s.rules.filter (·.enabled)) ∧
      (s.ordered.Pairwise fun a b => b.priority ≤ a.priority) ∧
      ∀ priority, s.ordered.filter (·.priority = priority) =
        (s.rules.filter (·.enabled)).filter (·.priority = priority)) ∧
    (s.evaluateAll context workers).outcomes =
      (s.ordered.map fun r => ⟨r.id, r.priority, r.logic.evaluate context⟩) ∧
    (s.evaluateAll context workers).matchedIds =
      (s.ordered.filter fun r => r.logic.condition.denotes context).map (·.id) ∧
    ((s.evaluateAll context workers).messages =
      (s.ordered.flatMap fun r => (r.logic.branch context).filterMap Action.report?) ∧
      ∀ (a : Action) (m : RuleMessage), a.report? = some m ↔ a.message = some m.text ∧
        (a.kind = .addMessage ∧ m.severity = a.severity.getD .info ∨
          a.kind = .block ∧ m.severity = .error)) ∧
    ((s.evaluateAll context workers).blocked = true ↔
      ∃ r ∈ s.rules, r.enabled = true ∧ ∃ a ∈ r.logic.branch context, a.kind = .block) := by
  refine ⟨⟨ordered_perm s, ordered_sorted s, filter_priority_ordered s⟩, ?_,
    matchedIds_evaluateAll s context workers,
    ⟨messages_evaluateAll s context workers, fun _ _ => Action.report?_eq_some_iff⟩,
    blocked_evaluateAll s context workers⟩
  rw [evaluateAll_eq_summarize]
  rfl

end RuleSet
end Underwriting
