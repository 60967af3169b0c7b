import Underwriting.Evaluation.Conditions
import Underwriting.Proofs.Tree.Leaves

/-! # Dual condition trees

The dual of a tree has AND for OR and OR for AND, and asks of each condition the opposite.
Its evaluation comes to the same conditions in the same order and finds the opposite
everywhere: what settles a group also settles its dual.
-/
namespace Underwriting

def Operator.dual : Operator → Operator
  | .equals => .notEquals
  | .notEquals => .equals
  | .memberOf => .notMemberOf
  | .notMemberOf => .memberOf
  | .present => .absent
  | .absent => .present
  | other => other

def Connective.dual : Connective → Connective
  | .and => .or
  | .or => .and

def Condition.dual (c : Condition) : Condition := { c with operator := c.operator.dual }

mutual
def Entry.dual : Entry → Entry
  | .condition c => .condition c.dual
  | .group connective entries => .group connective.dual (Entry.duals entries)

def Entry.duals : List Entry → List Entry
  | [] => []
  | e :: es => Entry.dual e :: Entry.duals es
end

def ConditionGroup.dual (g : ConditionGroup) : ConditionGroup :=
  ⟨g.connective.dual, Entry.duals g.entries⟩

/-- The operators that have an opposite, and the lists that two of them ask for. -/
structure Condition.Dualizable (c : Condition) : Prop where
  operator : c.operator ∈ [.equals, .notEquals, .memberOf, .notMemberOf, .present, .absent]
  members : c.operator = .memberOf ∨ c.operator = .notMemberOf →
    ∃ items, c.value = some (.list items)

/-- The opposite outcome of the dual condition, for the same operands. -/
def ConditionResult.dual (r : ConditionResult) : ConditionResult :=
  { r with condition := r.condition.dual, matched := !r.matched }

def GroupResult.dual (r : GroupResult) : GroupResult := ⟨!r.matched, r.trace.map .dual⟩

/-! ## One condition -/

/-- Without a list, neither membership operator holds, so the hypothesis on `members` stays. -/
theorem Condition.Dualizable.compare_dual {c : Condition} (h : c.Dualizable)
    (actual : Option Value) :
    c.operator.dual.compare actual c.value = !c.operator.compare actual c.value := by
  obtain ⟨hoperator, hmembers⟩ := h
  simp only [List.mem_cons, List.not_mem_nil, or_false] at hoperator
  rcases hoperator with h | h | h | h | h | h
  · rw [h]
    rfl
  · rw [h]
    exact (Bool.not_not _).symm
  · obtain ⟨items, hitems⟩ := hmembers (Or.inl h)
    rw [h, hitems]
    rfl
  · obtain ⟨items, hitems⟩ := hmembers (Or.inr h)
    rw [h, hitems]
    exact (Bool.not_not _).symm
  · rw [h]
    rfl
  · rw [h]
    exact (Bool.not_not _).symm

section Evaluation
variable (context : Members)

theorem Condition.evaluate_dual {c : Condition} (h : c.Dualizable) :
    c.dual.evaluate context = (c.evaluate context).dual := by
  have hcompare := h.compare_dual (context.resolve c.field)
  simp only [Condition.dual, evaluate, ConditionResult.dual, hcompare]

/-! ## Trees -/

theorem Connective.isDecided_dual (k : Connective) (b : Bool) :
    k.dual.isDecided (!b) = k.isDecided b := by
  cases k
  · rfl
  · exact Bool.not_not b

theorem Connective.otherwise_dual (k : Connective) : k.dual.otherwise = !k.otherwise := by
  cases k <;> rfl

mutual
theorem Entry.evaluate_dual : (e : Entry) → (∀ leaf ∈ e.leaves, leaf.condition.Dualizable) →
    e.dual.evaluate context = (e.evaluate context).dual
  | .condition c => by
    intro h
    have hc : c.Dualizable := h ⟨[], c⟩ (List.mem_singleton.mpr rfl)
    simp only [dual, evaluate, GroupResult.dual, c.evaluate_dual context hc, List.map_cons,
      List.map_nil]
    rfl
  | .group k es => by
    intro h
    rw [dual, evaluate, evaluate]
    exact Entry.evaluateAll_dual k es (forall_leaves_group.mp h)

theorem Entry.evaluateAll_dual (k : Connective) :
    (es : List Entry) → (∀ e ∈ es, ∀ leaf ∈ e.leaves, leaf.condition.Dualizable) →
      evaluateAll context k.dual (duals es) = (evaluateAll context k es).dual
  | [] => by
    intro _
    simp only [duals, evaluateAll, GroupResult.dual, k.otherwise_dual, List.map_nil]
  | e :: es => by
    intro h
    obtain ⟨hfirst, hothers⟩ := List.forall_mem_cons.mp h
    have hfirst := Entry.evaluate_dual e hfirst
    have hothers := Entry.evaluateAll_dual k es hothers
    -- AND stops at the first entry that fails exactly where OR stops at the first that holds
    have hdecided : k.dual.isDecided (e.dual.evaluate context).matched =
        k.isDecided (e.evaluate context).matched := by
      rw [hfirst]
      exact k.isDecided_dual _
    rw [duals, evaluateAll, evaluateAll]
    simp only [hdecided]
    split
    · exact hfirst
    · rw [hfirst, hothers]
      simp only [GroupResult.dual, List.map_append]
end

/-- The dual of a tree holds exactly when the tree does not, and the two traces tell of the
same conditions with the same operands, each with the opposite outcome. -/
theorem ConditionGroup.evaluate_dual_opposite (g : ConditionGroup)
    (h : ∀ leaf ∈ g.leaves, leaf.condition.Dualizable) :
    (g.dual.evaluate context).matched = (!(g.evaluate context).matched) ∧
      (g.dual.evaluate context).trace = (g.evaluate context).trace.map ConditionResult.dual := by
  have hdual : g.dual.evaluate context = (g.evaluate context).dual :=
    Entry.evaluateAll_dual context g.connective g.entries (Entry.forall_leaves_group.mp h)
  rw [hdual]
  exact ⟨rfl, rfl⟩

end Evaluation

def coastalHouse : ConditionGroup :=
  ⟨.and, [.condition ⟨"state", .memberOf, some (.list [.string "FL", .string "LA"]), none, ""⟩,
    .group .or [.condition ⟨"roof", .absent, none, none, ""⟩,
      .condition ⟨"roof", .equals, some (.string "old"), none, ""⟩]]⟩

/-- The unknown roof settles the nested group, and its dual as well. -/
theorem coastalHouse_dual :
    (∀ leaf ∈ coastalHouse.leaves, leaf.condition.Dualizable) ∧
      (coastalHouse.evaluate [("state", .string "FL")]).matched = true ∧
      (coastalHouse.dual.evaluate [("state", .string "FL")]).matched = false ∧
      (coastalHouse.dual.evaluate [("state", .string "FL")]).trace.map
        (fun r => (r.field, r.condition.operator, r.matched)) =
          [("state", .notMemberOf, false), ("roof", .present, false)] := by
  have hleaves : ∀ leaf ∈ coastalHouse.leaves, leaf.condition.Dualizable := by
    intro leaf hleaf
    simp only [coastalHouse, ConditionGroup.leaves, ConditionGroup.toEntry, Entry.leaves,
      Entry.leavesFrom, List.map_cons, List.map_nil, List.cons_append, List.nil_append,
      List.mem_cons, List.not_mem_nil, or_false] at hleaf
    rcases hleaf with rfl | rfl | rfl
    · exact ⟨by decide, fun _ => ⟨_, rfl⟩⟩
    · exact ⟨by decide, fun h => by simp [Leaf.within] at h⟩
    · exact ⟨by decide, fun h => by simp [Leaf.within] at h⟩
  have hmatched : (coastalHouse.evaluate [("state", .string "FL")]).matched = true := by
    decide +kernel
  obtain ⟨hdual, htrace⟩ := coastalHouse.evaluate_dual_opposite [("state", .string "FL")] hleaves
  refine ⟨hleaves, hmatched, ?_, ?_⟩
  · rw [hdual, hmatched]
    rfl
  · rw [htrace]
    decide +kernel

end Underwriting
