import Underwriting.Evaluation.Conditions
import Underwriting.Proofs.Text.Parts

/-! # Laws of the operators

Operators that ask the same thing in two ways agree, whatever kinds their operands have. Only
some of them are negated outright; the others come in pairs of which neither holds when the
operands are not of the kinds that they ask for.
-/
namespace Underwriting

theorem isSome_iff_holds_or_opposite (outcome : Option Bool) :
    (outcome.getD false = true ∨ (outcome.map (!·)).getD false = true) ↔
      outcome.isSome = true := by
  rcases outcome with _ | _ | _ <;> decide

theorem not_holds_and_opposite (outcome : Option Bool) :
    ¬ (outcome.getD false = true ∧ (outcome.map (!·)).getD false = true) := by
  rcases outcome with _ | _ | _ <;> decide

namespace Comparison
variable {actual expected : Option Value}

theorem isSome_isMember?_iff :
    (isMember? actual expected).isSome = true ↔ ∃ items, expected = some (.list items) := by
  unfold isMember?
  split
  · simp
  · rename_i hlist
    simpa using hlist

theorem isSome_holds?_iff :
    (holds? actual expected).isSome = true ↔
      (∃ text part, actual = some (.string text) ∧ expected = some (.string part)) ∨
        ∃ items, actual = some (.list items) := by
  unfold holds?
  split
  · simp
  · simp
  · rename_i hlist htexts
    simp only [Option.isSome_none, Bool.false_eq_true, false_iff, not_or, not_exists]
    exact ⟨fun text part h => htexts text part h.1 h.2, hlist⟩

theorem exists_of_onNumbers {rel : Float → Float → Bool}
    (h : onNumbers rel actual expected = true) :
    ∃ x y, actual = some (.number x) ∧ expected = some (.number y) ∧ rel x y = true := by
  unfold onNumbers at h
  split at h
  · exact ⟨_, _, rfl, rfl, h⟩
  · cases h

theorem exists_of_onTexts {rel : String → String → Bool}
    (h : onTexts rel actual expected = true) :
    ∃ s t, actual = some (.string s) ∧ expected = some (.string t) ∧ rel s t = true := by
  unfold onTexts at h
  split at h
  · exact ⟨_, _, rfl, rfl, h⟩
  · cases h

theorem kind_of_bound? {v : Value} {x : Float} (h : bound? v = some x) :
    v.kind = .number ∨ v.kind = .string := by
  unfold bound? at h
  split at h
  · exact Or.inl rfl
  · exact Or.inr rfl
  · cases h

theorem exists_of_isWithin (h : isWithin actual expected = true) :
    ∃ x low high, actual = some (.number x) ∧ expected = some (.list [low, high]) ∧
      (low.kind = .number ∨ low.kind = .string) ∧
      (high.kind = .number ∨ high.kind = .string) := by
  unfold isWithin at h
  split at h
  · rename_i x low high
    split at h
    · rename_i hlow hhigh
      exact ⟨x, low, high, rfl, rfl, kind_of_bound? hlow, kind_of_bound? hhigh⟩
    · cases h
  · cases h

end Comparison

namespace Operator
open Comparison
variable (actual expected : Option Value)

/-- What the operators say of two operands, one operator compared with another. -/
structure Laws : Prop where
  notEquals : notEquals.compare actual expected = !equals.compare actual expected
  absent : absent.compare actual expected = !present.compare actual expected
  membership : ¬ (memberOf.compare actual expected = true ∧
    notMemberOf.compare actual expected = true)
  membership_iff : (memberOf.compare actual expected = true ∨
    notMemberOf.compare actual expected = true) ↔ ∃ items, expected = some (.list items)
  containment : ¬ (contains.compare actual expected = true ∧
    notContains.compare actual expected = true)
  containment_iff : (contains.compare actual expected = true ∨
    notContains.compare actual expected = true) ↔
      (∃ text part, actual = some (.string text) ∧ expected = some (.string part)) ∨
        ∃ items, actual = some (.list items)
  ends : startsWith.compare actual expected = true ∨ endsWith.compare actual expected = true →
    contains.compare actual expected = true
  numbers : ∀ operator ∈ [greater, greaterOrEqual, less, lessOrEqual],
    operator.compare actual expected = true →
      ∃ x y, actual = some (.number x) ∧ expected = some (.number y)
  bounds : between.compare actual expected = true →
    ∃ x low high, actual = some (.number x) ∧ expected = some (.list [low, high]) ∧
      (low.kind = .number ∨ low.kind = .string) ∧ (high.kind = .number ∨ high.kind = .string)
  texts : ∀ operator ∈ [startsWith, endsWith, matchesPattern],
    operator.compare actual expected = true →
      ∃ s t, actual = some (.string s) ∧ expected = some (.string t)

theorem contains_of_end
    (h : startsWith.compare actual expected = true ∨ endsWith.compare actual expected = true) :
    contains.compare actual expected = true := by
  rcases h with h | h
  · obtain ⟨text, part, rfl, rfl, hprefix⟩ := exists_of_onTexts h
    exact Text.occursIn_eq_true_iff.mpr (List.isPrefixOf_iff_prefix.mp hprefix).isInfix
  · obtain ⟨text, part, rfl, rfl, hsuffix⟩ := exists_of_onTexts h
    exact Text.occursIn_eq_true_iff.mpr (List.isSuffixOf_iff_suffix.mp hsuffix).isInfix

theorem numbers_of_order {operator : Operator}
    (hoperator : operator ∈ [greater, greaterOrEqual, less, lessOrEqual])
    (h : operator.compare actual expected = true) :
    ∃ x y, actual = some (.number x) ∧ expected = some (.number y) := by
  simp only [List.mem_cons, List.not_mem_nil, or_false] at hoperator
  rcases hoperator with rfl | rfl | rfl | rfl
  all_goals
    obtain ⟨x, y, hx, hy, -⟩ := exists_of_onNumbers h
    exact ⟨x, y, hx, hy⟩

theorem texts_of_pattern {operator : Operator}
    (hoperator : operator ∈ [startsWith, endsWith, matchesPattern])
    (h : operator.compare actual expected = true) :
    ∃ s t, actual = some (.string s) ∧ expected = some (.string t) := by
  simp only [List.mem_cons, List.not_mem_nil, or_false] at hoperator
  rcases hoperator with rfl | rfl | rfl
  all_goals
    obtain ⟨s, t, hs, ht, -⟩ := exists_of_onTexts h
    exact ⟨s, t, hs, ht⟩

theorem between_numbers (low high : Float) :
    between.compare actual (some (.list [.number low, .number high])) =
      (greaterOrEqual.compare actual (some (.number low)) &&
        lessOrEqual.compare actual (some (.number high))) := by
  rcases actual with _ | v
  · rfl
  · cases v <;> rfl

theorem laws : Laws actual expected where
  notEquals := rfl
  absent := rfl
  membership := not_holds_and_opposite _
  membership_iff := (isSome_iff_holds_or_opposite _).trans isSome_isMember?_iff
  containment := not_holds_and_opposite _
  containment_iff := (isSome_iff_holds_or_opposite _).trans isSome_holds?_iff
  ends := contains_of_end actual expected
  numbers _ hoperator := numbers_of_order actual expected hoperator
  bounds := exists_of_isWithin
  texts _ hoperator := texts_of_pattern actual expected hoperator

/-- Nothing is known of an absent value but that it is absent and not the expected one. -/
theorem compare_none_iff (operator : Operator) (v : Value) :
    operator.compare none (some v) = true ↔
      operator = .notEquals ∨ (operator = .notMemberOf ∧ ∃ items, v = .list items) ∨
        operator = .absent := by
  cases operator with
  | memberOf | notMemberOf => cases v <;> simp [compare, isMember?, hasItem]
  | _ => simp [compare, sameValue, onNumbers, holds?, isPresent, isWithin, onTexts]

/-- The operators agree with one another on operands of every kind. A condition with a value
whose field is absent holds only where that is what it asks for, and where it denies that the
field has the value or one of a list. -/
theorem compare_consistent :
    (∀ actual expected, Laws actual expected) ∧
    (∀ items x, memberOf.compare x (some (.list items)) = contains.compare (some (.list items)) x ∧
      notMemberOf.compare x (some (.list items)) =
        notContains.compare (some (.list items)) x) ∧
    (∀ actual low high, between.compare actual (some (.list [.number low, .number high])) =
      (greaterOrEqual.compare actual (some (.number low)) &&
        lessOrEqual.compare actual (some (.number high)))) ∧
    ∀ (context : Members) (c : Condition) (v : Value), c.value = some v →
      context.resolve c.field = none →
      ((c.evaluate context).matched = true ↔ c.operator = .notEquals ∨
        (c.operator = .notMemberOf ∧ ∃ items, v = .list items) ∨ c.operator = .absent) := by
  refine ⟨laws, fun items x => ⟨rfl, rfl⟩, between_numbers, ?_⟩
  intro context c v hvalue habsent
  rw [← compare_none_iff, Condition.evaluate, hvalue, habsent]

/-- A roof that is neither old nor leaking, as far as is known. -/
def soundRoof : Condition :=
  ⟨"risk.roof", .notMemberOf, some (.list [.string "old", .string "leaking"]), none, ""⟩

/-- Where nothing is known of the roof, it is none of these. -/
theorem soundRoof_unknown :
    Members.resolve [("risk", .object [])] soundRoof.field = none ∧
      (soundRoof.evaluate [("risk", .object [])]).matched = true := by
  have habsent : Members.resolve [("risk", .object [])] soundRoof.field = none := by
    decide +kernel
  obtain ⟨-, -, -, hcondition⟩ := compare_consistent
  exact ⟨habsent, (hcondition _ soundRoof _ rfl habsent).mpr (Or.inr (Or.inl ⟨rfl, _, rfl⟩))⟩

end Operator
end Underwriting
