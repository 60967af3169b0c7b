import Underwriting.Proofs.Rule.Readers
import Underwriting.Proofs.Tree.Leaves

/-! # Well-formed rules

A rule is well formed when its groups do not nest too deep and each condition has the
expected value that its operator asks for. Decoding gives well-formed rules only.
-/
namespace Underwriting

structure Condition.WellFormed (c : Condition) : Prop where
  value : c.operator ≠ .present → c.operator ≠ .absent → c.value.isSome = true
  range : c.operator = .between → ∃ low high, c.value = some (.list [low, high])

mutual
def Entry.depth : Entry → Nat
  | .condition _ => 0
  | .group _ entries => Entry.depthOfAll entries + 1

def Entry.depthOfAll : List Entry → Nat
  | [] => 0
  | e :: es => max (Entry.depth e) (Entry.depthOfAll es)
end

/-- Groups nest at most eight levels deep, the outermost one included. -/
structure Logic.WellFormed (l : Logic) : Prop where
  depth : l.condition.toEntry.depth ≤ 8
  conditions : ∀ leaf ∈ l.condition.leaves, leaf.condition.WellFormed

/-! ## Trees within a depth -/

namespace Entry

theorem depthOfAll_le {es : List Entry} {n : Nat} :
    depthOfAll es ≤ n ↔ ∀ e ∈ es, e.depth ≤ n := by
  induction es with
  | nil => simp [depthOfAll]
  | cons e es ih => rw [depthOfAll, Nat.max_le, ih, List.forall_mem_cons]

/-- Groups nest at most this many levels deep, and the conditions are well formed. -/
def WellFormedWithin (levels : Nat) (e : Entry) : Prop :=
  e.depth ≤ levels ∧ ∀ leaf ∈ e.leaves, leaf.condition.WellFormed

theorem wellFormedWithin_condition {levels : Nat} {c : Condition} :
    (Entry.condition c).WellFormedWithin levels ↔ c.WellFormed := by
  simp [WellFormedWithin, depth, leaves]

theorem not_wellFormedWithin_zero (k : Connective) (es : List Entry) :
    ¬ (Entry.group k es).WellFormedWithin 0 := by
  simp [WellFormedWithin, depth]

theorem wellFormedWithin_group {levels : Nat} {k : Connective} {es : List Entry} :
    (Entry.group k es).WellFormedWithin (levels + 1) ↔
      ∀ e ∈ es, e.WellFormedWithin levels := by
  have hdepth : (Entry.group k es).depth ≤ levels + 1 ↔ ∀ e ∈ es, e.depth ≤ levels := by
    rw [depth, Nat.succ_le_succ_iff, depthOfAll_le]
  simp only [WellFormedWithin, hdepth, forall_leaves_group (P := Condition.WellFormed)]
  constructor
  · rintro ⟨hd, hl⟩ e he
    exact ⟨hd e he, hl e he⟩
  · intro h
    exact ⟨fun e he => (h e he).1, fun e he => (h e he).2⟩

end Entry

theorem Logic.wellFormed_iff {l : Logic} :
    l.WellFormed ↔ l.condition.toEntry.WellFormedWithin maxGroupDepth :=
  ⟨fun h => ⟨h.depth, h.conditions⟩, fun h => ⟨h.1, h.2⟩⟩

/-! ## What decoding gives -/

theorem Operator.checkValue_eq_ok {operator : Operator} {value : Option Value} :
    operator.checkValue value = .ok () ↔
      (operator ≠ .present → operator ≠ .absent → value.isSome = true) ∧
        (operator = .between → ∃ low high, value = some (.list [low, high])) := by
  have hneeds : (operator.requiresValue && value.isNone) = true ↔
      operator ≠ .present ∧ operator ≠ .absent ∧ value = none := by
    cases operator <;> simp [requiresValue]
  unfold checkValue
  by_cases hmissing : (operator.requiresValue && value.isNone) = true
  · obtain ⟨hpresent, habsent, hnone⟩ := hneeds.mp hmissing
    rw [if_pos hmissing]
    simp [hpresent, habsent, hnone]
  · have hvalue : operator ≠ .present → operator ≠ .absent → value.isSome = true := by
      intro hpresent habsent
      rw [Option.isSome_iff_ne_none]
      intro hnone
      exact hmissing (hneeds.mpr ⟨hpresent, habsent, hnone⟩)
    rw [if_neg hmissing]
    by_cases hrange : operator = .between
    · rw [if_pos hrange]
      constructor
      · intro h
        refine ⟨hvalue, fun _ => ?_⟩
        split at h
        · exact ⟨_, _, rfl⟩
        · cases h
      · rintro ⟨-, h⟩
        obtain ⟨low, high, rfl⟩ := h hrange
        rfl
    · rw [if_neg hrange]
      exact ⟨fun _ => ⟨hvalue, fun h => absurd h hrange⟩, fun _ => rfl⟩

theorem Condition.ofMembers_eq_ok {ms : Members} {c : Condition} :
    Condition.ofMembers ms = .ok c ↔
      ms.get? "field" = some (.string c.field) ∧
      ms.get? "operator" = some (.word c.operator) ∧
      ms.get? "value" = c.value ∧
      ms.get? "valueType" = c.valueType.map .word ∧
      (∃ description, ms.optionalString "description" = .ok description ∧
        description.getD "" = c.description) ∧
      c.WellFormed := by
  simp only [ofMembers, except_bind_eq_ok, except_pure_eq_ok, Members.string_eq_ok,
    Members.word_eq_ok, Members.optionalWord_eq_ok]
  constructor
  · rintro ⟨field, hfield, operator, hoperator, valueType, hvalueType, description,
      hdescription, ⟨⟩, hcheck, rfl⟩
    obtain ⟨hvalue, hrange⟩ := Operator.checkValue_eq_ok.mp hcheck
    exact ⟨hfield, hoperator, rfl, hvalueType, ⟨description, hdescription, rfl⟩, hvalue, hrange⟩
  · rintro ⟨hfield, hoperator, hvalue, hvalueType, ⟨description, hdescription, htext⟩, hwf⟩
    refine ⟨c.field, hfield, c.operator, hoperator, c.valueType, hvalueType, description,
      hdescription, (), ?_, ?_⟩
    · rw [hvalue]
      exact Operator.checkValue_eq_ok.mpr ⟨hwf.value, hwf.range⟩
    · rw [hvalue, htext]

/-- A group is read from a value within these levels only if it is well formed within them,
provided that this holds of the groups nested in it. -/
theorem Entry.wellFormedWithin_of_ofValue {levels : Nat}
    {nested : Location → Value → Except DecodeError ConditionGroup}
    (hnested : ∀ location v g, nested location v = .ok g → g.toEntry.WellFormedWithin levels)
    {location : Location} {v : Value} {e : Entry}
    (h : Entry.ofValue nested location v = .ok e) : e.WellFormedWithin levels := by
  simp only [ofValue, except_bind_eq_ok, Location.check_eq_ok] at h
  obtain ⟨ms, -, shape, -, h⟩ := h
  cases shape with
  | group =>
    obtain ⟨g, hg, hpure⟩ := except_bind_eq_ok.mp h
    obtain rfl := except_pure_eq_ok.mp hpure
    exact hnested location v g hg
  | condition =>
    obtain ⟨c, hc, hpure⟩ := except_bind_eq_ok.mp h
    obtain rfl := except_pure_eq_ok.mp hpure
    obtain ⟨-, -, -, -, -, hwf⟩ := Condition.ofMembers_eq_ok.mp (Location.check_eq_ok.mp hc)
    exact wellFormedWithin_condition.mpr hwf

theorem ConditionGroup.wellFormedWithin_of_ofValue {levels : Nat} {location : Location}
    {v : Value} {g : ConditionGroup} (h : ConditionGroup.ofValue levels location v = .ok g) :
    g.toEntry.WellFormedWithin levels := by
  induction levels generalizing location v g with
  | zero => cases h
  | succ levels ih =>
    simp only [ofValue, except_bind_eq_ok, except_pure_eq_ok] at h
    obtain ⟨ms, -, connective, -, items, -, entries, hentries, rfl⟩ := h
    refine Entry.wellFormedWithin_group.mpr ?_
    intro e he
    obtain ⟨i, v, -, hread⟩ := exists_read_of_mem hentries he
    exact Entry.wellFormedWithin_of_ofValue (fun _ _ _ hg => ih hg) hread

theorem Logic.wellFormed_of_ofValue {v : Value} {l : Logic} (h : Logic.ofValue v = .ok l) :
    l.WellFormed := by
  simp only [ofValue, except_bind_eq_ok, except_pure_eq_ok] at h
  obtain ⟨ms, -, version, -, tree, -, condition, hcondition, h⟩ := h
  obtain ⟨actions, -, thenActions, -, elseActions, -, rfl⟩ := h
  exact Logic.wellFormed_iff.mpr (ConditionGroup.wellFormedWithin_of_ofValue hcondition)

theorem Logic.ofJson_eq_ok_iff {json : Json.Library} {text : String} {l : Logic} :
    ofJson json text = .ok l ↔ ∃ v, json.parse text = .ok v ∧ ofValue v = .ok l := by
  rw [ofJson]
  cases hparse : json.parse text with
  | error e => simp
  | ok v => simp [except_mapError_eq_ok]

end Underwriting
