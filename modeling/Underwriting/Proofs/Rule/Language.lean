import Underwriting.Proofs.Number.Exact
import Underwriting.Proofs.Rule.WellFormed

/-! # The language of rule documents

What the document of a rule looks like, without a word about how it is read: which members
an object of each sort must and may have, and what stands under them. Groups are nested
without a bound here; how deep they nest is a number of its own.
-/
namespace Underwriting

/-! ## Members -/

namespace Members

def HasWord (α : Type) [Vocabulary α] (ms : Members) (key : String) : Prop :=
  ∃ w : α, ms.get? key = some (.word w)

/-- The same, or no such member. -/
def MayHaveWord (α : Type) [Vocabulary α] (ms : Members) (key : String) : Prop :=
  ms.get? key = none ∨ ms.HasWord α key

/-- A text, null, or no such member. -/
def MayHaveText (ms : Members) (key : String) : Prop :=
  ms.get? key = none ∨ ms.get? key = some .null ∨ ∃ s, ms.get? key = some (.string s)

def HasBoth (ms : Members) (key other : String) : Prop :=
  ms.contains key = true ∧ ms.contains other = true

instance (ms : Members) (key other : String) : Decidable (ms.HasBoth key other) :=
  inferInstanceAs (Decidable (_ ∧ _))

theorem contains_eq_true {ms : Members} {key : String} :
    ms.contains key = true ↔ ∃ v, ms.get? key = some v := Option.isSome_iff_exists

theorem contains_of_get? {ms : Members} {key : String} {v : Value} (h : ms.get? key = some v) :
    ms.contains key = true := contains_eq_true.mpr ⟨v, h⟩

end Members

/-! ## Documents -/

structure IsCondition (ms : Members) : Prop where
  field : ∃ s, ms.get? "field" = some (.string s)
  operator : ∃ operator : Operator, ms.get? "operator" = some (.word operator) ∧
    (operator ≠ .present → operator ≠ .absent → (ms.get? "value").isSome = true) ∧
    (operator = .between → ∃ low high, ms.get? "value" = some (.list [low, high]))
  valueType : ms.MayHaveWord ValueType "valueType"
  description : ms.MayHaveText "description"

structure IsAction (ms : Members) : Prop where
  type : ms.HasWord ActionKind "type"
  target : ms.MayHaveText "target"
  operator : ms.MayHaveWord Adjustment "operator"
  message : ms.MayHaveText "message"
  severity : ms.MayHaveWord Severity "severity"
  description : ms.MayHaveText "description"

mutual
/-- An object with a connective and a list of entries. -/
inductive IsGroup : Value → Prop where
  | intro {ms : Members} {items : List Value} :
    ms.HasWord Connective "op" → ms.get? "conditions" = some (.list items) →
      (∀ v ∈ items, IsEntry v) → IsGroup (.object ms)

/-- A group where both keys of groups are there; else a condition, if both keys of
conditions are. -/
inductive IsEntry : Value → Prop where
  | group {ms : Members} :
    ms.HasBoth "op" "conditions" → IsGroup (.object ms) → IsEntry (.object ms)
  | condition {ms : Members} :
    ¬ ms.HasBoth "op" "conditions" → ms.HasBoth "field" "operator" → IsCondition ms →
      IsEntry (.object ms)
end

def IsActionList (v : Value) : Prop :=
  ∃ items, v = .list items ∧ ∀ item ∈ items, ∃ ms, item = .object ms ∧ IsAction ms

mutual
/-- The number of groups inside one another in a value: an object is a group by its keys,
and inside it are the items under `conditions`. -/
def Value.groupDepth : Value → Nat
  | .object ms =>
    if Members.HasBoth ms "op" "conditions" then Value.conditionsDepth ms + 1 else 0
  | _ => 0

/-- The largest depth of the items under `conditions`. -/
def Value.conditionsDepth : List (String × Value) → Nat
  | [] => 0
  | (key, v) :: rest =>
    if key = "conditions" then Value.itemsDepth v else Value.conditionsDepth rest

def Value.itemsDepth : Value → Nat
  | .list items => Value.maxGroupDepth items
  | _ => 0

def Value.maxGroupDepth : List Value → Nat
  | [] => 0
  | v :: vs => max (Value.groupDepth v) (Value.maxGroupDepth vs)
end

structure IsRule (ms : Members) : Prop where
  version : ∀ v, ms.get? "version" = some v →
    ∃ x, v = .number x ∧ Binary64.IsWholeBetween (-2 ^ 31) (2 ^ 31 - 1) x
  condition : ∃ v, ms.get? "if" = some v ∧ IsGroup v ∧ v.groupDepth ≤ 8
  thenActions : ∃ v, ms.get? "then" = some v ∧ IsActionList v
  elseActions : ms.get? "else" = none ∨ ms.get? "else" = some .null ∨
    ∃ v, ms.get? "else" = some v ∧ IsActionList v

/-! ## Depth -/

namespace Value

theorem maxGroupDepth_le {vs : List Value} {n : Nat} :
    maxGroupDepth vs ≤ n ↔ ∀ v ∈ vs, v.groupDepth ≤ n := by
  induction vs with
  | nil => simp [maxGroupDepth]
  | cons v vs ih => rw [maxGroupDepth, Nat.max_le, ih, List.forall_mem_cons]

theorem conditionsDepth_eq {ms : Members} {v : Value} (h : ms.get? "conditions" = some v) :
    conditionsDepth ms = itemsDepth v := by
  induction ms with
  | nil => cases h
  | cons e rest ih =>
    obtain ⟨key, w⟩ := e
    rw [Members.get?] at h
    rw [conditionsDepth]
    split
    · rename_i hkey
      rw [if_pos hkey] at h
      rw [Option.some.inj h]
    · rename_i hkey
      rw [if_neg hkey] at h
      exact ih h

theorem groupDepth_group_le {ms : Members} {items : List Value} {n : Nat}
    (hop : ms.contains "op" = true) (hitems : ms.get? "conditions" = some (.list items)) :
    (Value.object ms).groupDepth ≤ n + 1 ↔ ∀ v ∈ items, v.groupDepth ≤ n := by
  have hkeys : ms.HasBoth "op" "conditions" := ⟨hop, Members.contains_of_get? hitems⟩
  rw [groupDepth, if_pos hkeys, conditionsDepth_eq hitems, itemsDepth, Nat.succ_le_succ_iff,
    maxGroupDepth_le]

end Value
end Underwriting
