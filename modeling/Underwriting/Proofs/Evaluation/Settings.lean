import Underwriting.Evaluation.Actions
import Underwriting.Proofs.Context.Writes

/-! # What setting actions do

An action sets a value if it is of that kind, has a value and its target lies below a section
of the context. What it gives to the target depends on the present value alone. A delta is
what the results of such actions leave, written one after the other.
-/
namespace Underwriting
namespace Action

def Sets (a : Action) : Prop :=
  a.kind = .set ∧ a.value.isSome = true ∧
    ∃ name ∈ contextNamespaces, ∃ rest, rest ≠ "" ∧ a.target = name ++ "." ++ rest

/-- What an action gives to its target in place of the present value. -/
def result? (a : Action) (current : Option Value) : Option Value :=
  match a.adjustment, current, a.value with
  | none, _, value => value
  | some .equals, _, value => value
  | some .add, some (.number x), some (.number y) => some (.number (x + y))
  | some .subtract, some (.number x), some (.number y) => some (.number (x - y))
  | some .multiply, some (.number x), some (.number y) => some (.number (x * y))
  | some .divide, some (.number x), some (.number y) =>
    if y == 0.0 then none else some (.number (x / y))
  | _, _, _ => none

theorem isSome_setting?_iff (a : Action) : a.setting?.isSome = true ↔ a.Sets := by
  unfold setting? Sets
  rw [← Path.isWritable_iff]
  split
  · rename_i h
    simp [h]
  · rename_i h
    simp only [Option.isSome_none, Bool.false_eq_true, false_iff]
    rintro ⟨hkind, -, hwritable⟩
    exact h ⟨hkind, hwritable⟩

instance (a : Action) : Decidable a.Sets := decidable_of_iff _ a.isSome_setting?_iff

theorem setting?_of_sets {a : Action} (h : a.Sets) : a.setting? = a.value := by
  have hwritable := (Path.isWritable_iff a.target).mpr h.2.2
  rw [setting?, if_pos ⟨h.1, hwritable⟩]

theorem setting?_of_not_sets {a : Action} (h : ¬ a.Sets) : a.setting? = none := by
  rw [← isSome_setting?_iff, Bool.not_eq_true, Option.isSome_eq_false_iff] at h
  exact Option.isNone_iff_eq_none.mp h

theorem result?_eq_adjust? {a : Action} {value : Value} (h : a.value = some value)
    (current : Option Value) :
    a.result? current = adjust? (a.adjustment.getD .equals) current value := by
  unfold result? adjust?
  rw [h]
  cases a.adjustment with
  | none => rfl
  | some adjustment =>
    cases current with
    | none => cases adjustment <;> rfl
    | some current =>
      cases adjustment <;> cases current <;> cases value <;> simp [calculate?, apply_ite]

theorem effect?_eq (context delta : Members) (a : Action) :
    a.effect? context delta =
      if a.Sets then a.result? ((delta.resolve a.target).or (context.resolve a.target))
      else none := by
  unfold effect?
  by_cases hsets : a.Sets
  · obtain ⟨value, hvalue⟩ := Option.isSome_iff_exists.mp hsets.2.1
    rw [setting?_of_sets hsets, hvalue, if_pos hsets, result?_eq_adjust? hvalue]
  · rw [setting?_of_not_sets hsets, if_neg hsets]

end Action

/-! ## Deltas as writes -/

def writesFrom (context delta : Members) : List Action → List (List String × Value)
  | [] => []
  | a :: actions =>
    ((a.effect? context delta).map fun v => (Path.segments a.target, v)).toList ++
      writesFrom context (a.applyTo context delta) actions

def deltaWrites (context : Members) (actions : List Action) : List (List String × Value) :=
  writesFrom context [] actions

theorem writesFrom_append (context delta : Members) (before after : List Action) :
    writesFrom context delta (before ++ after) =
      writesFrom context delta before ++
        writesFrom context (before.foldl (Action.applyTo context) delta) after := by
  induction before generalizing delta with
  | nil => rfl
  | cons a before ih =>
    rw [List.cons_append, writesFrom, writesFrom, ih, List.foldl_cons, List.append_assoc]

theorem deltaWrites_concat (context : Members) (before : List Action) (a : Action) :
    deltaWrites context (before ++ [a]) =
      deltaWrites context before ++
        ((a.effect? context (contextDelta context before)).map
          fun v => (Path.segments a.target, v)).toList := by
  rw [deltaWrites, writesFrom_append, writesFrom, writesFrom, List.append_nil]
  rfl

theorem contextDelta_concat (context : Members) (before : List Action) (a : Action) :
    contextDelta context (before ++ [a]) = a.applyTo context (contextDelta context before) := by
  rw [contextDelta, List.foldl_append]
  rfl

theorem contextDelta_eq_writeAll (context : Members) (actions : List Action) :
    contextDelta context actions = Members.writeAll [] (deltaWrites context actions) := by
  induction actions using List.reverseRecOn with
  | nil => rfl
  | append_singleton before a ih =>
    rw [contextDelta_concat, deltaWrites_concat, Action.applyTo]
    cases heffect : a.effect? context (contextDelta context before) with
    | none => simpa using ih
    | some v =>
      rw [Option.map_some, Option.toList_some, Members.writeAll_concat, ← ih]
      rfl

theorem mem_deltaWrites {context : Members} {actions : List Action} {w : List String × Value} :
    w ∈ deltaWrites context actions ↔
      ∃ before a after v, actions = before ++ a :: after ∧
        a.effect? context (contextDelta context before) = some v ∧
          w = (Path.segments a.target, v) := by
  constructor
  · intro hw
    induction actions using List.reverseRecOn with
    | nil => cases hw
    | append_singleton actions last ih =>
      rw [deltaWrites_concat] at hw
      rcases List.mem_append.mp hw with hw | hw
      · obtain ⟨before, a, after, v, rfl, heffect, rfl⟩ := ih hw
        exact ⟨before, a, after ++ [last], v, by simp, heffect, rfl⟩
      · rw [Option.mem_toList, Option.map_eq_some_iff] at hw
        obtain ⟨v, heffect, rfl⟩ := hw
        exact ⟨actions, last, [], v, rfl, heffect, rfl⟩
  · rintro ⟨before, a, after, v, rfl, heffect, rfl⟩
    have hsplit : before ++ a :: after = (before ++ [a]) ++ after := by simp
    rw [hsplit, deltaWrites, writesFrom_append, List.mem_append]
    refine Or.inl ?_
    rw [← deltaWrites, deltaWrites_concat, heffect]
    simp

theorem ne_nil_of_mem_deltaWrites {context : Members} {actions : List Action} :
    ∀ w ∈ deltaWrites context actions, w.1 ≠ [] := by
  intro w hw
  obtain ⟨_, a, _, _, _, _, rfl⟩ := mem_deltaWrites.mp hw
  exact Path.segments_ne_nil a.target

end Underwriting
