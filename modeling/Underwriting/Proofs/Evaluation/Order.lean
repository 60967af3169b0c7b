import Underwriting.Evaluation.Basic
import Underwriting.Proofs.Rule.Order
import Underwriting.Proofs.Value.Equality

/-! # Evaluation and the order of members

Rules that differ in the order of members of the values that they hold come to the same
results in every context: the same conditions are reached and hold, and the same changes are
described, up to that order.
-/
namespace Underwriting

/-! ## Operators -/

namespace Comparison

theorem hasItem_same {items others : List Value} (h : List.Forall₂ Value.Same items others)
    (v : Option Value) : hasItem items v = hasItem others v := by
  cases v with
  | none => rfl
  | some v =>
    simp only [hasItem]
    induction h with
    | nil => rfl
    | cons hfirst _ ih => rw [List.any_cons, List.any_cons, Value.same_equals v hfirst, ih]

theorem item_same (items : List Value) {v w : Value} (h : v.Same w) :
    hasItem items (some v) = hasItem items (some w) := by
  simp only [hasItem, fun item => Value.equals_same item h]

theorem bound?_same {v w : Value} (h : v.Same w) : bound? v = bound? w := by
  cases h <;> rfl

section Expected
variable (actual : Option Value) {v w : Value} (h : v.Same w)
include h

theorem sameValue_same : sameValue actual (some v) = sameValue actual (some w) := by
  cases actual with
  | none => rfl
  | some a => exact Value.equals_same a h

theorem isMember?_same : isMember? actual (some v) = isMember? actual (some w) := by
  cases h with
  | atom _ => rfl
  | list hitems => exact congrArg some (hasItem_same hitems actual)
  | object _ _ _ => rfl

theorem holds?_same : holds? actual (some v) = holds? actual (some w) := by
  rcases actual with _ | (_ | _ | _ | _ | text | items | _)
  case some.list => exact congrArg some (item_same items h)
  case some.string => cases h <;> rfl
  all_goals rfl

theorem onNumbers_same (rel : Float → Float → Bool) :
    onNumbers rel actual (some v) = onNumbers rel actual (some w) := by
  cases h with
  | atom _ => rfl
  | list _ | object _ _ _ => rcases actual with _ | (_ | _ | _ | _ | _ | _ | _) <;> rfl

theorem onTexts_same (rel : String → String → Bool) :
    onTexts rel actual (some v) = onTexts rel actual (some w) := by
  cases h with
  | atom _ => rfl
  | list _ | object _ _ _ => rcases actual with _ | (_ | _ | _ | _ | _ | _ | _) <;> rfl

theorem isWithin_same : isWithin actual (some v) = isWithin actual (some w) := by
  cases h with
  | atom _ => rfl
  | object _ _ _ => rcases actual with _ | (_ | _ | _ | _ | _ | _ | _) <;> rfl
  | list hitems =>
    rcases actual with _ | (_ | _ | _ | x | _ | _ | _)
    case some.number =>
      rcases hitems with _ | ⟨hlow, _ | ⟨hhigh, _ | ⟨-, -⟩⟩⟩
      case cons.cons.nil => simp only [isWithin, bound?_same hlow, bound?_same hhigh]
      all_goals rfl
    all_goals rfl

end Expected
end Comparison

open Comparison in
/-- No operator looks at the order of members in what is expected. -/
theorem Operator.compare_same (operator : Operator) (actual : Option Value)
    {expected others : Option Value} (h : Option.Rel Value.Same expected others) :
    operator.compare actual expected = operator.compare actual others := by
  cases h with
  | none => rfl
  | some h =>
    cases operator with
    | present | absent => rfl
    | _ =>
      simp only [compare, sameValue_same actual h, isMember?_same actual h, holds?_same actual h,
        onNumbers_same actual h, onTexts_same actual h, isWithin_same actual h]

/-! ## Conditions -/

structure ConditionResult.Same (r s : ConditionResult) : Prop where
  condition : r.condition.Same s.condition
  expected : Option.Rel Value.Same r.expected s.expected
  others : s = { r with condition := s.condition, expected := s.expected }

structure GroupResult.Same (r s : GroupResult) : Prop where
  matched : r.matched = s.matched
  trace : List.Forall₂ ConditionResult.Same r.trace s.trace

variable {context : Members}

theorem Condition.evaluate_same {c d : Condition} (h : c.Same d) :
    (c.evaluate context).Same (d.evaluate context) := by
  have hmatched := c.operator.compare_same (context.resolve c.field) h.value
  refine ⟨h, h.value, ?_⟩
  rw [h.others]
  simp only [evaluate, hmatched]

mutual
theorem Entry.evaluate_same : (e : Entry) → {f : Entry} → e.Same f →
    (Entry.evaluate context e).Same (Entry.evaluate context f)
  | .condition c, _, .condition h => by
    have hresult : (c.evaluate context).Same _ := Condition.evaluate_same h
    rw [Entry.evaluate, Entry.evaluate]
    refine ⟨?_, .cons hresult .nil⟩
    rw [hresult.others]
  | .group connective entries, _, .group h => by
    rw [Entry.evaluate, Entry.evaluate]
    exact Entry.evaluateAll_same connective entries h

/-- Evaluation stops at the same entry. -/
theorem Entry.evaluateAll_same (connective : Connective) : (es : List Entry) →
    {fs : List Entry} → List.Forall₂ Entry.Same es fs →
    (Entry.evaluateAll context connective es).Same (Entry.evaluateAll context connective fs)
  | [], _, .nil => ⟨rfl, .nil⟩
  | e :: es, _, .cons hfirst hothers => by
    obtain ⟨hmatched, htrace⟩ := Entry.evaluate_same e hfirst
    rw [Entry.evaluateAll, Entry.evaluateAll, ← hmatched]
    split
    · exact ⟨hmatched, htrace⟩
    · obtain ⟨hrest, hresttrace⟩ := Entry.evaluateAll_same connective es hothers
      exact ⟨hrest, List.rel_append htrace hresttrace⟩
end

/-! ## Reading and writing at paths -/

theorem rel_getElem? {α β : Type} {R : α → β → Prop} {xs : List α} {ys : List β}
    (h : List.Forall₂ R xs ys) (i : Nat) : Option.Rel R xs[i]? ys[i]? := by
  induction h generalizing i with
  | nil => exact .none
  | cons hfirst _ ih =>
    cases i with
    | zero => exact .some hfirst
    | succ i => exact ih i

namespace Value
variable {v w : Value}

theorem step_same (h : v.Same w) (segment : String) :
    Option.Rel Same (v.step segment) (w.step segment) := by
  cases h with
  | atom hatom =>
    cases v with
    | list | object => exact hatom.elim
    | _ => exact .none
  | list hitems =>
    simp only [step]
    cases Path.index? segment with
    | none => exact .none
    | some i => exact rel_getElem? hitems i
  | object _ _ hmembers => exact hmembers segment

theorem follow_same (h : v.Same w) (segments : List String) :
    Option.Rel Same (v.follow segments) (w.follow segments) := by
  induction segments generalizing v w with
  | nil => exact .some h
  | cons segment segments ih =>
    rw [follow, follow]
    have hstep := step_same h segment
    generalize v.step segment = v' at hstep
    generalize w.step segment = w' at hstep
    cases hstep with
    | none => exact .none
    | some hnext => exact ih hnext

theorem membersOrEmpty_same {v w : Option Value} (h : Option.Rel Same v w) :
    (object (membersOrEmpty v)).Same (object (membersOrEmpty w)) := by
  have hempty : (object []).Same (object []) := .object .nil .nil fun _ => .none
  cases h with
  | none => exact hempty
  | @some v w h =>
    cases h with
    | @object ms others hms hothers hmembers => exact .object hms hothers hmembers
    | list _ => exact hempty
    | atom hatom =>
      cases v with
      | list | object => exact hatom.elim
      | _ => exact hempty

end Value

namespace Members
variable {ms others : Members} {v w : Value}

theorem insert_same (h : (Value.object ms).Same (.object others)) (hvalue : v.Same w)
    (key : String) :
    (Value.object (ms.insert key v)).Same (.object (others.insert key w)) := by
  cases h with
  | atom hatom => exact hatom.elim
  | object hms hothers hmembers =>
    refine .object (hms.insert key v) (hothers.insert key w) fun other => ?_
    by_cases hkey : other = key
    · rw [hkey, get?_insert_self, get?_insert_self]
      exact .some hvalue
    · rw [get?_insert_of_ne _ _ hkey, get?_insert_of_ne _ _ hkey]
      exact hmembers other

theorem writeAt_same (h : (Value.object ms).Same (.object others)) (hvalue : v.Same w)
    (segments : List String) :
    (Value.object (ms.writeAt segments v)).Same (.object (others.writeAt segments w)) := by
  induction segments generalizing ms others with
  | nil => exact h
  | cons segment segments ih =>
    cases segments with
    | nil => exact insert_same h hvalue segment
    | cons next segments =>
      obtain ⟨_, ⟨⟩, hmembers⟩ := h.exists_of_object
      exact insert_same h (ih (Value.membersOrEmpty_same (hmembers segment))) segment

end Members

/-! ## Actions -/

namespace Action
variable {a b : Action}

theorem report?_same (h : a.Same b) : a.report? = b.report? := by
  rw [h.others]
  rfl

theorem isBlock_same (h : a.Same b) : a.isBlock = b.isBlock := by
  rw [h.others]
  rfl

theorem reports_same {actions others : List Action} (h : List.Forall₂ Same actions others) :
    actions.filterMap report? = others.filterMap report? := by
  induction h with
  | nil => rfl
  | cons hfirst _ ih => rw [List.filterMap_cons, List.filterMap_cons, report?_same hfirst, ih]

theorem blocks_same {actions others : List Action} (h : List.Forall₂ Same actions others) :
    actions.any isBlock = others.any isBlock := by
  induction h with
  | nil => rfl
  | cons hfirst _ ih => rw [List.any_cons, List.any_cons, isBlock_same hfirst, ih]

theorem setting?_same (h : a.Same b) : Option.Rel Value.Same a.setting? b.setting? := by
  have hvalue := h.value
  rw [h.others]
  simp only [setting?]
  split
  · exact hvalue
  · exact .none

def operand? : Option Value → Option Float
  | some (.number x) => some x
  | _ => none

theorem operand?_same {v w : Option Value} (h : Option.Rel Value.Same v w) :
    operand? v = operand? w := by
  cases h with
  | none => rfl
  | some h => cases h <;> rfl

/-- Adjustments other than replacement look at numbers only, and give numbers. -/
theorem adjust?_eq_bind {adjustment : Adjustment} (h : adjustment ≠ .equals)
    (current : Option Value) (v : Value) :
    adjust? adjustment current v =
      (operand? current).bind fun x => (operand? (some v)).bind fun y =>
        (calculate? adjustment x y).map .number := by
  cases adjustment with
  | equals => exact absurd rfl h
  | _ =>
    rcases current with _ | (_ | _ | _ | x | _ | _ | _)
    case some.number => cases v <;> rfl
    all_goals rfl

theorem adjust?_same (adjustment : Adjustment) {current current' : Option Value}
    (hcurrent : operand? current = operand? current') {v w : Value} (h : v.Same w) :
    Option.Rel Value.Same (adjust? adjustment current v) (adjust? adjustment current' w) := by
  by_cases hequals : adjustment = .equals
  · subst hequals
    exact .some h
  · rw [adjust?_eq_bind hequals, adjust?_eq_bind hequals, hcurrent, operand?_same (.some h)]
    cases operand? current' with
    | none => exact .none
    | some x =>
      cases operand? (some w) with
      | none => exact .none
      | some y =>
        cases hresult : calculate? adjustment x y with
        | none => simp [hresult]
        | some z => simpa [hresult] using .atom trivial

variable {delta delta' : Members}

theorem effect?_same (hdelta : (Value.object delta).Same (.object delta')) (h : a.Same b) :
    Option.Rel Value.Same (a.effect? context delta) (b.effect? context delta') := by
  have hsetting := setting?_same h
  have hadjustment : b.adjustment = a.adjustment := by rw [h.others]
  have htarget : b.target = a.target := by rw [h.others]
  have hpresent : operand? ((delta.resolve a.target).or (context.resolve a.target)) =
      operand? ((delta'.resolve a.target).or (context.resolve a.target)) := by
    have hresolve : Option.Rel Value.Same (delta.resolve a.target) (delta'.resolve a.target) :=
      Value.follow_same hdelta (Path.segments a.target)
    generalize delta.resolve a.target = v at hresolve
    generalize delta'.resolve a.target = w at hresolve
    cases hresolve with
    | none => rfl
    | some hvalue => exact operand?_same (.some hvalue)
  rw [effect?, effect?, hadjustment, htarget]
  generalize a.setting? = v at hsetting
  generalize b.setting? = w at hsetting
  cases hsetting with
  | none => exact .none
  | some hvalue => exact adjust?_same _ hpresent hvalue

theorem applyTo_same (hdelta : (Value.object delta).Same (.object delta')) (h : a.Same b) :
    (Value.object (a.applyTo context delta)).Same (.object (b.applyTo context delta')) := by
  have heffect : Option.Rel Value.Same (a.effect? context delta) (b.effect? context delta') :=
    effect?_same hdelta h
  have htarget : b.target = a.target := by rw [h.others]
  rw [applyTo, applyTo, htarget]
  generalize a.effect? context delta = v at heffect
  generalize b.effect? context delta' = w at heffect
  cases heffect with
  | none => exact hdelta
  | some hvalue => exact Members.writeAt_same hdelta hvalue _

end Action

theorem contextDelta_same {actions others : List Action}
    (h : List.Forall₂ Action.Same actions others) :
    (Value.object (contextDelta context actions)).Same (.object (contextDelta context others)) := by
  have hfold {delta delta' : Members} (hdelta : (Value.object delta).Same (.object delta')) :
      (Value.object (actions.foldl (Action.applyTo context) delta)).Same
        (.object (others.foldl (Action.applyTo context) delta')) := by
    induction h generalizing delta delta' with
    | nil => exact hdelta
    | cons hfirst _ ih => exact ih (Action.applyTo_same hdelta hfirst)
  exact hfold (.object .nil .nil fun _ => .none)

/-! ## Rules -/

/-- Evaluations that differ in the order of members at most. -/
structure Evaluation.Same (e f : Evaluation) : Prop where
  matched : e.matched = f.matched
  conditions : List.Forall₂ ConditionResult.Same e.conditions f.conditions
  actions : List.Forall₂ Action.Same e.actions f.actions
  messages : e.messages = f.messages
  blocked : e.blocked = f.blocked
  delta : (Value.object e.delta).Same (.object f.delta)

namespace Logic
variable {l m : Logic}

theorem select_same (h : l.Same m) (matched : Bool) :
    List.Forall₂ Action.Same (l.select matched) (m.select matched) := by
  unfold select
  split
  · exact h.thenActions
  · exact Option.Rel.casesOn h.elseActions id .nil

theorem evaluate_same (h : l.Same m) (context : Members) :
    (l.evaluate context).Same (m.evaluate context) := by
  have htree : (l.condition.evaluate context).Same (m.condition.evaluate context) := by
    rw [ConditionGroup.evaluate, ConditionGroup.evaluate, ← h.condition.connective]
    exact Entry.evaluateAll_same _ _ h.condition.entries
  have hactions := select_same h (l.condition.evaluate context).matched
  rw [evaluate, evaluate, ← htree.matched]
  exact ⟨rfl, htree.trace, hactions, Action.reports_same hactions, Action.blocks_same hactions,
    contextDelta_same hactions⟩

end Logic
end Underwriting
