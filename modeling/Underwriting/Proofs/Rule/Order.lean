import Underwriting.Proofs.Rule.Readers
import Underwriting.Proofs.Value.Order

/-! # Reading rules whatever the order of members

Readers look members up by their keys. So documents that differ only in the order of members
are refused for the same fault at the same place, or give rules that differ only in the order
of members of the values that they hold.
-/
namespace Underwriting

/-- The same error, or related results. -/
inductive Agree {α β ε : Type} (R : α → β → Prop) : Except ε α → Except ε β → Prop where
  | ok {a : α} {b : β} : R a b → Agree R (.ok a) (.ok b)
  | error (e : ε) : Agree R (.error e) (.error e)

namespace Agree
variable {α β γ δ ε : Type} {R : α → β → Prop} {S : γ → δ → Prop}

theorem bind {x : Except ε α} {y : Except ε β} {f : α → Except ε γ} {g : β → Except ε δ}
    (h : Agree R x y) (hfg : ∀ a b, R a b → Agree S (f a) (g b)) :
    Agree S (x >>= f) (y >>= g) := by
  cases h with
  | ok hab => exact hfg _ _ hab
  | error e => exact .error e

theorem after {x : Except ε α} {f : α → Except ε γ} {g : α → Except ε δ}
    (hfg : ∀ a, Agree S (f a) (g a)) : Agree S (x >>= f) (x >>= g) := by
  cases x with
  | ok a => exact hfg a
  | error e => exact .error e

theorem map {x : Except ε α} {y : Except ε β} {f : α → γ} {g : β → δ} (h : Agree R x y)
    (hfg : ∀ a b, R a b → S (f a) (g b)) : Agree S (x.map f) (y.map g) := by
  cases h with
  | ok hab => exact .ok (hfg _ _ hab)
  | error e => exact .error e

theorem exists_of_ok {a : α} {y : Except ε β} (h : Agree R (.ok a) y) :
    ∃ b, y = .ok b ∧ R a b := by
  cases h with
  | ok hab => exact ⟨_, rfl, hab⟩

theorem check {x : Except Fault α} {y : Except Fault β} (h : Agree R x y) (location : Location) :
    Agree R (location.check x) (location.check y) := by
  cases h with
  | ok hab => exact .ok hab
  | error fault => exact .error (DecodeError.mk location fault)

end Agree

/-! ## Rules -/

structure Condition.Same (c d : Condition) : Prop where
  value : Option.Rel Value.Same c.value d.value
  others : d = { c with value := d.value }

inductive Entry.Same : Entry → Entry → Prop where
  | condition {c d : Condition} : c.Same d → Same (.condition c) (.condition d)
  | group {connective : Connective} {entries others : List Entry} :
    List.Forall₂ Same entries others → Same (.group connective entries) (.group connective others)

structure ConditionGroup.Same (g h : ConditionGroup) : Prop where
  connective : g.connective = h.connective
  entries : List.Forall₂ Entry.Same g.entries h.entries

structure Action.Same (a b : Action) : Prop where
  value : Option.Rel Value.Same a.value b.value
  others : b = { a with value := b.value }

/-- Rules that differ at most in the order of members of the values that they hold. -/
structure Logic.Same (l m : Logic) : Prop where
  version : l.version = m.version
  condition : l.condition.Same m.condition
  thenActions : List.Forall₂ Action.Same l.thenActions m.thenActions
  elseActions : Option.Rel (List.Forall₂ Action.Same) l.elseActions m.elseActions

/-! ## Members -/

namespace Members
variable {ms others : Members}

theorem expect_agree {v w : Value} (h : v.Same w) : Agree Same (expect v) (expect w) := by
  cases v with
  | object ms =>
    obtain ⟨others, rfl, hmembers⟩ := h.exists_of_object
    exact .ok hmembers
  | list items =>
    obtain ⟨others, rfl, -⟩ := h.exists_of_list
    exact .error _
  | _ =>
    cases h
    exact .error _

section
variable (h : ms.Same others) (key : String)
include h

theorem contains_same : ms.contains key = others.contains key := by
  unfold contains
  exact Option.Rel.casesOn (h key) (fun _ => rfl) rfl

theorem string_same : ms.string key = others.string key := by
  unfold string
  refine Option.Rel.casesOn (h key) (fun hvalue => ?_) rfl
  cases hvalue <;> rfl

theorem optionalString_same : ms.optionalString key = others.optionalString key := by
  unfold optionalString
  refine Option.Rel.casesOn (h key) (fun hvalue => ?_) rfl
  cases hvalue <;> rfl

theorem integer_same (default : Int32) : ms.integer key default = others.integer key default := by
  unfold integer
  refine Option.Rel.casesOn (h key) (fun hvalue => ?_) rfl
  cases hvalue <;> rfl

theorem boolean_same (default : Bool) : ms.boolean key default = others.boolean key default := by
  unfold boolean
  refine Option.Rel.casesOn (h key) (fun hvalue => ?_) rfl
  cases hvalue <;> rfl

theorem word_same (α : Type) [Vocabulary α] :
    (ms.word key : Except Fault α) = others.word key := by
  unfold word
  rw [string_same h key]

theorem optionalWord_same (α : Type) [Vocabulary α] :
    (ms.optionalWord key : Except Fault (Option α)) = others.optionalWord key := by
  unfold optionalWord
  rw [contains_same h key, word_same h key α]

theorem required_agree : Agree Value.Same (ms.required key) (others.required key) := by
  unfold required
  exact Option.Rel.casesOn (h key) .ok (.error _)

theorem list_agree : Agree (List.Forall₂ Value.Same) (ms.list key) (others.list key) := by
  unfold list
  refine Option.Rel.casesOn (h key) (fun {v w} hvalue => ?_) (.error _)
  cases v with
  | list items =>
    obtain ⟨others, rfl, hitems⟩ := hvalue.exists_of_list
    exact .ok hitems
  | object members =>
    obtain ⟨others, rfl, -⟩ := hvalue.exists_of_object
    exact .error _
  | _ =>
    cases hvalue
    exact .error _

end
end Members

/-! ## Conditions and actions -/

theorem Operator.checkValue_same (operator : Operator) {v w : Option Value}
    (h : Option.Rel Value.Same v w) : operator.checkValue v = operator.checkValue w := by
  have hrange (items others : List Value) (hitems : List.Forall₂ Value.Same items others) :
      operator.checkValue (some (.list items)) = operator.checkValue (some (.list others)) := by
    unfold checkValue
    rcases hitems with _ | ⟨-, _ | ⟨-, _ | ⟨-, -⟩⟩⟩ <;> rfl
  cases h with
  | none => rfl
  | some h =>
    cases h with
    | atom _ => rfl
    | list hitems => exact hrange _ _ hitems
    | object _ _ _ => rfl

theorem Condition.ofMembers_agree {ms others : Members} (h : ms.Same others) :
    Agree Condition.Same (ofMembers ms) (ofMembers others) := by
  simp only [ofMembers, ← Members.string_same h, ← Members.word_same h _ Operator,
    ← Members.optionalWord_same h _ ValueType, ← Members.optionalString_same h,
    ← Operator.checkValue_same _ (h "value")]
  refine .after fun field => .after fun operator => .after fun valueType =>
    .after fun description => .after fun _ => .ok ?_
  exact ⟨h "value", rfl⟩

theorem Action.ofMembers_agree {ms others : Members} (h : ms.Same others) :
    Agree Action.Same (ofMembers ms) (ofMembers others) := by
  simp only [ofMembers, ← Members.word_same h _ ActionKind, ← Members.optionalString_same h,
    ← Members.optionalWord_same h _ Adjustment, ← Members.optionalWord_same h _ Severity]
  refine .after fun kind => .after fun target => .after fun adjustment => .after fun message =>
    .after fun severity => .after fun description => .ok ?_
  exact ⟨h "value", rfl⟩

/-! ## Lists and trees -/

theorem readEach_agree {α β ε : Type} {R : α → β → Prop} {read : Nat → Value → Except ε α}
    {read' : Nat → Value → Except ε β} {items others : List Value}
    (h : ∀ i v w, v.Same w → Agree R (read i v) (read' i w))
    (hitems : List.Forall₂ Value.Same items others) (i : Nat) :
    Agree (List.Forall₂ R) (readEach read i items) (readEach read' i others) := by
  induction hitems generalizing i with
  | nil => exact .ok .nil
  | @cons v w vs ws hfirst _ ih =>
    rw [readEach, readEach]
    refine Agree.casesOn (h i v w hfirst) (fun hread => ?_) .error
    exact Agree.casesOn (ih (i + 1)) (fun hrest => .ok (.cons hread hrest)) .error

theorem Action.ofValue_agree (location : Location) {v w : Value} (h : v.Same w) :
    Agree Action.Same (Action.ofValue location v) (Action.ofValue location w) :=
  ((Members.expect_agree h).bind fun _ _ => Action.ofMembers_agree).check location

theorem actionsOfValue_agree (branch : Branch) {v w : Value} (h : v.Same w) :
    Agree (List.Forall₂ Action.Same) (actionsOfValue branch v) (actionsOfValue branch w) := by
  have hread (i : Nat) (v w : Value) : v.Same w →
      Agree Action.Same (Action.ofValue (.action branch i) v)
        (Action.ofValue (.action branch i) w) :=
    Action.ofValue_agree _
  cases v with
  | list items =>
    obtain ⟨others, rfl, hitems⟩ := h.exists_of_list
    exact readEach_agree hread hitems 0
  | object members =>
    obtain ⟨others, rfl, -⟩ := h.exists_of_object
    exact .error _
  | _ =>
    cases h
    exact .error _

theorem optionalActions_agree (branch : Branch) {v w : Option Value}
    (h : Option.Rel Value.Same v w) :
    Agree (Option.Rel (List.Forall₂ Action.Same)) (optionalActions branch v)
      (optionalActions branch w) := by
  cases h with
  | none => exact .ok .none
  | @some v w h =>
    have hmap := (actionsOfValue_agree branch h).map (f := some) (g := some)
      (S := Option.Rel (List.Forall₂ Action.Same)) fun _ _ => .some
    by_cases hnull : v = .null
    · subst hnull
      cases h
      exact .ok .none
    · have hother : w ≠ .null := by
        rintro rfl
        have hkind := h.kind_eq
        cases v <;> first
          | exact hnull rfl
          | cases hkind
      rw [optionalActions.eq_3 _ _ hnull, optionalActions.eq_3 _ _ hother]
      exact hmap

theorem Entry.Shape.ofMembers_same {ms others : Members} (h : ms.Same others) :
    ofMembers ms = ofMembers others := by
  simp only [ofMembers, Members.contains_same h]

theorem Entry.ofValue_agree {nested nested' : Location → Value → Except DecodeError ConditionGroup}
    (hnested : ∀ location v w, v.Same w →
      Agree ConditionGroup.Same (nested location v) (nested' location w))
    (location : Location) {v w : Value} (h : v.Same w) :
    Agree Entry.Same (Entry.ofValue nested location v) (Entry.ofValue nested' location w) := by
  refine ((Members.expect_agree h).check location).bind ?_
  intro ms others hmembers
  rw [← Shape.ofMembers_same hmembers]
  refine .after ?_
  intro shape
  cases shape with
  | group =>
    refine (hnested location v w h).bind ?_
    rintro ⟨connective, entries⟩ ⟨connective', others⟩ ⟨hconnective, hentries⟩
    obtain rfl : connective = connective' := hconnective
    exact .ok (.group hentries)
  | condition =>
    exact ((Condition.ofMembers_agree hmembers).check location).bind fun _ _ hcondition =>
      .ok (.condition hcondition)

theorem ConditionGroup.ofValue_agree (levels : Nat) (location : Location) {v w : Value}
    (h : v.Same w) : Agree ConditionGroup.Same (ConditionGroup.ofValue levels location v)
      (ConditionGroup.ofValue levels location w) := by
  induction levels generalizing location v w with
  | zero => exact .error _
  | succ levels ih =>
    refine ((Members.expect_agree h).check location).bind ?_
    intro ms others hmembers
    rw [← Members.word_same hmembers]
    refine .after fun connective => ?_
    refine ((Members.list_agree hmembers _).check location).bind ?_
    intro items items' hitems
    refine (readEach_agree ?_ hitems 0).bind fun _ _ hentries => .ok ⟨rfl, hentries⟩
    exact fun i v w hentry => Entry.ofValue_agree (fun location v w h => ih location h) _ hentry

/-- Documents that differ in the order of members are read as rules that do, or refused for
the same fault at the same place. -/
theorem Logic.ofValue_agree {v w : Value} (h : v.Same w) :
    Agree Logic.Same (Logic.ofValue v) (Logic.ofValue w) := by
  refine ((Members.expect_agree h).check _).bind ?_
  intro ms others hmembers
  rw [← Members.integer_same hmembers]
  refine .after fun version => ?_
  refine ((Members.required_agree hmembers _).check _).bind fun tree tree' htree => ?_
  refine (ConditionGroup.ofValue_agree _ _ htree).bind fun group group' hgroup => ?_
  refine ((Members.required_agree hmembers _).check _).bind fun actions actions' hactions => ?_
  refine (actionsOfValue_agree _ hactions).bind fun thens thens' hthen => ?_
  refine (optionalActions_agree _ (hmembers _)).bind fun elses elses' helse => ?_
  exact .ok ⟨rfl, hgroup, hthen, helse⟩

end Underwriting
