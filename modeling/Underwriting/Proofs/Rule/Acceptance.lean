import Underwriting.Proofs.Rule.UnusedMembers

/-! # Which documents are read as rules

A value is read as a rule exactly when it is the document of one, and members that no rule
uses change nothing about it. Each reader is looked at by itself: what it accepts does not
depend on the place at which it is used.
-/
namespace Underwriting

/-! ## Members -/

namespace Members
variable {ms : Members} {key : String}

theorem exists_word_iff {α : Type} [Vocabulary α] [Vocabulary.Lawful α] :
    (∃ w : α, ms.word key = .ok w) ↔ ms.HasWord α key := by
  simp only [word_eq_ok, HasWord]

theorem exists_optionalWord_iff {α : Type} [Vocabulary α] [Vocabulary.Lawful α] :
    (∃ w : Option α, ms.optionalWord key = .ok w) ↔ ms.MayHaveWord α key := by
  simp only [optionalWord_eq_ok, MayHaveWord, HasWord]
  constructor
  · rintro ⟨w, h⟩
    cases w with
    | none => exact Or.inl h
    | some w => exact Or.inr ⟨w, h⟩
  · rintro (h | ⟨w, h⟩)
    · exact ⟨none, h⟩
    · exact ⟨some w, h⟩

theorem exists_optionalString_iff :
    (∃ s, ms.optionalString key = .ok s) ↔ ms.MayHaveText key := by
  simp only [optionalString_eq_ok, MayHaveText]
  constructor
  · rintro ⟨s, h | ⟨h, -⟩⟩
    · cases s with
      | none => exact Or.inl h
      | some s => exact Or.inr (Or.inr ⟨s, h⟩)
    · exact Or.inr (Or.inl h)
  · rintro (h | h | ⟨s, h⟩)
    · exact ⟨none, Or.inl h⟩
    · exact ⟨none, Or.inr ⟨h, rfl⟩⟩
    · exact ⟨some s, Or.inl h⟩

theorem exists_integer_iff (default : Int32) :
    (∃ n, ms.integer key default = .ok n) ↔ ∀ v, ms.get? key = some v →
      ∃ x, v = .number x ∧ Binary64.IsWholeBetween (-2 ^ 31) (2 ^ 31 - 1) x := by
  simp only [integer_eq_ok, ← Binary64.exists_toInt32?_iff]
  constructor
  · rintro ⟨n, ⟨habsent, -⟩ | ⟨x, hnumber, hread⟩⟩ v hv
    · rw [habsent] at hv
      cases hv
    · rw [hnumber] at hv
      exact ⟨x, (Option.some.inj hv).symm, n, hread⟩
  · intro h
    cases hkey : ms.get? key with
    | none => exact ⟨default, Or.inl ⟨rfl, rfl⟩⟩
    | some v =>
      obtain ⟨x, rfl, n, hread⟩ := h v hkey
      exact ⟨n, Or.inr ⟨x, rfl, hread⟩⟩

end Members

/-! ## Conditions and actions -/

theorem Condition.exists_ofMembers_iff {ms : Members} :
    (∃ c, Condition.ofMembers ms = .ok c) ↔ IsCondition ms := by
  constructor
  · rintro ⟨c, h⟩
    obtain ⟨hfield, hoperator, hvalue, hvalueType, ⟨description, htext, -⟩, hwf⟩ :=
      Condition.ofMembers_eq_ok.mp h
    have hword : ms.MayHaveWord ValueType "valueType" :=
      Members.exists_optionalWord_iff.mp ⟨c.valueType, Members.optionalWord_eq_ok.mpr hvalueType⟩
    exact ⟨⟨c.field, hfield⟩,
      ⟨c.operator, hoperator, by rw [hvalue]; exact hwf.value, by rw [hvalue]; exact hwf.range⟩,
      hword, Members.exists_optionalString_iff.mp ⟨description, htext⟩⟩
  · rintro ⟨⟨field, hfield⟩, ⟨operator, hoperator, hvalue, hrange⟩, hword, htext⟩
    obtain ⟨valueType, hvalueType⟩ := Members.exists_optionalWord_iff.mpr hword
    obtain ⟨description, hdescription⟩ := Members.exists_optionalString_iff.mpr htext
    exact ⟨⟨field, operator, ms.get? "value", valueType, description.getD ""⟩,
      Condition.ofMembers_eq_ok.mpr ⟨hfield, hoperator, rfl,
        Members.optionalWord_eq_ok.mp hvalueType, ⟨description, hdescription, rfl⟩,
        ⟨hvalue, hrange⟩⟩⟩

theorem Action.exists_ofMembers_iff {ms : Members} :
    (∃ a, Action.ofMembers ms = .ok a) ↔ IsAction ms := by
  simp only [ofMembers, except_bind_eq_ok, except_pure_eq_ok]
  constructor
  · rintro ⟨-, kind, hkind, target, htarget, adjustment, hadjustment, message, hmessage,
      severity, hseverity, description, hdescription, -⟩
    exact ⟨Members.exists_word_iff.mp ⟨kind, hkind⟩,
      Members.exists_optionalString_iff.mp ⟨target, htarget⟩,
      Members.exists_optionalWord_iff.mp ⟨adjustment, hadjustment⟩,
      Members.exists_optionalString_iff.mp ⟨message, hmessage⟩,
      Members.exists_optionalWord_iff.mp ⟨severity, hseverity⟩,
      Members.exists_optionalString_iff.mp ⟨description, hdescription⟩⟩
  · intro h
    obtain ⟨kind, hkind⟩ := Members.exists_word_iff.mpr h.type
    obtain ⟨target, htarget⟩ := Members.exists_optionalString_iff.mpr h.target
    obtain ⟨adjustment, hadjustment⟩ := Members.exists_optionalWord_iff.mpr h.operator
    obtain ⟨message, hmessage⟩ := Members.exists_optionalString_iff.mpr h.message
    obtain ⟨severity, hseverity⟩ := Members.exists_optionalWord_iff.mpr h.severity
    obtain ⟨description, hdescription⟩ := Members.exists_optionalString_iff.mpr h.description
    exact ⟨_, kind, hkind, target, htarget, adjustment, hadjustment, message, hmessage,
      severity, hseverity, description, hdescription, rfl⟩

theorem exists_readEach_iff {α ε : Type} {read : Nat → Value → Except ε α} {P : Value → Prop}
    (h : ∀ i v, (∃ a, read i v = .ok a) ↔ P v) {vs : List Value} {i : Nat} :
    (∃ as, readEach read i vs = .ok as) ↔ ∀ v ∈ vs, P v := by
  induction vs generalizing i with
  | nil => simp [readEach]
  | cons v vs ih =>
    rw [List.forall_mem_cons, ← h i v, ← ih (i := i + 1)]
    simp only [readEach_cons_eq_ok]
    constructor
    · rintro ⟨-, a, rest, -, hfirst, hrest⟩
      exact ⟨⟨a, hfirst⟩, rest, hrest⟩
    · rintro ⟨⟨a, hfirst⟩, rest, hrest⟩
      exact ⟨a :: rest, a, rest, rfl, hfirst, hrest⟩

theorem Action.exists_ofValue_iff {location : Location} {v : Value} :
    (∃ a, Action.ofValue location v = .ok a) ↔ ∃ ms, v = .object ms ∧ IsAction ms := by
  simp only [ofValue, Location.check_eq_ok, except_bind_eq_ok, Members.expect_eq_ok,
    ← exists_ofMembers_iff]
  constructor
  · rintro ⟨a, ms, hms, ha⟩
    exact ⟨ms, hms, a, ha⟩
  · rintro ⟨ms, hms, a, ha⟩
    exact ⟨a, ms, hms, ha⟩

theorem exists_actionsOfValue_iff (branch : Branch) {v : Value} :
    (∃ actions, actionsOfValue branch v = .ok actions) ↔ IsActionList v := by
  have hitem (i : Nat) (item : Value) :
      (∃ a, Action.ofValue (.action branch i) item = .ok a) ↔
        ∃ ms, item = .object ms ∧ IsAction ms := Action.exists_ofValue_iff
  unfold actionsOfValue IsActionList
  cases v with
  | list items => simpa using exists_readEach_iff hitem
  | _ => simp

/-! ## Trees -/

theorem Entry.Shape.ofMembers_eq_condition {ms : Members} :
    Entry.Shape.ofMembers ms = .ok .condition ↔
      ¬ ms.HasBoth "op" "conditions" ∧ ms.HasBoth "field" "operator" := by
  unfold ofMembers Members.HasBoth
  cases ms.contains "op" <;> cases ms.contains "conditions" <;>
    cases ms.contains "field" <;> cases ms.contains "operator" <;> decide

theorem Entry.exists_ofValue_iff {levels : Nat}
    {nested : Location → Value → Except DecodeError ConditionGroup} {location : Location}
    (hnested : ∀ v, (∃ g, nested location v = .ok g) ↔ IsGroup v ∧ v.groupDepth ≤ levels)
    (v : Value) :
    (∃ e, Entry.ofValue nested location v = .ok e) ↔ IsEntry v ∧ v.groupDepth ≤ levels := by
  simp only [ofValue, except_bind_eq_ok, Location.check_eq_ok, Members.expect_eq_ok]
  constructor
  · rintro ⟨e, ms, rfl, shape, hshape, h⟩
    cases shape with
    | group =>
      obtain ⟨g, hg, -⟩ := except_bind_eq_ok.mp h
      obtain ⟨hgroup, hdepth⟩ := (hnested _).mp ⟨g, hg⟩
      exact ⟨.group (Shape.ofMembers_eq_group.mp hshape) hgroup, hdepth⟩
    | condition =>
      obtain ⟨c, hc, -⟩ := except_bind_eq_ok.mp h
      obtain ⟨hno, hkeys⟩ := Shape.ofMembers_eq_condition.mp hshape
      have hcondition := Condition.exists_ofMembers_iff.mp ⟨c, Location.check_eq_ok.mp hc⟩
      refine ⟨.condition hno hkeys hcondition, ?_⟩
      rw [Value.groupDepth, if_neg hno]
      exact Nat.zero_le _
  · rintro ⟨hentry, hdepth⟩
    cases hentry with
    | @group ms hkeys hgroup =>
      obtain ⟨g, hg⟩ := (hnested _).mpr ⟨hgroup, hdepth⟩
      exact ⟨g.toEntry, ms, rfl, .group, Shape.ofMembers_eq_group.mpr hkeys,
        except_bind_eq_ok.mpr ⟨g, hg, rfl⟩⟩
    | @condition ms hno hkeys hcondition =>
      obtain ⟨c, hc⟩ := Condition.exists_ofMembers_iff.mpr hcondition
      exact ⟨.condition c, ms, rfl, .condition, Shape.ofMembers_eq_condition.mpr ⟨hno, hkeys⟩,
        except_bind_eq_ok.mpr ⟨c, Location.check_eq_ok.mpr hc, rfl⟩⟩

theorem IsGroup.groupDepth_pos {v : Value} (h : IsGroup v) : 0 < v.groupDepth := by
  obtain ⟨⟨connective, hop⟩, hitems, -⟩ := h
  have hkeys : Members.HasBoth _ "op" "conditions" :=
    ⟨Members.contains_of_get? hop, Members.contains_of_get? hitems⟩
  rw [Value.groupDepth, if_pos hkeys]
  exact Nat.succ_pos _

/-- Within some levels, groups are accepted that nest no deeper. -/
theorem ConditionGroup.exists_ofValue_iff (levels : Nat) (location : Location) {v : Value} :
    (∃ g, ConditionGroup.ofValue levels location v = .ok g) ↔
      IsGroup v ∧ v.groupDepth ≤ levels := by
  induction levels generalizing location v with
  | zero =>
    constructor
    · rintro ⟨g, hg⟩
      cases hg
    · rintro ⟨hgroup, hdepth⟩
      exact absurd hgroup.groupDepth_pos (by omega)
  | succ levels ih =>
    have hentries (items : List Value) :
        (∃ entries, readEach (fun i => Entry.ofValue (ConditionGroup.ofValue levels)
          (location.entry i)) 0 items = .ok entries) ↔
        ∀ item ∈ items, IsEntry item ∧ item.groupDepth ≤ levels :=
      exists_readEach_iff fun i item => Entry.exists_ofValue_iff (fun w => ih _) item
    simp only [ofValue, except_bind_eq_ok, except_pure_eq_ok, Location.check_eq_ok,
      Members.expect_eq_ok, Members.word_eq_ok, Members.list_eq_ok]
    constructor
    · rintro ⟨g, ms, rfl, connective, hop, items, hitems, entries, hread, -⟩
      have hall := (hentries items).mp ⟨entries, hread⟩
      refine ⟨.intro ⟨connective, hop⟩ hitems fun item hitem => (hall item hitem).1, ?_⟩
      rw [Value.groupDepth_group_le (Members.contains_of_get? hop) hitems]
      exact fun item hitem => (hall item hitem).2
    · rintro ⟨hgroup, hdepth⟩
      obtain @⟨ms, items, ⟨connective, hop⟩, hitems, hall⟩ := hgroup
      rw [Value.groupDepth_group_le (Members.contains_of_get? hop) hitems] at hdepth
      obtain ⟨entries, hread⟩ :=
        (hentries items).mpr fun item hitem => ⟨hall item hitem, hdepth item hitem⟩
      exact ⟨⟨connective, entries⟩, ms, rfl, connective, hop, items, hitems, entries, hread, rfl⟩

/-! ## Rules -/

theorem exists_optionalActions_iff (branch : Branch) {v : Option Value} :
    (∃ actions, optionalActions branch v = .ok actions) ↔
      v = none ∨ v = some .null ∨ ∃ w, v = some w ∧ IsActionList w := by
  have hlist (w : Value) : (∃ actions, (actionsOfValue branch w).map some = .ok actions) ↔
      IsActionList w := by
    rw [← exists_actionsOfValue_iff branch]
    cases actionsOfValue branch w <;> simp [Except.map]
  unfold optionalActions
  split
  · simp
  · simp
  · rename_i w hnull
    have hne : w ≠ .null := fun h => hnull h
    rw [hlist]
    simp [hne]

theorem Logic.exists_ofValue_iff {v : Value} :
    (∃ l, Logic.ofValue v = .ok l) ↔ ∃ ms, v = .object ms ∧ IsRule ms := by
  simp only [ofValue, except_bind_eq_ok, except_pure_eq_ok, Location.check_eq_ok,
    Members.expect_eq_ok, Members.required_eq_ok]
  constructor
  · rintro ⟨l, ms, rfl, version, hversion, tree, htree, condition, hcondition, actions,
      hactions, thenActions, hthen, elseActions, helse, -⟩
    refine ⟨ms, rfl, ?_, ?_, ?_, ?_⟩
    · exact (Members.exists_integer_iff 1).mp ⟨version, hversion⟩
    · exact ⟨tree, htree, (ConditionGroup.exists_ofValue_iff _ _).mp ⟨condition, hcondition⟩⟩
    · exact ⟨actions, hactions, (exists_actionsOfValue_iff _).mp ⟨thenActions, hthen⟩⟩
    · exact (exists_optionalActions_iff _).mp ⟨elseActions, helse⟩
  · rintro ⟨ms, rfl, hversion, ⟨tree, htree, htree'⟩, ⟨actions, hactions, hactions'⟩, helse⟩
    obtain ⟨version, hversion⟩ := (Members.exists_integer_iff 1).mpr hversion
    obtain ⟨condition, hcondition⟩ :=
      (ConditionGroup.exists_ofValue_iff maxGroupDepth .root).mpr htree'
    obtain ⟨thenActions, hthen⟩ := (exists_actionsOfValue_iff .thenBranch).mpr hactions'
    obtain ⟨elseActions, helse⟩ := (exists_optionalActions_iff .elseBranch).mpr helse
    exact ⟨_, ms, rfl, version, hversion, tree, htree, condition, hcondition, actions, hactions,
      thenActions, hthen, elseActions, helse, rfl⟩

/-- Reading accepts exactly the documents of rules, and pays no heed to unused members. -/
theorem Logic.ofValue_accepts_exactly (v : Value) :
    ((∃ l, Logic.ofValue v = .ok l) ↔ ∃ ms, v = .object ms ∧ IsRule ms) ∧
      ∀ w, AlikeRules v w → Logic.ofValue w = Logic.ofValue v :=
  ⟨Logic.exists_ofValue_iff, fun _ => Logic.ofValue_congr⟩

/-- A rule whose document, tree, condition and action all carry these members too. -/
def remarkedRule (remarks : Members) : Value :=
  .object (("if", .object (("op", .string "AND") ::
      ("conditions", .list [.object (("field", .string "risk.year") ::
        ("operator", .string "exists") :: remarks)]) :: remarks)) ::
    ("then", .list [.object (("type", .string "block") :: remarks)]) :: remarks)

theorem alikeRules_remarkedRule :
    AlikeRules (remarkedRule []) (remarkedRule [("note", .null)]) := by
  refine .object ?_ (.some ?_) (.some ?_) .none
  · simp [Members.AgreeOn, Members.get?]
  · refine .nested (by simp [Members.AgreeOn, Members.get?]) rfl rfl (.cons ?_ .nil)
    exact .condition (by decide) (by decide)
      (by simp [Members.AgreeOn, Members.get?, Condition.keys])
  · exact .list (.cons (.object (by simp [Members.AgreeOn, Members.get?, Action.keys])) .nil)

theorem Logic.ofValue_remarkedRule :
    AlikeRules (remarkedRule []) (remarkedRule [("note", .null)]) ∧
      Logic.ofValue (remarkedRule [("note", .null)]) = Logic.ofValue (remarkedRule []) ∧
      ∃ ms, remarkedRule [] = .object ms ∧ IsRule ms := by
  obtain ⟨haccepted, halike⟩ := Logic.ofValue_accepts_exactly (remarkedRule [])
  exact ⟨alikeRules_remarkedRule, halike _ alikeRules_remarkedRule, haccepted.mp ⟨_, rfl⟩⟩

end Underwriting
