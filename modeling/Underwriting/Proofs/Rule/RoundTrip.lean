import Underwriting.Proofs.Number.Binary64
import Underwriting.Proofs.Rule.WellFormed

/-! # Encoding and decoding rules

The document form of a well-formed rule is read as that very rule, and the document form of
any other rule is refused. Each part of a rule is looked at by itself: the members written
for it are found again under their keys, whatever optional parts are left out.
-/
namespace Underwriting

namespace Members

@[simp] theorem get?_nil (key : String) : get? [] key = none := rfl

@[simp] theorem get?_cons (key other : String) (v : Value) (rest : Members) :
    get? ((key, v) :: rest) other = if key = other then some v else rest.get? other := rfl

@[simp] theorem get?_append (ms others : Members) (key : String) :
    get? (ms ++ others) key = (ms.get? key).or (others.get? key) := by
  induction ms with
  | nil => rfl
  | cons e rest ih =>
    obtain ⟨k, v⟩ := e
    by_cases h : k = key
    · simp [h]
    · simp [h, ih]

@[simp] theorem get?_optional {α : Type} (key other : String) (toValue : α → Value)
    (a : Option α) :
    (Members.optional key toValue a).get? other = if key = other then a.map toValue else none := by
  cases a <;> simp [Members.optional]

@[simp] theorem get?_unlessEmpty (key other text : String) :
    (Members.unlessEmpty key text).get? other =
      if key = other ∧ text ≠ "" then some (.string text) else none := by
  by_cases h : text = ""
  · simp [Members.unlessEmpty, h]
  · by_cases hk : key = other <;> simp [Members.unlessEmpty, h, hk]

theorem optionalString_unlessEmpty {ms : Members} {key : String} (text : String)
    (h : ms.get? key = (Members.unlessEmpty key text).get? key) :
    ∃ read, ms.optionalString key = .ok read ∧ read.getD "" = text := by
  rw [get?_unlessEmpty] at h
  by_cases htext : text = ""
  · refine ⟨none, optionalString_eq_ok.mpr (Or.inl ?_), htext.symm⟩
    simpa [htext] using h
  · refine ⟨some text, optionalString_eq_ok.mpr (Or.inl ?_), rfl⟩
    simpa [htext] using h

end Members

/-! ## Conditions and actions -/

theorem Condition.ofMembers_members {c c' : Condition} :
    Condition.ofMembers c.members = .ok c' ↔ c.WellFormed ∧ c' = c := by
  have hfield : c.members.get? "field" = some (.string c.field) := by
    simp [members]
  have hoperator : c.members.get? "operator" = some (.word c.operator) := by
    simp [members]
  have hvalue : c.members.get? "value" = c.value := by
    simp [members]
  have hvalueType : c.members.get? "valueType" = c.valueType.map .word := by
    simp [members]
  have hdescription : c.members.get? "description" =
      (Members.unlessEmpty "description" c.description).get? "description" := by
    simp [members]
  have hread : c.WellFormed → Condition.ofMembers c.members = .ok c := fun hwf =>
    ofMembers_eq_ok.mpr ⟨hfield, hoperator, hvalue, hvalueType,
      Members.optionalString_unlessEmpty c.description hdescription, hwf⟩
  constructor
  · intro h
    -- operator and value decide whether a condition is well formed, and both are kept
    have hwf : c.WellFormed := by
      obtain ⟨-, ho, hv, -, -, hwf⟩ := ofMembers_eq_ok.mp h
      have hsame : c.operator = c'.operator :=
        Value.word_injective (Option.some.inj (hoperator.symm.trans ho))
      have hsameValue : c.value = c'.value := hvalue.symm.trans hv
      exact ⟨by rw [hsame, hsameValue]; exact hwf.value,
        by rw [hsame, hsameValue]; exact hwf.range⟩
    exact ⟨hwf, Except.ok.inj (h.symm.trans (hread hwf))⟩
  · rintro ⟨hwf, rfl⟩
    exact hread hwf

theorem Action.ofMembers_members (a : Action) : Action.ofMembers a.members = .ok a := by
  have hkind : a.members.get? "type" = some (.word a.kind) := by
    simp [members]
  have htarget : a.members.get? "target" = some (.string a.target) := by
    simp [members]
  have hadjustment : a.members.get? "operator" = a.adjustment.map .word := by
    simp [members]
  have hvalue : a.members.get? "value" = a.value := by
    simp [members]
  have hmessage : a.members.get? "message" = a.message.map .string := by
    simp [members]
  have hseverity : a.members.get? "severity" = a.severity.map .word := by
    simp [members]
  have hdescription : a.members.get? "description" =
      (Members.unlessEmpty "description" a.description).get? "description" := by
    simp [members]
  obtain ⟨description, hread, htext⟩ :=
    Members.optionalString_unlessEmpty a.description hdescription
  simp only [ofMembers, except_bind_eq_ok, except_pure_eq_ok]
  refine ⟨a.kind, Members.word_eq_ok.mpr hkind, some a.target,
    Members.optionalString_eq_ok.mpr (Or.inl htarget), a.adjustment,
    Members.optionalWord_eq_ok.mpr hadjustment, a.message,
    Members.optionalString_eq_ok.mpr (Or.inl hmessage), a.severity,
    Members.optionalWord_eq_ok.mpr hseverity, description, hread, ?_⟩
  rw [hvalue, htext]
  rfl

theorem Action.ofValue_toValue (location : Location) (a b : Action) :
    Action.ofValue location a.toValue = .ok b ↔ True ∧ b = a := by
  have hread : Action.ofValue location a.toValue = .ok a := by
    rw [ofValue, Location.check_eq_ok, except_bind_eq_ok]
    exact ⟨a.members, rfl, Action.ofMembers_members a⟩
  rw [hread]
  simp [eq_comm]

theorem actionsOfValue_toValue (branch : Branch) (actions : List Action) :
    actionsOfValue branch (.list (actions.map Action.toValue)) = .ok actions := by
  rw [actionsOfValue]
  refine (readEach_map_eq_ok (P := fun _ => True) ?_).mpr ⟨fun _ _ => trivial, rfl⟩
  intro a _ i b
  exact Action.ofValue_toValue _ a b

/-! ## Trees -/

theorem Entry.toValues_eq_map (es : List Entry) : Entry.toValues es = es.map Entry.toValue := by
  induction es with
  | nil => rfl
  | cons e es ih => rw [toValues, ih, List.map_cons]

theorem Entry.Shape.ofMembers_condition (c : Condition) :
    Entry.Shape.ofMembers c.members = .ok .condition := by
  have hop : c.members.contains "op" = false := by
    simp [Members.contains, Condition.members]
  have hfield : c.members.contains "field" = true := by
    simp [Members.contains, Condition.members]
  have hoperator : c.members.contains "operator" = true := by
    simp [Members.contains, Condition.members]
  simp [ofMembers, hop, hfield, hoperator]

/-- An entry is read as itself within some levels when it is well formed within them, given
that nested groups are. -/
theorem Entry.ofValue_toValue {levels : Nat}
    {nested : Location → Value → Except DecodeError ConditionGroup} {location : Location}
    (hnested : ∀ connective entries g, nested location (Entry.group connective entries).toValue
      = .ok g ↔ (Entry.group connective entries).WellFormedWithin levels ∧
        g = ⟨connective, entries⟩)
    (e e' : Entry) :
    Entry.ofValue nested location e.toValue = .ok e' ↔ e.WellFormedWithin levels ∧ e' = e := by
  cases e with
  | condition c =>
    have hread : Entry.ofValue nested location (Entry.condition c).toValue = .ok e' ↔
        ∃ c', Condition.ofMembers c.members = .ok c' ∧ Entry.condition c' = e' := by
      simp only [toValue, Condition.toValue, ofValue, except_bind_eq_ok, except_pure_eq_ok,
        Location.check_eq_ok, Members.expect_eq_ok, Value.object.injEq, exists_eq_left',
        Shape.ofMembers_condition, Except.ok.injEq]
    rw [hread, wellFormedWithin_condition]
    constructor
    · rintro ⟨c', hc', rfl⟩
      obtain ⟨hwf, rfl⟩ := Condition.ofMembers_members.mp hc'
      exact ⟨hwf, rfl⟩
    · rintro ⟨hwf, rfl⟩
      exact ⟨c, Condition.ofMembers_members.mpr ⟨hwf, rfl⟩, rfl⟩
  | group k es =>
    have hread : Entry.ofValue nested location (Entry.group k es).toValue = .ok e' ↔
        ∃ g, nested location (Entry.group k es).toValue = .ok g ∧ g.toEntry = e' := by
      have hshape : Shape.ofMembers [("op", Value.word k), ("conditions", .list (toValues es))]
          = .ok .group := rfl
      simp only [toValue, ofValue, except_bind_eq_ok, except_pure_eq_ok, Location.check_eq_ok,
        Members.expect_eq_ok, Value.object.injEq, exists_eq_left', hshape, Except.ok.injEq]
    rw [hread]
    constructor
    · rintro ⟨g, hg, rfl⟩
      obtain ⟨hwf, rfl⟩ := (hnested k es g).mp hg
      exact ⟨hwf, rfl⟩
    · rintro ⟨hwf, rfl⟩
      exact ⟨⟨k, es⟩, (hnested k es ⟨k, es⟩).mpr ⟨hwf, rfl⟩, rfl⟩

theorem ConditionGroup.ofValue_toValue {levels : Nat} {location : Location} (k : Connective)
    (es : List Entry) (g : ConditionGroup) :
    ConditionGroup.ofValue levels location (Entry.group k es).toValue = .ok g ↔
      (Entry.group k es).WellFormedWithin levels ∧ g = ⟨k, es⟩ := by
  induction levels generalizing location k es g with
  | zero =>
    constructor
    · intro h
      cases h
    · rintro ⟨h, -⟩
      exact absurd h (Entry.not_wellFormedWithin_zero k es)
  | succ levels ih =>
    have hword : Members.word [("op", Value.word k), ("conditions", .list (Entry.toValues es))]
        "op" = .ok k := Members.word_eq_ok.mpr rfl
    have hlist : Members.list [("op", Value.word k), ("conditions", .list (Entry.toValues es))]
        "conditions" = .ok (es.map Entry.toValue) :=
      Members.list_eq_ok.mpr (by rw [← Entry.toValues_eq_map]; rfl)
    have hentries (entries : List Entry) :
        readEach (fun i => Entry.ofValue (ConditionGroup.ofValue levels) (location.entry i)) 0
          (es.map Entry.toValue) = .ok entries ↔
        (∀ e ∈ es, e.WellFormedWithin levels) ∧ entries = es :=
      readEach_map_eq_ok fun e _ i e' => Entry.ofValue_toValue ih e e'
    simp only [Entry.toValue, ofValue, except_bind_eq_ok, except_pure_eq_ok,
      Location.check_eq_ok, Members.expect_eq_ok, Value.object.injEq, exists_eq_left', hword,
      hlist, Except.ok.injEq, hentries, Entry.wellFormedWithin_group]
    constructor
    · rintro ⟨entries, ⟨hwf, rfl⟩, rfl⟩
      exact ⟨hwf, rfl⟩
    · rintro ⟨hwf, rfl⟩
      exact ⟨es, ⟨hwf, rfl⟩, rfl⟩

/-! ## Rules -/

theorem optionalActions_toValue (branch : Branch) (actions : Option (List Action)) :
    optionalActions branch (actions.map fun as => .list (as.map Action.toValue)) =
      .ok actions := by
  cases actions with
  | none => rfl
  | some as =>
    simp only [Option.map_some, optionalActions, actionsOfValue_toValue]
    rfl

theorem Logic.ofValue_toValue_eq_ok {l l' : Logic} :
    Logic.ofValue l.toValue = .ok l' ↔ l.WellFormed ∧ l' = l := by
  have hversion : l.members.integer "version" 1 = .ok l.version :=
    Members.integer_eq_ok.mpr (Or.inr ⟨_, rfl, Binary64.toInt32?_ofInt32 l.version⟩)
  have htree : l.members.required "if" = .ok l.condition.toValue :=
    Members.required_eq_ok.mpr rfl
  have hthen : l.members.required "then" = .ok (.list (l.thenActions.map Action.toValue)) :=
    Members.required_eq_ok.mpr rfl
  have helse : l.members.get? "else" =
      l.elseActions.map fun as => .list (as.map Action.toValue) := by
    simp [members]
  simp only [ofValue, toValue, except_bind_eq_ok, except_pure_eq_ok, Location.check_eq_ok,
    Members.expect_eq_ok, Value.object.injEq, exists_eq_left', hversion, htree, hthen, helse,
    Except.ok.injEq, actionsOfValue_toValue, optionalActions_toValue, wellFormed_iff]
  constructor
  · rintro ⟨condition, hcondition, rfl⟩
    obtain ⟨hwf, rfl⟩ := (ConditionGroup.ofValue_toValue _ _ _).mp hcondition
    exact ⟨hwf, rfl⟩
  · rintro ⟨hwf, rfl⟩
    exact ⟨l'.condition, (ConditionGroup.ofValue_toValue _ _ _).mpr ⟨hwf, rfl⟩, rfl⟩

/-- Encoding loses nothing: the document form of a rule is read exactly when the rule is
well formed, and then as that rule. So reading a rule, encoding it and reading it again is
the same as reading it once. -/
theorem Logic.encoding_lossless (l : Logic) (v : Value) :
    (∀ l', Logic.ofValue l.toValue = .ok l' ↔ l.WellFormed ∧ l' = l) ∧
    (Logic.ofValue v >>= fun m => Logic.ofValue m.toValue) = Logic.ofValue v := by
  refine ⟨fun l' => ofValue_toValue_eq_ok, ?_⟩
  cases h : Logic.ofValue v with
  | error e => rfl
  | ok m =>
    change Logic.ofValue m.toValue = .ok m
    exact ofValue_toValue_eq_ok.mpr ⟨wellFormed_of_ofValue h, rfl⟩

end Underwriting
