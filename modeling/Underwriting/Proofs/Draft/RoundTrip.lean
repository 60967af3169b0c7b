import Underwriting.Draft.Basic
import Underwriting.Proofs.Json.Library
import Underwriting.Proofs.Rule.Layers
import Underwriting.Proofs.Rule.Order

/-! # Drafts, their values and their texts

Every draft whose logic is well formed is read again from its document form. A draft that was
read from a text is written, compactly or not, as a text that nests no deeper and from which
the same draft is read.
-/
namespace Underwriting.Draft

/-! ## Values -/

theorem get?_logic_of_ofMembers {ms : Members} {withLogic : Logic → Draft} {v : Value}
    (h : ofMembers ms = .ok (withLogic, v)) :
    ms.get? "logic" = some v ∧ ∀ l, (withLogic l).logic = l := by
  simp only [ofMembers, except_bind_eq_ok, except_pure_eq_ok, Members.required_eq_ok,
    Prod.mk.injEq] at h
  obtain ⟨name, -, ruleType, -, ruleCategory, -, targetId, -, status, -, reference, -, h⟩ := h
  obtain ⟨sourceText, -, conditionText, -, outcomeText, -, proprietary, -, priority, -, h⟩ := h
  obtain ⟨w, hlogic, rfl, rfl⟩ := h
  exact ⟨hlogic, fun l => rfl⟩

/-- The value of a draft is an object, and the draft's logic is read from its member. -/
theorem exists_logic_of_ofValue {v : Value} {d : Draft} (h : ofValue v = .ok d) :
    ∃ (ms : Members) (w : Value), v = .object ms ∧ ms.get? "logic" = some w ∧
      Logic.ofValue w = .ok d.logic := by
  rw [ofValue] at h
  split at h
  · cases h
  · rename_i withLogic w hmembers
    obtain ⟨ms, hexpect, hread⟩ := except_bind_eq_ok.mp hmembers
    obtain ⟨hget, hwith⟩ := get?_logic_of_ofMembers hread
    split at h
    · cases h
    · rename_i l hlogic
      obtain rfl := Except.ok.inj h
      rw [hwith]
      exact ⟨ms, w, Members.expect_eq_ok.mp hexpect, hget, hlogic⟩

theorem wellFormed_of_ofValue {v : Value} {d : Draft} (h : ofValue v = .ok d) :
    d.logic.WellFormed := by
  obtain ⟨ms, w, -, -, hlogic⟩ := exists_logic_of_ofValue h
  exact Logic.wellFormed_of_ofValue hlogic

theorem optionalString_nullable {ms : Members} {key : String} {s : Option String}
    (h : ms.get? key = some (nullable s)) : ms.optionalString key = .ok s := by
  refine Members.optionalString_eq_ok.mpr ?_
  cases s with
  | none => exact Or.inr ⟨h, rfl⟩
  | some s => exact Or.inl h

theorem ofMembers_members (d : Draft) :
    ofMembers d.members = .ok (fun l => { d with logic := l }, d.logic.toValue) := by
  have htext (key s : String) (h : d.members.get? key = some (.string s)) :
      d.members.optionalString key = .ok (some s) :=
    Members.optionalString_eq_ok.mpr (Or.inl h)
  have hpriority : d.members.integer "priority" 0 = .ok d.priority :=
    Members.integer_eq_ok.mpr (Or.inr ⟨_, by simp [members], Binary64.toInt32?_ofInt32 _⟩)
  simp only [ofMembers, except_bind_eq_ok, except_pure_eq_ok]
  exact ⟨some d.name, htext _ _ (by simp [members]), some d.ruleType,
    htext _ _ (by simp [members]), some d.ruleCategory, htext _ _ (by simp [members]),
    d.targetId, optionalString_nullable (by simp [members]), some d.status,
    htext _ _ (by simp [members]), d.reference, optionalString_nullable (by simp [members]),
    some d.sourceText, htext _ _ (by simp [members]), some d.conditionText,
    htext _ _ (by simp [members]), some d.outcomeText, htext _ _ (by simp [members]),
    d.proprietary, Members.boolean_eq_ok.mpr (Or.inr (by simp [members])), d.priority, hpriority,
    d.logic.toValue, Members.required_eq_ok.mpr (by simp [members]), rfl⟩

theorem ofValue_toValue_eq_ok {d d' : Draft} :
    ofValue d.toValue = .ok d' ↔ d.logic.WellFormed ∧ d' = d := by
  have hmembers : (Members.expect d.toValue >>= ofMembers) =
      .ok (fun l => { d with logic := l }, d.logic.toValue) :=
    except_bind_eq_ok.mpr ⟨d.members, rfl, ofMembers_members d⟩
  rw [ofValue, hmembers]
  constructor
  · intro h
    cases hread : Logic.ofValue d.logic.toValue with
    | error e =>
      simp only [hread] at h
      cases h
    | ok l =>
      obtain ⟨hwf, rfl⟩ := Logic.ofValue_toValue_eq_ok.mp hread
      simp only [hread] at h
      exact ⟨hwf, (Except.ok.inj h).symm⟩
  · rintro ⟨hwf, rfl⟩
    have hlogic : Logic.ofValue d'.logic.toValue = .ok d'.logic :=
      Logic.ofValue_toValue_eq_ok.mpr ⟨hwf, rfl⟩
    simp only [hlogic]

theorem distinct_members (d : Draft) : d.members.Distinct := by
  have hkeys : ["name", "ruleType", "ruleCategory", "targetId", "status", "proprietary",
      "priority", "reference", "sourceText", "conditionText", "outcomeText", "logic"].Nodup := by
    decide
  exact hkeys

section Layers
variable {P : Nat → Value → Prop} (hP : Value.Layered P) {levels : Nat}
include hP

theorem layered_nullable (s : Option String) : P levels (nullable s) := by
  cases s with
  | none => exact hP.null _
  | some s => exact hP.string _ s

theorem layered_of_ofValue {v : Value} {d : Draft} (h : ofValue v = .ok d) (hv : P levels v) :
    P levels d.toValue := by
  obtain ⟨ms, w, rfl, hget, hread⟩ := exists_logic_of_ofValue h
  obtain ⟨inner, rfl, hmembers⟩ := hP.exists_of_object hv
  have hlogic := Logic.layered_of_ofValue hP hread (hmembers "logic" w hget)
  apply hP.object d.distinct_members
  simp only [members, List.forall_mem_cons]
  exact ⟨hP.string _ _, hP.string _ _, hP.string _ _, layered_nullable hP _, hP.string _ _,
    hP.bool _ _, hP.integer _ _, layered_nullable hP _, hP.string _ _, hP.string _ _,
    hP.string _ _, hlogic, fun e he => by cases he⟩

end Layers

/-- Encoding a draft loses nothing, and a draft that was read is encoded no deeper than the
value that it was read from. -/
theorem encoding_lossless_and_no_deeper (d : Draft) (v : Value) :
    (∀ d', ofValue d.toValue = .ok d' ↔ d.logic.WellFormed ∧ d' = d) ∧
      ∀ d', ofValue v = .ok d' → d'.toValue.depth ≤ v.depth := by
  refine ⟨fun d' => ofValue_toValue_eq_ok, ?_⟩
  intro d' h
  exact layered_of_ofValue Value.layered_depth h (Nat.le_refl v.depth)

/-- A draft with an empty target, no reference and a range of years. -/
def roofDraft : Draft where
  name := "Roof"
  ruleType := "eligibility"
  ruleCategory := ""
  targetId := some ""
  status := "draft"
  proprietary := true
  priority := -7
  reference := none
  sourceText := ""
  conditionText := ""
  outcomeText := ""
  logic :=
    ⟨1, ⟨.or, [.condition ⟨"roof.year", .between, some (.list [.string "1990", .null]), none, ""⟩]⟩,
      [], some []⟩

/-- The same draft, with remarks that nest deeper than all the rest. -/
def remarkedDraft : Value :=
  .object (("remarks", .list [.list [.list [.list [.list [.list [.list []]]]]]]) ::
    roofDraft.members)

theorem ofValue_remarkedDraft :
    ofValue remarkedDraft = .ok roofDraft ∧ ofValue roofDraft.toValue = .ok roofDraft ∧
      roofDraft.toValue.depth ≤ remarkedDraft.depth ∧ remarkedDraft.depth = 8 := by
  have hread : ofValue remarkedDraft = .ok roofDraft := rfl
  obtain ⟨hlossless, hdepth⟩ := roofDraft.encoding_lossless_and_no_deeper remarkedDraft
  have hwf : roofDraft.logic.WellFormed := wellFormed_of_ofValue hread
  exact ⟨hread, (hlossless roofDraft).mpr ⟨hwf, rfl⟩, hdepth roofDraft hread, rfl⟩

/-! ## The order of members -/

/-- Drafts that differ at most in the order of members of the values in their logic. -/
structure Same (d e : Draft) : Prop where
  logic : d.logic.Same e.logic
  others : e = { d with logic := e.logic }

/-- A draft that waits for its logic, twice, with values for that which are the same. -/
structure SamePending (x y : (Logic → Draft) × Value) : Prop where
  draft : x.1 = y.1
  logic : ∀ l m, l.Same m → (x.1 l).Same (x.1 m)
  value : x.2.Same y.2

theorem ofMembers_agree {ms others : Members} (h : ms.Same others) :
    Agree SamePending (ofMembers ms) (ofMembers others) := by
  simp only [ofMembers, ← Members.optionalString_same h, ← Members.boolean_same h,
    ← Members.integer_same h]
  refine .after fun name => .after fun ruleType => .after fun ruleCategory => .after fun target =>
    .after fun status => .after fun reference => .after fun source => .after fun condition =>
    .after fun outcome => .after fun proprietary => .after fun priority => ?_
  refine (Members.required_agree h _).bind fun _ _ hvalue => .ok ⟨rfl, ?_, hvalue⟩
  exact fun _ _ hlogic => ⟨hlogic, rfl⟩

/-- Documents that differ in the order of members are read as drafts that do, or refused for
the same reason. -/
theorem ofValue_agree {v w : Value} (h : v.Same w) : Agree Same (ofValue v) (ofValue w) := by
  have hmembers : Agree SamePending (Members.expect v >>= ofMembers)
      (Members.expect w >>= ofMembers) :=
    (Members.expect_agree h).bind fun _ _ => ofMembers_agree
  rw [ofValue, ofValue]
  generalize (Members.expect v >>= ofMembers) = read at hmembers
  generalize (Members.expect w >>= ofMembers) = read' at hmembers
  cases hmembers with
  | error fault => exact .error _
  | @ok x y hpending =>
    obtain ⟨withLogic, logic⟩ := x
    obtain ⟨_, logic'⟩ := y
    obtain ⟨rfl, hsame, hvalue⟩ := hpending
    have hlogic := Logic.ofValue_agree hvalue
    dsimp only
    generalize Logic.ofValue logic = l at hlogic
    generalize Logic.ofValue logic' = m at hlogic
    cases hlogic with
    | error e => exact .error _
    | ok hrule => exact .ok (hsame _ _ hrule)

section Texts
variable {json : Json.Library} {layout : Json.Layout} {text printed : String} {d : Draft}

theorem ofJson_eq_ok_iff :
    ofJson json text = .ok d ↔ ∃ v, json.parse text = .ok v ∧ ofValue v = .ok d := by
  rw [ofJson]
  cases hparse : json.parse text with
  | error e => simp
  | ok v => simp [except_mapError_eq_ok]

theorem printable_of_ofJson (hjson : json.Closed) (h : ofJson json text = .ok d) :
    d.toValue.Printable := by
  obtain ⟨v, hparse, hread⟩ := ofJson_eq_ok_iff.mp h
  obtain ⟨levels, hv⟩ := hjson.printable_of_parse hparse
  exact ⟨levels, layered_of_ofValue Value.layered_printable hread hv⟩

theorem exists_toJson_of_ofJson (hjson : json.Closed) (h : ofJson json text = .ok d)
    (layout : Json.Layout) : ∃ printed, d.toJson json layout = .ok printed :=
  hjson.exists_print layout (printable_of_ofJson hjson h)

theorem eq_of_ofJson_toJson (hjson : json.Closed) (horder : json.KeepsOrder)
    (h : ofJson json text = .ok d) (hprint : d.toJson json layout = .ok printed) {d' : Draft}
    (hagain : ofJson json printed = .ok d') : d' = d := by
  obtain ⟨w, hparse, hread⟩ := ofJson_eq_ok_iff.mp hagain
  obtain rfl := horder.eq_of_parse (printable_of_ofJson hjson h) hprint hparse
  exact (ofValue_toValue_eq_ok.mp hread).2

end Texts

end Underwriting.Draft
