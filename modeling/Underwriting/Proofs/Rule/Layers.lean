import Underwriting.Proofs.Rule.RoundTrip
import Underwriting.Proofs.Value.Layers

/-! # The document form of a rule that was read

Every list and object of the document form comes from one of the document that the rule was
read from, on the same level. So the document form has every layered property that the
document has: it can be written where the document could, and nests no deeper.
-/
namespace Underwriting

/-! ## Members -/

namespace Members
variable {α : Type} (key : String)

theorem keys_optional_sublist (toValue : α → Value) (a : Option α) :
    ((Members.optional key toValue a).map Prod.fst).Sublist [key] := by
  cases a with
  | none => exact List.nil_sublist _
  | some a => exact List.Sublist.refl _

theorem keys_unlessEmpty_sublist (text : String) :
    ((Members.unlessEmpty key text).map Prod.fst).Sublist [key] := by
  rw [Members.unlessEmpty]
  split
  · exact List.nil_sublist _
  · exact List.Sublist.refl _

theorem forall_mem_optional {P : Value → Prop} {toValue : α → Value} {a : Option α}
    (h : ∀ b, a = some b → P (toValue b)) : ∀ e ∈ Members.optional key toValue a, P e.2 := by
  intro e he
  cases a with
  | none => cases he
  | some b =>
    obtain rfl := List.mem_singleton.mp he
    exact h b rfl

theorem forall_mem_unlessEmpty {P : Value → Prop} {text : String} (h : P (.string text)) :
    ∀ e ∈ Members.unlessEmpty key text, P e.2 := by
  intro e he
  rw [Members.unlessEmpty] at he
  split at he
  · cases he
  · obtain rfl := List.mem_singleton.mp he
    exact h

end Members

section Layers
variable {P : Nat → Value → Prop} {levels : Nat}

theorem Value.Layered.word (hP : Value.Layered P) {α : Type} [Vocabulary α] (w : α) :
    P levels (.word w) := hP.string levels _

/-! ## Conditions and actions -/

theorem Condition.distinct_members (c : Condition) : c.members.Distinct := by
  have hsub : (c.members.map Prod.fst).Sublist
      ["field", "operator", "value", "valueType", "description"] := by
    simp only [members, List.map_append]
    exact (((List.Sublist.refl ["field", "operator"]).append
      (Members.keys_optional_sublist "value" id c.value)).append
      (Members.keys_optional_sublist "valueType" .word c.valueType)).append
      (Members.keys_unlessEmpty_sublist "description" c.description)
  exact List.Nodup.sublist hsub (by decide)

theorem Action.distinct_members (a : Action) : a.members.Distinct := by
  have hsub : (a.members.map Prod.fst).Sublist
      ["type", "target", "operator", "value", "message", "severity", "description"] := by
    simp only [members, List.map_append]
    exact (((((List.Sublist.refl ["type", "target"]).append
      (Members.keys_optional_sublist "operator" .word a.adjustment)).append
      (Members.keys_optional_sublist "value" id a.value)).append
      (Members.keys_optional_sublist "message" .string a.message)).append
      (Members.keys_optional_sublist "severity" .word a.severity)).append
      (Members.keys_unlessEmpty_sublist "description" a.description)
  exact List.Nodup.sublist hsub (by decide)

variable (hP : Value.Layered P)
include hP

theorem Condition.toValue_layered {c : Condition} (h : ∀ v, c.value = some v → P levels v) :
    P (levels + 1) c.toValue := by
  apply hP.object c.distinct_members
  simp only [members, List.forall_mem_append, List.forall_mem_cons]
  exact ⟨⟨⟨⟨hP.string _ _, hP.word _, fun e he => by cases he⟩,
    Members.forall_mem_optional _ h⟩, Members.forall_mem_optional _ fun w _ => hP.word w⟩,
    Members.forall_mem_unlessEmpty _ (hP.string _ _)⟩

theorem Action.toValue_layered {a : Action} (h : ∀ v, a.value = some v → P levels v) :
    P (levels + 1) a.toValue := by
  apply hP.object a.distinct_members
  simp only [members, List.forall_mem_append, List.forall_mem_cons]
  exact ⟨⟨⟨⟨⟨⟨hP.word _, hP.string _ _, fun e he => by cases he⟩,
    Members.forall_mem_optional _ fun w _ => hP.word w⟩,
    Members.forall_mem_optional _ h⟩, Members.forall_mem_optional _ fun s _ => hP.string _ s⟩,
    Members.forall_mem_optional _ fun w _ => hP.word w⟩,
    Members.forall_mem_unlessEmpty _ (hP.string _ _)⟩

theorem Condition.layered_of_ofMembers {ms : Members} {c : Condition}
    (h : Condition.ofMembers ms = .ok c) (hms : P levels (.object ms)) : P levels c.toValue := by
  obtain ⟨-, -, hvalue, -⟩ := Condition.ofMembers_eq_ok.mp h
  obtain ⟨inner, rfl, hmembers⟩ := hP.exists_of_object hms
  apply toValue_layered hP
  intro v hv
  exact hmembers "value" v (hvalue.trans hv)

theorem Action.layered_of_ofValue {location : Location} {v : Value} {a : Action}
    (h : Action.ofValue location v = .ok a) (hv : P levels v) : P levels a.toValue := by
  obtain ⟨ms, hexpect, hread⟩ := except_bind_eq_ok.mp (Location.check_eq_ok.mp h)
  obtain rfl := Members.expect_eq_ok.mp hexpect
  obtain ⟨inner, rfl, hmembers⟩ := hP.exists_of_object hv
  have hvalue : ms.get? "value" = a.value := by
    simp only [Action.ofMembers, except_bind_eq_ok, except_pure_eq_ok] at hread
    obtain ⟨kind, -, target, -, adjustment, -, message, -, severity, -, description, -, rfl⟩ :=
      hread
    rfl
  apply toValue_layered hP
  intro w hw
  exact hmembers "value" w (hvalue.trans hw)

theorem layered_of_actionsOfValue {branch : Branch} {v : Value} {actions : List Action}
    (h : actionsOfValue branch v = .ok actions) (hv : P levels v) :
    P levels (.list (actions.map Action.toValue)) := by
  cases v with
  | list items =>
    obtain ⟨inner, rfl, hitems⟩ := hP.exists_of_list hv
    apply hP.list
    rw [List.forall_mem_map]
    intro a ha
    obtain ⟨i, item, hmem, hread⟩ := exists_read_of_mem h ha
    exact Action.layered_of_ofValue hP hread (hitems item hmem)
  | _ => cases h

omit hP in
theorem exists_of_optionalActions {branch : Branch} {v : Option Value} {actions : List Action}
    (h : optionalActions branch v = .ok (some actions)) :
    ∃ w, v = some w ∧ actionsOfValue branch w = .ok actions := by
  rw [optionalActions.eq_def] at h
  split at h
  · cases h
  · cases h
  · rename_i w _
    refine ⟨w, rfl, ?_⟩
    cases hread : actionsOfValue branch w with
    | error e =>
      rw [hread] at h
      cases h
    | ok as =>
      rw [hread] at h
      cases h
      rfl

/-! ## Trees -/

theorem Entry.group_layered {connective : Connective} {entries : List Entry}
    (h : ∀ e ∈ entries, P levels e.toValue) :
    P (levels + 2) (Entry.group connective entries).toValue := by
  have hkeys : ["op", "conditions"].Nodup := by decide
  refine hP.object hkeys ?_
  simp only [List.forall_mem_cons, Entry.toValues_eq_map]
  exact ⟨hP.word _, hP.list (List.forall_mem_map.mpr h), fun e he => by cases he⟩

theorem Entry.layered_of_ofValue
    {nested : Location → Value → Except DecodeError ConditionGroup}
    (hnested : ∀ location v g, nested location v = .ok g → P levels v → P levels g.toValue)
    {location : Location} {v : Value} {e : Entry} (h : Entry.ofValue nested location v = .ok e)
    (hv : P levels v) : P levels e.toValue := by
  simp only [ofValue, except_bind_eq_ok, Location.check_eq_ok, Members.expect_eq_ok] at h
  obtain ⟨ms, rfl, shape, -, h⟩ := h
  cases shape with
  | group =>
    obtain ⟨g, hg, hpure⟩ := except_bind_eq_ok.mp h
    obtain rfl := except_pure_eq_ok.mp hpure
    exact hnested location _ g hg hv
  | condition =>
    obtain ⟨c, hc, hpure⟩ := except_bind_eq_ok.mp h
    obtain rfl := except_pure_eq_ok.mp hpure
    exact Condition.layered_of_ofMembers hP (Location.check_eq_ok.mp hc) hv

theorem ConditionGroup.layered_of_ofValue {depth : Nat} {location : Location} {v : Value}
    {g : ConditionGroup} (h : ConditionGroup.ofValue depth location v = .ok g)
    (hv : P levels v) : P levels g.toValue := by
  induction depth generalizing location v g levels with
  | zero => cases h
  | succ depth ih =>
    simp only [ofValue, except_bind_eq_ok, except_pure_eq_ok, Location.check_eq_ok,
      Members.expect_eq_ok, Members.list_eq_ok] at h
    obtain ⟨ms, rfl, connective, -, items, hlist, entries, hentries, rfl⟩ := h
    obtain ⟨middle, rfl, hmembers⟩ := hP.exists_of_object hv
    obtain ⟨inner, rfl, hitems⟩ := hP.exists_of_list (hmembers "conditions" _ hlist)
    apply Entry.group_layered hP
    intro e he
    obtain ⟨i, item, hmem, hread⟩ := exists_read_of_mem hentries he
    exact Entry.layered_of_ofValue hP (fun _ _ _ hg hw => ih hg hw) hread (hitems item hmem)

/-! ## Rules -/

omit hP in
theorem Logic.distinct_members (l : Logic) : l.members.Distinct := by
  have hsub : (l.members.map Prod.fst).Sublist ["version", "if", "then", "else"] := by
    rw [members, List.map_append]
    exact (List.Sublist.refl ["version", "if", "then"]).append
      (Members.keys_optional_sublist "else" _ l.elseActions)
  exact List.Nodup.sublist hsub (by decide)

theorem Logic.layered_of_ofValue {v : Value} {l : Logic} (h : Logic.ofValue v = .ok l)
    (hv : P levels v) : P levels l.toValue := by
  simp only [ofValue, except_bind_eq_ok, except_pure_eq_ok, Location.check_eq_ok,
    Members.expect_eq_ok, Members.required_eq_ok] at h
  obtain ⟨ms, rfl, version, -, tree, htree, condition, hcondition, h⟩ := h
  obtain ⟨actions, hactions, thenActions, hthen, elseActions, helse, rfl⟩ := h
  obtain ⟨inner, rfl, hmembers⟩ := hP.exists_of_object hv
  have hcondition' :=
    ConditionGroup.layered_of_ofValue hP hcondition (hmembers "if" tree htree)
  have hthen' := layered_of_actionsOfValue hP hthen (hmembers "then" actions hactions)
  have helse' (others : List Action) (hsome : elseActions = some others) :
      P inner (.list (others.map Action.toValue)) := by
    obtain ⟨w, hw, hread⟩ := exists_of_optionalActions (hsome ▸ helse)
    exact layered_of_actionsOfValue hP hread (hmembers "else" w hw)
  apply hP.object (distinct_members _)
  simp only [members, List.forall_mem_append, List.forall_mem_cons]
  exact ⟨⟨hP.integer _ _, hcondition', hthen', fun e he => by cases he⟩,
    Members.forall_mem_optional _ helse'⟩

end Layers

end Underwriting
