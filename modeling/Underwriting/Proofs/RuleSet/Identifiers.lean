import Mathlib.Data.List.Nodup
import Underwriting.Proofs.RuleSet.PriorityOrder

/-! # Identifiers of rules

A set that was built by adding rules holds no identifier twice, so looking an identifier up
and walking along the ordered rules find the same rule.
-/
namespace Underwriting.RuleSet

/-- Sets that come about by calls to add rules to the empty one, refused ones among them. -/
inductive Built : RuleSet → Prop where
  | empty : Built empty
  | add {s : RuleSet} {r : Rule} : Built s → Built (s.add r).2

theorem find?_eq_none {s : RuleSet} {id : String} :
    s.find? id = none ↔ ∀ r ∈ s.rules, r.id ≠ id := by
  simp [find?]

theorem mem_of_find? {s : RuleSet} {id : String} {r : Rule} (h : s.find? id = some r) :
    r ∈ s.rules ∧ r.id = id :=
  ⟨List.mem_of_find?_eq_some h, by simpa using List.find?_some h⟩

theorem add_of_new {s : RuleSet} {r : Rule} (h : ∀ x ∈ s.rules, x.id ≠ r.id) :
    s.add r = (none, ⟨s.rules ++ [r]⟩) := by
  rw [add, find?_eq_none.mpr h]
  rfl

theorem add_of_taken {s : RuleSet} {r : Rule} (h : ∃ x ∈ s.rules, x.id = r.id) :
    s.add r = (some ⟨r.id⟩, s) := by
  have hfound : (s.find? r.id).isSome = true := by simpa [find?] using h
  rw [add, if_pos hfound]

theorem add_eq_none_iff {s s' : RuleSet} {r : Rule} :
    s.add r = (none, s') ↔ (∀ x ∈ s.rules, x.id ≠ r.id) ∧ s' = ⟨s.rules ++ [r]⟩ := by
  by_cases htaken : ∃ x ∈ s.rules, x.id = r.id
  · rw [add_of_taken htaken]
    obtain ⟨x, hx, hid⟩ := htaken
    exact iff_of_false (by simp) fun h => h.1 x hx hid
  · have hnew : ∀ x ∈ s.rules, x.id ≠ r.id := fun x hx hid => htaken ⟨x, hx, hid⟩
    rw [add_of_new hnew, Prod.mk.injEq, eq_comm (a := s')]
    exact and_congr_left' (iff_of_true rfl hnew)

theorem nodup_ids_add {s : RuleSet} (h : (s.rules.map (·.id)).Nodup) (r : Rule) :
    ((s.add r).2.rules.map (·.id)).Nodup := by
  by_cases htaken : ∃ x ∈ s.rules, x.id = r.id
  · rw [add_of_taken htaken]
    exact h
  · have hnew : ∀ x ∈ s.rules, x.id ≠ r.id := fun x hx hid => htaken ⟨x, hx, hid⟩
    rw [add_of_new hnew, List.map_append, List.map_singleton, ← List.concat_eq_append]
    refine List.Nodup.concat ?_ h
    intro hmem
    exact htaken (List.mem_map.mp hmem)

theorem Built.nodup_ids {s : RuleSet} (h : s.Built) : (s.rules.map (·.id)).Nodup := by
  induction h with
  | empty => exact List.nodup_nil
  | add _ ih => exact nodup_ids_add ih _

theorem Built.eq_of_id_eq {s : RuleSet} (h : s.Built) {r x : Rule} (hr : r ∈ s.rules)
    (hx : x ∈ s.rules) (hid : r.id = x.id) : r = x :=
  List.inj_on_of_nodup_map h.nodup_ids hr hx hid

theorem Built.find?_eq_some_iff {s : RuleSet} (h : s.Built) {id : String} {r : Rule} :
    s.find? id = some r ↔ r ∈ s.rules ∧ r.id = id := by
  constructor
  · intro hfind
    exact mem_of_find? hfind
  · rintro ⟨hr, rfl⟩
    cases hfind : s.find? r.id with
    | none => exact absurd rfl (find?_eq_none.mp hfind r hr)
    | some x =>
      obtain ⟨hx, hid⟩ := mem_of_find? hfind
      rw [h.eq_of_id_eq hx hr hid]

/-- Exactly one of the ordered rules has the identifier of a rule that is enabled. -/
theorem Built.filter_ordered {s : RuleSet} (h : s.Built) {r : Rule} (hr : r ∈ s.rules)
    (henabled : r.enabled = true) : s.ordered.filter (·.id = r.id) = [r] := by
  have hperm := (ordered_perm s).map (·.id)
  have hnodup : (s.ordered.map (·.id)).Nodup :=
    hperm.nodup_iff.mpr (h.nodup_ids.sublist (List.filter_sublist.map _))
  have hmem : r ∈ s.ordered.filter (·.id = r.id) :=
    List.mem_filter.mpr ⟨mem_ordered.mpr ⟨hr, henabled⟩, by simp⟩
  have hsame : ∀ x ∈ s.ordered.filter (·.id = r.id), x = r := by
    intro x hx
    obtain ⟨hxmem, hid⟩ := List.mem_filter.mp hx
    exact h.eq_of_id_eq (mem_ordered.mp hxmem).1 hr (by simpa using hid)
  have honce : (s.ordered.filter (·.id = r.id)).Nodup := (hnodup.of_map _).filter _
  have hreplicate := List.eq_replicate_of_mem hsame
  rw [hreplicate, List.nodup_replicate] at honce
  have hlength := List.length_pos_of_mem hmem
  rw [hreplicate, show (s.ordered.filter (·.id = r.id)).length = 1 by omega]
  rfl

end Underwriting.RuleSet
