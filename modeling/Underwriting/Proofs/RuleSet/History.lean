import Mathlib.Data.List.Induction
import Underwriting.Proofs.RuleSet.Identifiers

/-! # Histories of rule sets

A set comes about by calls that add rules to the empty set, some of which are refused. After
every history it is a store that is keyed by identifiers: it lists the rules that were
accepted, in the order of the calls, and under an identifier it finds the one rule that was
accepted with it. A call is refused exactly when its identifier is taken.
-/
namespace Underwriting.RuleSet

structure Call where
  rule : Rule
  refusal : Option DuplicateRule

structure History where
  calls : List Call
  set : RuleSet

namespace History

def start : History := ⟨[], empty⟩

def call (h : History) (r : Rule) : History :=
  let (refusal, s) := h.set.add r
  ⟨h.calls ++ [⟨r, refusal⟩], s⟩

/-- The history of these calls, from the empty set on. -/
def run (rules : List Rule) : History := rules.foldl call start

def accepted (h : History) : List Rule := (h.calls.filter (·.refusal.isNone)).map (·.rule)

/-! ## One call -/

variable {h : History} {r : Rule}

theorem set_call (h : History) (r : Rule) : (h.call r).set = (h.set.add r).2 := rfl

theorem calls_call (h : History) (r : Rule) :
    (h.call r).calls.map (·.rule) = h.calls.map (·.rule) ++ [r] := by
  simp [call]

theorem accepted_call_of_new (hnew : ∀ x ∈ h.set.rules, x.id ≠ r.id) :
    (h.call r).accepted = h.accepted ++ [r] := by
  simp [call, add_of_new hnew, accepted]

theorem accepted_call_of_taken (htaken : ∃ x ∈ h.set.rules, x.id = r.id) :
    (h.call r).accepted = h.accepted := by
  simp [call, add_of_taken htaken, accepted]

theorem new_or_taken (h : History) (r : Rule) :
    (∀ x ∈ h.set.rules, x.id ≠ r.id) ∨ ∃ x ∈ h.set.rules, x.id = r.id := by
  by_cases htaken : ∃ x ∈ h.set.rules, x.id = r.id
  · exact Or.inr htaken
  · exact Or.inl fun x hx hid => htaken ⟨x, hx, hid⟩

theorem exists_id_call (h : History) (r : Rule) (id : String) :
    (∃ x ∈ (h.call r).set.rules, x.id = id) ↔
      (∃ x ∈ h.set.rules, x.id = id) ∨ r.id = id := by
  rw [set_call]
  rcases h.new_or_taken r with hnew | htaken
  · rw [add_of_new hnew]
    simp [or_and_right, exists_or]
  · rw [add_of_taken htaken]
    constructor
    · exact Or.inl
    · rintro (hid | rfl)
      · exact hid
      · exact htaken

structure Keyed (h : History) : Prop where
  built : h.set.Built
  rules : h.set.rules = h.accepted

theorem Keyed.start : start.Keyed := ⟨.empty, rfl⟩

theorem Keyed.call (hkeyed : h.Keyed) (r : Rule) : (h.call r).Keyed := by
  refine ⟨.add hkeyed.built, ?_⟩
  rw [set_call]
  rcases h.new_or_taken r with hnew | htaken
  · rw [add_of_new hnew, accepted_call_of_new hnew, hkeyed.rules]
  · rw [add_of_taken htaken, accepted_call_of_taken htaken, hkeyed.rules]

/-! ## Runs of calls -/

theorem run_concat (rules : List Rule) (r : Rule) : run (rules ++ [r]) = (run rules).call r :=
  List.foldl_concat call start r rules

theorem keyed_run (rules : List Rule) : (run rules).Keyed := by
  induction rules using List.reverseRecOn with
  | nil => exact Keyed.start
  | append_singleton rules r ih =>
    rw [run_concat]
    exact ih.call r

theorem calls_run (rules : List Rule) : (run rules).calls.map (·.rule) = rules := by
  induction rules using List.reverseRecOn with
  | nil => rfl
  | append_singleton rules r ih => rw [run_concat, calls_call, ih]

/-- An identifier is in use from the first call that brings it on. -/
theorem exists_id_run (rules : List Rule) (id : String) :
    (∃ x ∈ (run rules).set.rules, x.id = id) ↔ ∃ x ∈ rules, x.id = id := by
  induction rules using List.reverseRecOn with
  | nil => rfl
  | append_singleton rules r ih =>
    rw [run_concat, exists_id_call, ih]
    simp [or_and_right, exists_or]

/-- After every history of calls, a set lists the accepted rules in the order of the calls,
their identifiers are distinct, and looking one up finds the rule that was accepted under it.
The next call is refused exactly when a rule with its identifier was accepted before, which
is when one was called for before; it is appended to the set, or else leaves the set as it
is. -/
theorem run_keyed_by_id (rules : List Rule) :
    (run rules).calls.map (·.rule) = rules ∧
    (run rules).set.rules = (run rules).accepted ∧
    ((run rules).set.rules.map (·.id)).Nodup ∧
    (∀ id r, (run rules).set.find? id = some r ↔ r ∈ (run rules).accepted ∧ r.id = id) ∧
    (∀ id, (run rules).set.find? id = none ↔ ¬ ∃ r ∈ (run rules).accepted, r.id = id) ∧
    ∀ r, (run (rules ++ [r])).set = ((run rules).set.add r).2 ∧
      ((∃ x ∈ (run rules).accepted, x.id = r.id) ↔ ∃ x ∈ rules, x.id = r.id) ∧
      (run rules).set.add r =
        if ∃ x ∈ (run rules).accepted, x.id = r.id then (some ⟨r.id⟩, (run rules).set)
        else (none, ⟨(run rules).set.rules ++ [r]⟩) := by
  have hkeyed := keyed_run rules
  refine ⟨calls_run rules, hkeyed.rules, hkeyed.built.nodup_ids, ?_, ?_, ?_⟩
  · intro id r
    rw [← hkeyed.rules]
    exact hkeyed.built.find?_eq_some_iff
  · intro id
    rw [← hkeyed.rules, find?_eq_none]
    simp
  · intro r
    rw [← hkeyed.rules]
    refine ⟨?_, exists_id_run rules r.id, ?_⟩
    · rw [run_concat, set_call]
    · split
      · rename_i htaken
        exact add_of_taken htaken
      · rename_i hfree
        exact add_of_new fun x hx hid => hfree ⟨x, hx, hid⟩

end History
end Underwriting.RuleSet
