import Underwriting.Proofs.Evaluation.InTurn

/-! # The shape of a delta

A delta that an action has written to holds objects on the way to the target of the action. The
way to a target of the context leads through objects and lists, so the delta has the shape of
the context there as long as no list is on the way.
-/
namespace Underwriting
open Value

/-- Whether two objects have values of the same kinds on the way to a path. -/
def Members.ShapedLike (members others : Members) (path : String) : Prop :=
  ∀ above, above <+: Path.segments path → above ≠ Path.segments path →
    ((object members).follow above).map kind = ((object others).follow above).map kind

theorem Path.exists_eq_append_cons {above segments : List String} (hway : above <+: segments)
    (hne : above ≠ segments) : ∃ segment rest, segments = above ++ segment :: rest := by
  obtain ⟨rest, rfl⟩ := hway
  cases rest with
  | nil => exact absurd (List.append_nil above).symm hne
  | cons segment rest => exact ⟨segment, rest, rfl⟩

theorem Value.kind_of_follow {v : Value} {above rest : List String} {segment : String}
    (h : (v.follow (above ++ segment :: rest)).isSome) :
    ∃ w, v.follow above = some w ∧ (w.kind = .object ∨ w.kind = .list) := by
  rw [follow_append] at h
  cases hw : v.follow above with
  | none =>
    rw [hw] at h
    cases h
  | some w =>
    refine ⟨w, rfl, ?_⟩
    rw [hw, Option.bind_some] at h
    cases w with
    | object => exact Or.inl rfl
    | list => exact Or.inr rfl
    | _ => cases h

section
variable {context : Members} {before : List Action} {a : Action} {v : Value}

theorem contextDelta_object_above
    (heffect : a.effect? context (contextDelta context before) = some v) {above : List String}
    (hway : above <+: Path.segments a.target) (hne : above ≠ Path.segments a.target) :
    ∃ members, (object (contextDelta context (before ++ [a]))).follow above =
      some (.object members) := by
  obtain ⟨segment, rest, hsegments⟩ := Path.exists_eq_append_cons hway hne
  rw [contextDelta_concat, Action.applyTo, heffect]
  have hwritten := Members.memberAt_writeAt_above (contextDelta context before) above segment rest v
  rw [← hsegments] at hwritten
  exact ⟨_, follow_of_memberAt hwritten⟩

/-- After an action that takes effect there are objects in the delta all the way to its target.
If the context holds a value at the target, then the delta has the shape of the context on the
way exactly when the context has no list there. -/
theorem contextDelta_shape (heffect : a.effect? context (contextDelta context before) = some v) :
    (∀ above, above <+: Path.segments a.target → above ≠ Path.segments a.target →
      ∃ members, (object (contextDelta context (before ++ [a]))).follow above =
        some (.object members)) ∧
    ((context.resolve a.target).isSome →
      ((contextDelta context (before ++ [a])).ShapedLike context a.target ↔
        ¬ context.ListAbove a.target)) := by
  refine ⟨fun above => contextDelta_object_above heffect, fun hfound => ⟨?_, ?_⟩⟩
  · rintro hshape ⟨above, hway, hne, items, hlist⟩
    obtain ⟨members, hobject⟩ := contextDelta_object_above heffect hway hne
    have hkind := hshape above hway hne
    rw [hobject, hlist] at hkind
    cases hkind
  · intro hlists above hway hne
    obtain ⟨members, hobject⟩ := contextDelta_object_above heffect hway hne
    obtain ⟨segment, rest, hsegments⟩ := Path.exists_eq_append_cons hway hne
    rw [Members.resolve, hsegments] at hfound
    obtain ⟨w, hw, hobjectKind | hlistKind⟩ := Value.kind_of_follow hfound
    · rw [hobject, hw, Option.map_some, Option.map_some, hobjectKind]
      rfl
    · cases w with
      | list items => exact absurd ⟨above, hway, hne, items, hw⟩ hlists
      | _ => cases hlistKind

end

def scheduled : Members :=
  [("risk", .object [("score", .number 1), ("locations", .list [.object [("tiv", .number 5)]])])]

def revalue (target : String) : Action := ⟨.set, target, none, some (.number 2), none, none, ""⟩

theorem contextDelta_revalue_score :
    (contextDelta scheduled [revalue "risk.score"]).ShapedLike scheduled "risk.score" := by
  have heffect : (revalue "risk.score").effect? scheduled (contextDelta scheduled []) =
      some (.number 2) := rfl
  have hlists : ¬ scheduled.ListAbove "risk.score" := by
    rintro ⟨above, hway, hne, items, hlist⟩
    have hsegments : Path.segments "risk.score" = ["risk", "score"] := rfl
    rw [hsegments] at hway hne
    have habove : above = [] ∨ above = ["risk"] := by
      rcases List.prefix_cons_iff.mp hway with rfl | ⟨rest, rfl, hrest⟩
      · exact Or.inl rfl
      · rcases List.prefix_cons_iff.mp hrest with rfl | ⟨last, rfl, hlast⟩
        · exact Or.inr rfl
        · obtain rfl := List.prefix_nil.mp hlast
          exact absurd rfl hne
    rcases habove with rfl | rfl <;> cases hlist
  exact ((contextDelta_shape heffect).2 rfl).mpr hlists

/-- A target in a list: the delta holds an object where the context has the list. -/
theorem contextDelta_revalue_location_not_shaped :
    ¬ ∀ (context : Members) (before : List Action) (a : Action),
      (a.effect? context (contextDelta context before)).isSome →
        (context.resolve a.target).isSome →
          (contextDelta context (before ++ [a])).ShapedLike context a.target := by
  intro hall
  have hshape := hall scheduled [] (revalue "risk.locations.0.tiv") rfl rfl
  have hkinds := hshape ["risk", "locations"] (by decide) (by decide)
  cases hkinds

end Underwriting
