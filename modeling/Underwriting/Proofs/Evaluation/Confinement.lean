import Underwriting.Proofs.Evaluation.Targets
import Underwriting.Proofs.Value.Printable

/-! # What a delta may hold

A delta consists of sections of a context that are not empty. It holds what its actions gave to
their targets and the objects on the way there, and an action that gives nothing leaves no trace
in it.
-/
namespace Underwriting
open Value

/-- Whether members are sections of a context with something in each of them. -/
def Confined (delta : Members) : Prop :=
  ∀ e ∈ delta, e.1 ∈ contextNamespaces ∧ ∃ members, e.2 = .object members ∧ members ≠ []

/-- Whether an action gives this value to its target. What the delta holds there counts before
what the context does. -/
def Action.Gives (context delta : Members) (a : Action) (v : Value) : Prop :=
  a.Sets ∧ a.result? ((delta.resolve a.target).or (context.resolve a.target)) = some v

/-! ## One action -/

theorem Action.effect?_eq_some_iff {context delta : Members} {a : Action} {v : Value} :
    a.effect? context delta = some v ↔ a.Gives context delta v := by
  rw [effect?_eq, Gives, Option.ite_none_right_eq_some]

theorem Confined.write {delta : Members} (h : Confined delta) {a : Action} (hsets : a.Sets)
    (v : Value) : Confined (delta.write a.target v) := by
  obtain ⟨name, hname, rest, -, htarget⟩ := hsets.2.2
  have hsegments : Path.segments a.target = name :: Path.segments rest := by
    rw [htarget]
    exact Path.segments_append_dot (Path.dot_not_mem_of_mem_contextNamespaces name hname) rest
  rw [Members.write, hsegments, Members.writeAt_cons_of_ne_nil _ _ (Path.segments_ne_nil rest)]
  intro e he
  rcases Members.mem_insert he with rfl | he
  · exact ⟨hname, _, rfl, Members.writeAt_ne_nil _ (Path.segments_ne_nil rest) v⟩
  · exact h e he

theorem Confined.applyTo {context delta : Members} (h : Confined delta) (a : Action) :
    Confined (a.applyTo context delta) := by
  rw [Action.applyTo]
  cases heffect : a.effect? context delta with
  | none => exact h
  | some v => exact h.write (Action.effect?_eq_some_iff.mp heffect).1 v

theorem Action.applyTo_of_not_sets {context delta : Members} {a : Action} (h : ¬ a.Sets) :
    a.applyTo context delta = delta := by
  rw [applyTo, effect?_eq, if_neg h]

/-! ## Whole deltas -/

section
variable (context : Members) (actions : List Action)

theorem confined_contextDelta : Confined (contextDelta context actions) := by
  induction actions using List.reverseRecOn with
  | nil => exact List.forall_mem_nil _
  | append_singleton before a ih =>
    rw [contextDelta_concat]
    exact ih.applyTo a

theorem contextDelta_filter_sets :
    contextDelta context (actions.filter fun a => a.Sets) = contextDelta context actions := by
  induction actions using List.reverseRecOn with
  | nil => rfl
  | append_singleton before a ih =>
    rw [List.filter_append, contextDelta_concat, ← ih]
    by_cases hsets : a.Sets
    · have hkept : [a].filter (fun a => a.Sets) = [a] := by simp [hsets]
      rw [hkept, contextDelta_concat]
    · have hdropped : [a].filter (fun a => a.Sets) = [] := by simp [hsets]
      rw [hdropped, List.append_nil, Action.applyTo_of_not_sets hsets]

/-- A delta holds nothing but sections of a context with something in them, and no path leads to
anything in it that is apart from all targets that were given a value. Actions that set nothing
in a context may be left out. After an action that gives a value to its target, the target leads
to that value, and an action that gives none changes nothing. -/
theorem contextDelta_confined :
    Confined (contextDelta context actions) ∧
      contextDelta context (actions.filter fun a => a.Sets) = contextDelta context actions ∧
      (∀ path, (∀ before a after v, actions = before ++ a :: after →
          a.Gives context (contextDelta context before) v →
            Path.Apart (Path.segments a.target) (Path.segments path)) →
        (contextDelta context actions).resolve path = none) ∧
      ∀ a : Action,
        (∀ v, a.Gives context (contextDelta context actions) v →
          (contextDelta context (actions ++ [a])).resolve a.target = some v) ∧
        ((∀ v, ¬ a.Gives context (contextDelta context actions) v) →
          contextDelta context (actions ++ [a]) = contextDelta context actions) := by
  refine ⟨confined_contextDelta context actions, contextDelta_filter_sets context actions, ?_,
    fun a => ⟨fun v hgives => ?_, fun hnone => ?_⟩⟩
  · intro path hapart
    rw [contextDelta_eq_writeAll]
    refine Members.follow_writeAll_nil_apart (fun w hw => ?_) (Path.segments_ne_nil path)
    obtain ⟨before, a, after, v, hsplit, heffect, rfl⟩ := mem_deltaWrites.mp hw
    exact hapart before a after v hsplit (Action.effect?_eq_some_iff.mp heffect)
  · rw [contextDelta_concat, Action.applyTo, Action.effect?_eq_some_iff.mpr hgives]
    exact Members.resolve_write _ _ _
  · have heffect : a.effect? context (contextDelta context actions) = none :=
      Option.eq_none_iff_forall_ne_some.mpr fun v hv =>
        hnone v (Action.effect?_eq_some_iff.mp hv)
    rw [contextDelta_concat, Action.applyTo, heffect]

end

def clearing : Action := .setting "rate" none .null

/-- The rate stands in no section, so nothing comes of clearing it, and what is in the delta is
the price, which can be loaded again. -/
theorem contextDelta_loading_clearing :
    (contextDelta tariff [loading, clearing]).resolve "rate" = none ∧
      contextDelta tariff [loading, clearing] = contextDelta tariff [loading] ∧
      (contextDelta tariff [loading, clearing, loading]).resolve "pricing.base" =
        some (.number ((100 + 5) + 5)) := by
  obtain ⟨-, hdropped, hnowhere, hlast⟩ := contextDelta_confined tariff [loading, clearing]
  have hclearing : ¬ clearing.Sets := by decide
  have hgives : loading.Gives tariff (contextDelta tariff [loading, clearing])
      (.number ((100 + 5) + 5)) := ⟨by decide, rfl⟩
  refine ⟨hnowhere "rate" fun before a after v hsplit hv => ?_, hdropped.symm,
    (hlast loading).1 _ hgives⟩
  have hmem : a ∈ [loading, clearing] := by simp [hsplit]
  simp only [List.mem_cons, List.not_mem_nil, or_false] at hmem
  rcases hmem with rfl | rfl
  · decide
  · exact absurd hv.1 hclearing

end Underwriting
