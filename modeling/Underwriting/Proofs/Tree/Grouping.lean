import Mathlib.Logic.Relation
import Underwriting.Evaluation.Basic

/-! # Grouping of conditions

The result of a group is made of the results of its entries, one after the other, where a
result that settles the group cuts off the others. Results joined in this way form a monoid,
so it does not matter how conditions are bracketed: a nested group with the connective of the
group around it may be dissolved, and a group around a single group may be left out.
-/
namespace Underwriting

theorem Connective.isDecided_otherwise (k : Connective) : k.isDecided k.otherwise = false := by
  cases k <;> rfl

theorem Connective.eq_otherwise {k : Connective} {b : Bool} (h : ¬ k.isDecided b = true) :
    b = k.otherwise := by
  cases k <;> cases b <;> simp_all [isDecided, otherwise]

/-! ## Results one after the other -/

namespace GroupResult

/-- A result, and those of later entries unless it settles the group. -/
def followedBy (k : Connective) (first others : GroupResult) : GroupResult :=
  if k.isDecided first.matched then first
  else ⟨others.matched, first.trace ++ others.trace⟩

def empty (k : Connective) : GroupResult := ⟨k.otherwise, []⟩

section Monoid
variable (k : Connective) (r : GroupResult)

theorem followedBy_of_decided {k : Connective} {r : GroupResult}
    (h : k.isDecided r.matched = true) (others : GroupResult) : r.followedBy k others = r :=
  if_pos h

theorem followedBy_of_not_decided {k : Connective} {r : GroupResult}
    (h : ¬ k.isDecided r.matched = true) (others : GroupResult) :
    r.followedBy k others = ⟨others.matched, r.trace ++ others.trace⟩ :=
  if_neg h

theorem empty_followedBy : (empty k).followedBy k r = r := by
  have hopen : ¬ k.isDecided (empty k).matched = true :=
    Bool.eq_false_iff.mp k.isDecided_otherwise
  rw [followedBy_of_not_decided hopen]
  rfl

theorem followedBy_empty : r.followedBy k (empty k) = r := by
  by_cases h : k.isDecided r.matched = true
  · exact followedBy_of_decided h _
  · rw [followedBy_of_not_decided h, empty, ← Connective.eq_otherwise h, List.append_nil]

theorem followedBy_assoc (s t : GroupResult) :
    (r.followedBy k s).followedBy k t = r.followedBy k (s.followedBy k t) := by
  by_cases hr : k.isDecided r.matched = true
  · simp only [followedBy_of_decided hr]
  · rw [followedBy_of_not_decided hr, followedBy_of_not_decided hr]
    -- once the first result is past, the second one decides on either side
    by_cases hs : k.isDecided s.matched = true
    · rw [followedBy_of_decided (r := s) hs]
      exact if_pos hs
    · rw [followedBy_of_not_decided (r := s) hs, ← List.append_assoc]
      exact if_neg hs

end Monoid
end GroupResult

namespace Entry
variable (context : Members) (k : Connective)

theorem evaluateAll_nil : evaluateAll context k [] = .empty k := by
  rw [evaluateAll, GroupResult.empty]

theorem evaluateAll_cons (e : Entry) (es : List Entry) :
    evaluateAll context k (e :: es) =
      (e.evaluate context).followedBy k (evaluateAll context k es) := by
  rw [evaluateAll, GroupResult.followedBy]

theorem evaluateAll_append (es es' : List Entry) :
    evaluateAll context k (es ++ es') =
      (evaluateAll context k es).followedBy k (evaluateAll context k es') := by
  induction es with
  | nil => rw [List.nil_append, evaluateAll_nil, GroupResult.empty_followedBy]
  | cons e es ih =>
    rw [List.cons_append, evaluateAll_cons, evaluateAll_cons, ih, GroupResult.followedBy_assoc]

end Entry

/-! ## Regrouping -/

/-- A change in how conditions are grouped, at one place of a tree. -/
inductive ConditionGroup.Regroups : ConditionGroup → ConditionGroup → Prop where
  | dissolve (k : Connective) (before inner after : List Entry) :
    Regroups ⟨k, before ++ .group k inner :: after⟩ ⟨k, before ++ inner ++ after⟩
  | leaveOut (k : Connective) (g : ConditionGroup) : Regroups ⟨k, [g.toEntry]⟩ g
  | within (k : Connective) (before after : List Entry) {g g' : ConditionGroup} :
    Regroups g g' →
      Regroups ⟨k, before ++ g.toEntry :: after⟩ ⟨k, before ++ g'.toEntry :: after⟩

section Evaluation
variable (context : Members)

theorem ConditionGroup.evaluate_toEntry (g : ConditionGroup) :
    g.toEntry.evaluate context = g.evaluate context := by
  rw [toEntry, Entry.evaluate, evaluate]

theorem ConditionGroup.evaluate_around (k : Connective) (before after : List Entry)
    (g : ConditionGroup) :
    ConditionGroup.evaluate context ⟨k, before ++ g.toEntry :: after⟩ =
      (Entry.evaluateAll context k before).followedBy k
        ((g.evaluate context).followedBy k (Entry.evaluateAll context k after)) := by
  rw [evaluate, Entry.evaluateAll_append, Entry.evaluateAll_cons, evaluate_toEntry]

theorem ConditionGroup.Regroups.evaluate_eq {g g' : ConditionGroup} (h : g.Regroups g') :
    g'.evaluate context = g.evaluate context := by
  induction h with
  | dissolve k before inner after =>
    have hnested := evaluate_around context k before after ⟨k, inner⟩
    rw [toEntry] at hnested
    rw [hnested, evaluate, evaluate, Entry.evaluateAll_append, Entry.evaluateAll_append,
      GroupResult.followedBy_assoc]
  | leaveOut k g =>
    have hsingle := evaluate_around context k [] [] g
    rw [List.nil_append] at hsingle
    rw [hsingle, Entry.evaluateAll_nil, GroupResult.empty_followedBy,
      GroupResult.followedBy_empty]
  | within _ _ _ _ ih => rw [evaluate_around, evaluate_around, ih]

/-- However the conditions of a group are regrouped, its result is the same, trace included,
and so is the evaluation of every rule with that group as its condition. -/
theorem ConditionGroup.evaluate_regrouped {g g' : ConditionGroup}
    (h : Relation.ReflTransGen Regroups g g') :
    g'.evaluate context = g.evaluate context ∧
      ∀ version thenActions elseActions,
        Logic.evaluate ⟨version, g', thenActions, elseActions⟩ context =
          Logic.evaluate ⟨version, g, thenActions, elseActions⟩ context := by
  have hresult : g'.evaluate context = g.evaluate context := by
    induction h with
    | refl => rfl
    | tail _ hstep ih => exact (hstep.evaluate_eq context).trans ih
  refine ⟨hresult, fun version thenActions elseActions => ?_⟩
  simp only [Logic.evaluate, Logic.outcome, hresult]
  rfl

end Evaluation

def vacantHouse : Entry := .condition ⟨"vacant", .equals, some (.bool true), none, ""⟩

def doubtfulRoof : ConditionGroup :=
  ⟨.or, [.condition ⟨"roof", .absent, none, none, ""⟩,
    .condition ⟨"roof", .equals, some (.string "old"), none, ""⟩]⟩

/-- A vacant house with a doubtful roof, in more groups than are needed. -/
def bracketedHouse : ConditionGroup :=
  ⟨.and, [.group .and [], vacantHouse, .group .or [.group .and [doubtfulRoof.toEntry]]]⟩

/-- The empty group is dissolved, the OR around a single group is left out, and what it held
is dissolved in turn. -/
theorem bracketedHouse_regrouped :
    Relation.ReflTransGen ConditionGroup.Regroups bracketedHouse
        ⟨.and, [vacantHouse, doubtfulRoof.toEntry]⟩ ∧
      (bracketedHouse.evaluate [("vacant", .bool true)]).matched = true ∧
      (bracketedHouse.evaluate [("vacant", .bool true)]).trace.map
        (fun r => (r.field, r.matched)) = [("vacant", true), ("roof", true)] := by
  have hempty : bracketedHouse.Regroups
      ⟨.and, [vacantHouse, .group .or [.group .and [doubtfulRoof.toEntry]]]⟩ :=
    .dissolve .and [] [] _
  have hsingle : ConditionGroup.Regroups
      ⟨.and, [vacantHouse, .group .or [.group .and [doubtfulRoof.toEntry]]]⟩
      ⟨.and, [vacantHouse, .group .and [doubtfulRoof.toEntry]]⟩ :=
    .within .and [vacantHouse] [] (.leaveOut .or ⟨.and, [doubtfulRoof.toEntry]⟩)
  have hnested : ConditionGroup.Regroups
      ⟨.and, [vacantHouse, .group .and [doubtfulRoof.toEntry]]⟩
      ⟨.and, [vacantHouse, doubtfulRoof.toEntry]⟩ :=
    .dissolve .and [vacantHouse] [doubtfulRoof.toEntry] []
  have hregrouped := ((Relation.ReflTransGen.single hempty).tail hsingle).tail hnested
  obtain ⟨hresult, -⟩ :=
    ConditionGroup.evaluate_regrouped [("vacant", .bool true)] hregrouped
  refine ⟨hregrouped, ?_, ?_⟩
  · rw [← hresult]
    decide +kernel
  · rw [← hresult]
    decide +kernel

end Underwriting
