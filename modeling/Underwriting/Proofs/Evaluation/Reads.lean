import Underwriting.Evaluation.Basic

/-! # What an evaluation rests on

An evaluation records the conditions that it has come to and the actions that it has
selected. Nothing else in a context has a part in it: contexts that agree on the paths in
the record of the first evaluation give the same evaluation.
-/
namespace Underwriting

def Action.calculates (a : Action) : Bool :=
  a.kind = .set && a.adjustment.any (· ≠ .equals)

/-- The paths that an evaluation has read, as its own record tells them. -/
def Evaluation.reads (e : Evaluation) : List String :=
  e.conditions.map (·.field) ++ (e.actions.filter (·.calculates)).map (·.target)

section Agreement
variable {first second : Members}

/-! ## Conditions -/

theorem Condition.evaluate_congr (c : Condition)
    (h : first.resolve c.field = second.resolve c.field) :
    c.evaluate second = c.evaluate first := by
  simp only [Condition.evaluate, h]

namespace Entry

mutual
/-- A second evaluation comes to the leaves that the first one has come to: at each entry the
outcomes are the same, so both stop at the same place. -/
theorem evaluate_congr : (e : Entry) →
    (∀ r ∈ (e.evaluate first).trace, first.resolve r.field = second.resolve r.field) →
    e.evaluate second = e.evaluate first
  | .condition c, h => by
    have hfield : first.resolve c.field = second.resolve c.field :=
      h (c.evaluate first) (List.mem_singleton_self _)
    rw [evaluate, evaluate, c.evaluate_congr hfield]
  | .group k es, h => by
    rw [evaluate] at h
    rw [evaluate, evaluate]
    exact evaluateAll_congr k es h

theorem evaluateAll_congr (k : Connective) : (es : List Entry) →
    (∀ r ∈ (evaluateAll first k es).trace, first.resolve r.field = second.resolve r.field) →
    evaluateAll second k es = evaluateAll first k es
  | [], _ => by
    rw [evaluateAll, evaluateAll]
  | e :: es, h => by
    rw [evaluateAll] at h
    rw [evaluateAll, evaluateAll]
    by_cases hdecided : k.isDecided (e.evaluate first).matched = true
    · rw [if_pos hdecided] at h
      have hfirst := evaluate_congr e h
      rw [hfirst, if_pos hdecided, if_pos hdecided]
    · rw [if_neg hdecided] at h
      have hfirst := evaluate_congr e fun r hr => h r (List.mem_append_left _ hr)
      have hothers := evaluateAll_congr k es fun r hr => h r (List.mem_append_right _ hr)
      rw [hfirst, if_neg hdecided, if_neg hdecided, hothers]
end

end Entry

/-! ## Actions -/

namespace Action

theorem kind_of_setting? {a : Action} {value : Value} (h : a.setting? = some value) :
    a.kind = .set := by
  unfold setting? at h
  split at h
  · rename_i hset
    exact hset.1
  · cases h

theorem effect?_congr (a : Action) (delta : Members)
    (h : a.calculates = true → first.resolve a.target = second.resolve a.target) :
    a.effect? second delta = a.effect? first delta := by
  unfold effect?
  cases hsetting : a.setting? with
  | none => rfl
  | some value =>
    have hkind := kind_of_setting? hsetting
    cases hadjustment : a.adjustment with
    | none => rfl
    | some adjustment =>
      -- `equals` gives the value itself, whatever the target holds at present
      by_cases hequals : adjustment = .equals
      · subst hequals
        rfl
      · have hcalculates : a.calculates = true := by
          simp [calculates, hkind, hadjustment, hequals]
        rw [h hcalculates]

end Action

theorem foldl_applyTo_congr (actions : List Action) (delta : Members)
    (h : ∀ a ∈ actions, a.calculates = true →
      first.resolve a.target = second.resolve a.target) :
    actions.foldl (Action.applyTo second) delta = actions.foldl (Action.applyTo first) delta := by
  induction actions generalizing delta with
  | nil => rfl
  | cons a actions ih =>
    have hstep : a.applyTo second delta = a.applyTo first delta := by
      unfold Action.applyTo
      rw [a.effect?_congr delta (h a List.mem_cons_self)]
    rw [List.foldl_cons, List.foldl_cons, hstep]
    exact ih _ fun b hb => h b (List.mem_cons_of_mem _ hb)

/-- An evaluation explains itself: any context that agrees with the first one on the paths in
its record leads to the same evaluation, with the same record and the same delta. -/
theorem Logic.evaluate_eq_of_reads (l : Logic)
    (h : ∀ path ∈ (l.evaluate first).reads, first.resolve path = second.resolve path) :
    l.evaluate second = l.evaluate first := by
  have htree : l.condition.evaluate second = l.condition.evaluate first := by
    refine Entry.evaluateAll_congr _ _ ?_
    intro r hr
    exact h r.field (List.mem_append_left _ (List.mem_map_of_mem hr))
  have hdelta : contextDelta second (l.select (l.condition.evaluate first).matched) =
      contextDelta first (l.select (l.condition.evaluate first).matched) := by
    refine foldl_applyTo_congr _ _ ?_
    intro a ha hcalculates
    refine h a.target (List.mem_append_right _ (List.mem_map_of_mem ?_))
    exact List.mem_filter.mpr ⟨ha, hcalculates⟩
  simp only [Logic.evaluate, Logic.outcome, htree, hdelta]

end Agreement

def quote (smoker : Bool) : Members :=
  [("risk", .object [("score", .number 0.5)]), ("pricing", .object [("base", .number 100)]),
    ("insured", .object [("smoker", .bool smoker)])]

def surcharge : Logic :=
  ⟨1, ⟨.or, [.condition ⟨"risk.score", .present, none, none, ""⟩,
      .condition ⟨"insured.smoker", .equals, some (.bool true), none, ""⟩]⟩,
    [⟨.set, "pricing.base", some .multiply, some (.number 2), none, none, ""⟩], none⟩

theorem resolve_quote (smoker : Bool) :
    (quote smoker).resolve "risk.score" = some (.number 0.5) ∧
      (quote smoker).resolve "pricing.base" = some (.number 100) ∧
        (quote smoker).resolve "insured.smoker" = some (.bool smoker) := by
  simp [Members.resolve, quote, Path.segments, Path.split, Value.follow, Value.step, Members.get?]

/-- The score settles the condition, so the price does not depend on the insured. -/
theorem surcharge_ignores_smoker :
    (quote true).resolve "insured.smoker" ≠ (quote false).resolve "insured.smoker" ∧
      surcharge.evaluate (quote true) = surcharge.evaluate (quote false) := by
  obtain ⟨hscore, hbase, hsmoker⟩ := resolve_quote true
  obtain ⟨hscore', hbase', hsmoker'⟩ := resolve_quote false
  refine ⟨by simp [hsmoker, hsmoker'], surcharge.evaluate_eq_of_reads ?_⟩
  have hreads : (surcharge.evaluate (quote false)).reads = ["risk.score", "pricing.base"] := by
    simp [surcharge, Logic.evaluate, Logic.outcome, Logic.select, Evaluation.reads,
      ConditionGroup.evaluate, Entry.evaluateAll, Entry.evaluate, Condition.evaluate, hscore',
      Operator.compare, Comparison.isPresent, Connective.isDecided, Action.calculates]
  rw [hreads]
  simp [hscore, hscore', hbase, hbase']

end Underwriting
