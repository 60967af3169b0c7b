import Underwriting.Proofs.Evaluation.Reads
import Underwriting.Proofs.Evaluation.Settings

/-! # Deltas and actions applied in turn

Actions could be applied to the context itself, one after the other. A delta gives each action
the effect that it would have then, with one exception: when an earlier action has replaced
something that a target lies in, and so removed the target, an action that calculates still
finds the value that the context holds there.
-/
namespace Underwriting
open Value

namespace Action

/-- The effect of an action on a context to which it is applied. -/
def effectOn? (state : Members) (a : Action) : Option Value :=
  if a.Sets then a.result? (state.resolve a.target) else none

def applyOn (state : Members) (a : Action) : Members :=
  match a.effectOn? state with
  | none => state
  | some v => state.write a.target v

end Action

def applied (context : Members) (actions : List Action) : Members :=
  actions.foldl Action.applyOn context

/-- Whether one of some actions has given a value to a target that a path lies in. -/
def Overwritten (context : Members) (before : List Action) (path : String) : Prop :=
  ∃ earlier b later, before = earlier ++ b :: later ∧
    (b.effect? context (contextDelta context earlier)).isSome ∧
      Path.segments b.target <+: Path.segments path

/-- Whether an action calculates with a value of the context that earlier actions have
removed. -/
def Stale (context : Members) (before : List Action) (a : Action) : Prop :=
  a.calculates = true ∧ Overwritten context before a.target ∧
    (contextDelta context before).resolve a.target = none ∧
      (context.resolve a.target).isSome

/-! ## Results -/

namespace Action

theorem result?_none {a : Action} (h : a.calculates = true) : a.result? none = none := by
  simp only [calculates, Bool.and_eq_true, decide_eq_true_eq] at h
  unfold result?
  cases hadjustment : a.adjustment with
  | none => simp [hadjustment] at h
  | some adjustment =>
    cases adjustment with
    | equals => simp [hadjustment] at h
    | _ => rfl

theorem result?_object (a : Action) (first second : Members) :
    a.result? (some (.object first)) = a.result? (some (.object second)) := by
  unfold result?
  cases a.adjustment with
  | none => rfl
  | some adjustment => cases adjustment <;> rfl

theorem result?_congr {a : Action} (hsets : a.Sets) (h : ¬ a.calculates = true)
    (first second : Option Value) : a.result? first = a.result? second := by
  simp only [calculates, hsets.1, decide_true, Bool.true_and] at h
  unfold result?
  cases hadjustment : a.adjustment with
  | none => rfl
  | some adjustment =>
    cases adjustment with
    | equals => rfl
    | _ => simp [hadjustment] at h

theorem listFree_of_result? {a : Action} {current : Option Value} {v : Value}
    (h : a.result? current = some v) (hvalue : ∀ x, a.value = some x → x.ListFree) :
    v.ListFree := by
  unfold result? at h
  split at h
  · exact hvalue v h
  · exact hvalue v h
  · cases h
    exact listFree_number _
  · cases h
    exact listFree_number _
  · cases h
    exact listFree_number _
  · split at h
    · cases h
    · cases h
      exact listFree_number _
  · cases h

end Action

theorem applied_concat (context : Members) (before : List Action) (a : Action) :
    applied context (before ++ [a]) = a.applyOn (applied context before) := by
  rw [applied, List.foldl_append]
  rfl

section
variable {context : Members} {before : List Action} {a : Action}

theorem listFree_of_mem_deltaWrites
    (hvalues : ∀ a ∈ before, ∀ v, a.value = some v → v.ListFree) :
    ∀ w ∈ deltaWrites context before, w.2.ListFree := by
  intro w hw
  obtain ⟨earlier, a, later, v, rfl, heffect, rfl⟩ := mem_deltaWrites.mp hw
  rw [Action.effect?_eq] at heffect
  split at heffect
  · exact Action.listFree_of_result? heffect (hvalues a (by simp))
  · cases heffect

theorem overwritten_iff {path : String} :
    Overwritten context before path ↔
      ∃ w ∈ deltaWrites context before, w.1 <+: Path.segments path := by
  constructor
  · rintro ⟨earlier, b, later, rfl, heffect, hway⟩
    obtain ⟨v, hv⟩ := Option.isSome_iff_exists.mp heffect
    exact ⟨_, mem_deltaWrites.mpr ⟨earlier, b, later, v, rfl, hv, rfl⟩, hway⟩
  · rintro ⟨w, hw, hway⟩
    obtain ⟨earlier, b, later, v, rfl, heffect, rfl⟩ := mem_deltaWrites.mp hw
    exact ⟨earlier, b, later, rfl, by rw [heffect]; rfl, hway⟩

/-! ## One action -/

theorem resolve_writeAll_of_overwritten {path : String} (h : Overwritten context before path)
    (hvalues : ∀ b ∈ before, ∀ v, b.value = some v → v.ListFree) :
    (context.writeAll (deltaWrites context before)).resolve path =
      (contextDelta context before).resolve path := by
  rw [contextDelta_eq_writeAll]
  exact Members.follow_writeAll_below ne_nil_of_mem_deltaWrites
    (listFree_of_mem_deltaWrites hvalues) (overwritten_iff.mp h) context

theorem resolve_writeAll_of_not_overwritten {path : String}
    (h : ¬ Overwritten context before path) (hlists : ¬ context.ListAbove path) :
    (∃ inner outer, (contextDelta context before).resolve path = some (.object inner) ∧
      (context.writeAll (deltaWrites context before)).resolve path = some (.object outer)) ∨
    ((contextDelta context before).resolve path = none ∧
      (context.writeAll (deltaWrites context before)).resolve path = context.resolve path) := by
  have hcovered : ∀ w ∈ deltaWrites context before, ¬ w.1 <+: Path.segments path :=
    fun w hw hway => h (overwritten_iff.mpr ⟨w, hw, hway⟩)
  rw [contextDelta_eq_writeAll]
  by_cases habove : ∃ w ∈ deltaWrites context before, Path.segments path <+: w.1
  · obtain ⟨inner, hinner⟩ := Members.memberAt_writeAll_above hcovered habove []
    obtain ⟨outer, houter⟩ := Members.memberAt_writeAll_above hcovered habove context
    exact Or.inl ⟨inner, outer, follow_of_memberAt hinner, follow_of_memberAt houter⟩
  · have hapart : ∀ w ∈ deltaWrites context before, Path.Apart w.1 (Path.segments path) :=
      fun w hw => ⟨hcovered w hw, fun hway => habove ⟨w, hw, hway⟩⟩
    refine Or.inr ⟨Members.follow_writeAll_nil_apart hapart (Path.segments_ne_nil path), ?_⟩
    refine Members.follow_writeAll_apart hapart ?_
    intro above hway hne items hlist
    exact hlists ⟨above, hway, hne, items, hlist⟩

/-- As long as the context has taken the writes of the delta, an action finds there what the
delta lets it find, unless it is stale: then its target is gone. -/
theorem effectOn?_writeAll (hlists : a.Sets → ¬ context.ListAbove a.target)
    (hvalues : ∀ b ∈ before, ∀ v, b.value = some v → v.ListFree) :
    (Stale context before a →
      a.effectOn? (context.writeAll (deltaWrites context before)) = none) ∧
    (¬ Stale context before a →
      a.effectOn? (context.writeAll (deltaWrites context before)) =
        a.effect? context (contextDelta context before)) := by
  rw [Action.effectOn?, Action.effect?_eq]
  by_cases hsets : a.Sets
  · rw [if_pos hsets, if_pos hsets]
    constructor
    · rintro ⟨hcalculates, hover, hdelta, -⟩
      rw [resolve_writeAll_of_overwritten hover hvalues, hdelta, Action.result?_none hcalculates]
    · intro hfresh
      by_cases hcalculates : a.calculates = true
      · by_cases hover : Overwritten context before a.target
        · rw [resolve_writeAll_of_overwritten hover hvalues]
          cases hdelta : (contextDelta context before).resolve a.target with
          | some v => rfl
          | none =>
            have hcontext : context.resolve a.target = none := by
              by_contra hsome
              exact hfresh ⟨hcalculates, hover, hdelta, Option.isSome_iff_ne_none.mpr hsome⟩
            rw [hcontext]
            rfl
        · rcases resolve_writeAll_of_not_overwritten hover (hlists hsets) with
            ⟨inner, outer, hdelta, hstate⟩ | ⟨hdelta, hstate⟩
          · -- two objects with other members, and no object is calculated with
            rw [hdelta, hstate, Option.some_or]
            exact a.result?_object outer inner
          · rw [hdelta, hstate, Option.none_or]
      · exact Action.result?_congr hsets hcalculates _ _
  · rw [if_neg hsets, if_neg hsets]
    exact ⟨fun _ => rfl, fun _ => rfl⟩

/-! ## Whole runs -/

theorem applied_eq_writeAll
    (hlists : ∀ b ∈ before, b.Sets → ¬ context.ListAbove b.target)
    (hvalues : ∀ b ∈ before, ∀ v, b.value = some v → v.ListFree)
    (hfresh : ∀ earlier b later, before = earlier ++ b :: later → ¬ Stale context earlier b) :
    applied context before = context.writeAll (deltaWrites context before) := by
  induction before using List.reverseRecOn with
  | nil => rfl
  | append_singleton before b ih =>
    have hbefore := ih (fun c hc => hlists c (List.mem_append_left _ hc))
      (fun c hc => hvalues c (List.mem_append_left _ hc))
      (fun earlier c later hsplit => hfresh earlier c (later ++ [b]) (by simp [hsplit]))
    have heffect := (effectOn?_writeAll (hlists b (by simp))
      fun c hc => hvalues c (List.mem_append_left _ hc)).2 (hfresh before b [] rfl)
    rw [applied_concat, deltaWrites_concat, Action.applyOn, hbefore, heffect]
    cases b.effect? context (contextDelta context before) with
    | none => simp
    | some v =>
      rw [Option.map_some, Option.toList_some, Members.writeAll_concat]
      rfl

end

/-- In a context in which no target comes to a list on its way, with actions whose values hold
no list, and as long as no action is stale, each action has in the delta the effect that it has
when all actions are applied to the context in turn, and then its target holds the same value
in both. An action that is stale has no effect in turn. -/
theorem effect?_eq_effectOn?_of_not_stale (context : Members) (actions : List Action)
    (hlists : ∀ a ∈ actions, a.Sets → ¬ context.ListAbove a.target)
    (hvalues : ∀ a ∈ actions, ∀ v, a.value = some v → v.ListFree)
    (before : List Action) (a : Action) (after : List Action)
    (hsplit : actions = before ++ a :: after)
    (hfresh : ∀ earlier b later, before = earlier ++ b :: later → ¬ Stale context earlier b) :
    (Stale context before a → a.effectOn? (applied context before) = none) ∧
    (¬ Stale context before a →
      a.effect? context (contextDelta context before) = a.effectOn? (applied context before) ∧
        ∀ v, a.effectOn? (applied context before) = some v →
          (contextDelta context (before ++ [a])).resolve a.target = some v ∧
            (applied context (before ++ [a])).resolve a.target = some v) := by
  subst hsplit
  have hbefore : ∀ b ∈ before, ∀ v, b.value = some v → v.ListFree :=
    fun b hb => hvalues b (List.mem_append_left _ hb)
  have happlied := applied_eq_writeAll
    (fun b hb => hlists b (List.mem_append_left _ hb)) hbefore hfresh
  obtain ⟨hstale, hagree⟩ := effectOn?_writeAll (hlists a (by simp)) hbefore
  rw [← happlied] at hstale hagree
  refine ⟨hstale, fun hnot => ⟨(hagree hnot).symm, ?_⟩⟩
  intro v hv
  rw [contextDelta_concat, applied_concat, Action.applyTo, Action.applyOn, ← hagree hnot, hv]
  exact ⟨Members.resolve_write _ _ _, Members.resolve_write _ _ _⟩

/-! ## Limits that are replaced -/

theorem Members.not_listAbove {members : Members} (h : (object members).ListFree)
    (path : String) : ¬ members.ListAbove path := by
  rintro ⟨above, -, -, items, hlist⟩
  rw [follow_eq_memberAt fun p _ _ items => h p items] at hlist
  exact h above items hlist

theorem listFree_of_one_number (keys : List String) (hkeys : keys ≠ []) (x : Float) :
    (object (Members.writeAt [] keys (.number x))).ListFree := by
  have hlog : ∀ w ∈ [(keys, number x)], w.1 ≠ [] ∧ w.2.ListFree := by
    intro w hw
    obtain rfl := List.mem_singleton.mp hw
    exact ⟨hkeys, listFree_number x⟩
  exact Members.listFree_writeAll_nil (fun w hw => (hlog w hw).1) (fun w hw => (hlog w hw).2)

def limits : Members := Members.writeAt [] ["coverage", "limit", "building"] (.number 5)

def raise : Action :=
  ⟨.set, "coverage.limit.building", some .add, some (.number 1), none, none, ""⟩

def replaceLimits (v : Value) : Action := ⟨.set, "coverage.limit", none, some v, none, none, ""⟩

theorem limits_hypotheses {v : Value} (hv : v.ListFree) :
    (∀ a ∈ [replaceLimits v, raise], a.Sets → ¬ limits.ListAbove a.target) ∧
      ∀ a ∈ [replaceLimits v, raise], ∀ x, a.value = some x → x.ListFree := by
  constructor
  · intro a _ _
    exact Members.not_listAbove (listFree_of_one_number _ (by decide) 5) a.target
  · intro a ha x hx
    simp only [List.mem_cons, List.not_mem_nil, or_false] at ha
    rcases ha with rfl | rfl
    · obtain rfl : v = x := Option.some.inj hx
      exact hv
    · obtain rfl : number 1 = x := Option.some.inj hx
      exact listFree_number 1

/-- When a number takes the place of all limits there is no limit for buildings left that could
be raised, and yet the delta holds one: in general, deltas do not follow the actions in turn. -/
theorem raise_after_limits_removed :
    ¬ ∀ (context : Members) (actions : List Action),
      (∀ a ∈ actions, a.Sets → ¬ context.ListAbove a.target) →
      (∀ a ∈ actions, ∀ v, a.value = some v → v.ListFree) →
      ∀ before a after, actions = before ++ a :: after →
        a.effect? context (contextDelta context before) =
          a.effectOn? (applied context before) := by
  intro hall
  obtain ⟨hlists, hvalues⟩ := limits_hypotheses (listFree_number 7)
  have hsame := hall limits _ hlists hvalues [replaceLimits (.number 7)] raise [] rfl
  have hdelta : raise.effect? limits (contextDelta limits [replaceLimits (.number 7)]) =
      some (.number (5 + 1)) := rfl
  have hturn : raise.effectOn? (applied limits [replaceLimits (.number 7)]) = none := rfl
  rw [hdelta, hturn] at hsame
  cases hsame

def otherLimits : Value := object (Members.writeAt [] ["building"] (.number 7))

/-- Other limits in place of all are raised in the delta as they are in turn. -/
theorem raise_after_limits_replaced :
    raise.effect? limits (contextDelta limits [replaceLimits otherLimits]) =
        raise.effectOn? (applied limits [replaceLimits otherLimits]) ∧
      (contextDelta limits [replaceLimits otherLimits, raise]).resolve raise.target =
        some (.number (7 + 1)) := by
  obtain ⟨hlists, hvalues⟩ :=
    limits_hypotheses (listFree_of_one_number ["building"] (by decide) 7)
  have hfirst : ∀ earlier b later, [replaceLimits otherLimits] = earlier ++ b :: later →
      ¬ Stale limits earlier b := by
    intro earlier b later hsplit
    obtain ⟨-, rfl, -⟩ : earlier = [] ∧ replaceLimits otherLimits = b ∧ later = [] := by
      cases earlier <;> simp_all
    exact fun hstale => Bool.false_ne_true hstale.1
  have hfound : (contextDelta limits [replaceLimits otherLimits]).resolve raise.target =
      some (.number 7) := rfl
  have hfresh : ¬ Stale limits [replaceLimits otherLimits] raise := by
    intro hstale
    rw [Stale, hfound] at hstale
    cases hstale.2.2.1
  have hagree := (effect?_eq_effectOn?_of_not_stale limits _ hlists hvalues
    [replaceLimits otherLimits] raise [] rfl hfirst).2 hfresh
  exact ⟨hagree.1, (hagree.2 _ rfl).1⟩

end Underwriting
