import Underwriting.Proofs.Evaluation.Settings

/-! # Deltas target by target

As long as no target lies within another, the actions on one target do not notice those on
the others: in the delta, a target holds the last of the values that its own actions give it
in turn, beginning with what the context holds there. So the order of actions counts only
among those with the same target.
-/
namespace Underwriting
open Value

def onTarget (actions : List Action) (target : String) : List Action :=
  actions.filter fun a => a.Sets ∧ a.target = target

/-- The values that actions give, one after the other, to a target that holds this value at
first. An action without a result changes nothing. -/
def Action.results (current : Option Value) : List Action → List Value
  | [] => []
  | a :: actions =>
    match a.result? current with
    | none => Action.results current actions
    | some v => v :: Action.results (some v) actions

/-- Whether each action that sets a value does so at this target or apart from it. -/
def Isolated (target : String) (actions : List Action) : Prop :=
  ∀ a ∈ actions, a.Sets → Path.segments a.target = Path.segments target ∨
    Path.Apart (Path.segments a.target) (Path.segments target)

def Separate (actions : List Action) : Prop :=
  ∀ a ∈ actions, a.Sets → Isolated a.target actions

instance (target : String) (actions : List Action) : Decidable (Isolated target actions) :=
  inferInstanceAs (Decidable (∀ a ∈ actions, _))

instance (actions : List Action) : Decidable (Separate actions) :=
  inferInstanceAs (Decidable (∀ a ∈ actions, _))

/-- What a value shows at its own place. The members of an object are found below it. -/
def Value.outline : Value → Value
  | .object _ => .object []
  | v => v

/-- Whether members differ in their order at most: no path tells them apart. -/
def Members.Alike (first second : Members) : Prop :=
  ∀ p, ((object first).follow p).map outline = ((object second).follow p).map outline

/-! ## One target -/

theorem Action.results_concat (current : Option Value) (before : List Action) (a : Action) :
    results current (before ++ [a]) =
      results current before ++
        (a.result? ((results current before).getLast?.or current)).toList := by
  induction before generalizing current with
  | nil => cases h : a.result? current <;> simp [results, h]
  | cons b before ih =>
    rw [List.cons_append, results, results]
    cases b.result? current with
    | none => exact ih current
    | some v =>
      dsimp only
      rw [ih (some v), List.cons_append, List.getLast?_cons]
      cases (results (some v) before).getLast? <;> rfl

theorem onTarget_concat (before : List Action) (a : Action) (target : String) :
    onTarget (before ++ [a]) target =
      onTarget before target ++ if a.Sets ∧ a.target = target then [a] else [] := by
  rw [onTarget, List.filter_append]
  by_cases h : a.Sets ∧ a.target = target <;> simp [onTarget, h]

section Target
variable {context : Members} {actions : List Action} {target : String}

theorem sets_of_effect? {delta : Members} {a : Action} {v : Value}
    (h : a.effect? context delta = some v) : a.Sets := by
  rw [Action.effect?_eq] at h
  by_contra hnot
  rw [if_neg hnot] at h
  cases h

theorem path_of_mem_deltaWrites {w : List String × Value} (hw : w ∈ deltaWrites context actions) :
    ∃ a ∈ actions, a.Sets ∧ w.1 = Path.segments a.target := by
  obtain ⟨before, a, after, v, rfl, heffect, rfl⟩ := mem_deltaWrites.mp hw
  exact ⟨a, by simp, sets_of_effect? heffect, rfl⟩

theorem resolve_contextDelta_eq_getLast?
    (h : Isolated target actions) :
    (contextDelta context actions).resolve target =
      (((deltaWrites context actions).filter (·.1 = Path.segments target)).map
        Prod.snd).getLast? := by
  have hpaths : ∀ w ∈ deltaWrites context actions, w.1 = Path.segments target ∨
      Path.Apart w.1 (Path.segments target) := by
    intro w hw
    obtain ⟨a, ha, hsets, hpath⟩ := path_of_mem_deltaWrites hw
    rw [hpath]
    exact h a ha hsets
  have hends : ∀ w ∈ deltaWrites context actions, w.1 <+: Path.segments target →
      w.1 = Path.segments target :=
    fun w hw hway => (hpaths w hw).resolve_right fun hapart => hapart.1 hway
  have hlast := Members.memberAt_writeAll_last ne_nil_of_mem_deltaWrites hpaths []
  have hempty : (object []).memberAt (Path.segments target) = none := by
    obtain ⟨key, keys, hkeys⟩ := List.exists_cons_of_ne_nil (Path.segments_ne_nil target)
    rw [hkeys]
    rfl
  rw [Members.resolve, contextDelta_eq_writeAll, Members.follow_writeAll_nil hends, hlast, hempty,
    Option.or_none, List.getLast?_map]

theorem deltaWrites_onTarget
    (h : Isolated target actions) :
    ((deltaWrites context actions).filter (·.1 = Path.segments target)).map Prod.snd =
      Action.results (context.resolve target) (onTarget actions target) := by
  induction actions using List.reverseRecOn with
  | nil => rfl
  | append_singleton before a ih =>
    have hbefore : Isolated target before := fun b hb => h b (List.mem_append_left _ hb)
    have hdelta : (contextDelta context before).resolve target = _ :=
      resolve_contextDelta_eq_getLast? hbefore
    rw [deltaWrites_concat, onTarget_concat, List.filter_append, List.map_append, ih hbefore]
    rw [ih hbefore] at hdelta
    by_cases hon : a.Sets ∧ a.target = target
    · obtain ⟨hsets, rfl⟩ := hon
      rw [if_pos ⟨hsets, rfl⟩, Action.results_concat, Action.effect?_eq, if_pos hsets, hdelta]
      congr 1
      cases a.result? ((Action.results (context.resolve a.target)
        (onTarget before a.target)).getLast?.or (context.resolve a.target)) <;> simp
    · rw [if_neg hon, List.append_nil]
      cases heffect : a.effect? context (contextDelta context before) with
      | none => simp
      | some v =>
        have hne : Path.segments a.target ≠ Path.segments target :=
          fun hsame => hon ⟨sets_of_effect? heffect, Path.segments_injective hsame⟩
        simp [hne]

theorem resolve_contextDelta
    (h : Isolated target actions) :
    (contextDelta context actions).resolve target =
      (Action.results (context.resolve target) (onTarget actions target)).getLast? := by
  rw [resolve_contextDelta_eq_getLast? h, deltaWrites_onTarget h]

theorem mem_paths_deltaWrites (h : Separate actions) (p : List String) :
    p ∈ (deltaWrites context actions).map Prod.fst ↔
      ∃ a ∈ actions, a.Sets ∧ Path.segments a.target = p ∧
        Action.results (context.resolve a.target) (onTarget actions a.target) ≠ [] := by
  have hvalues : ∀ a ∈ actions, a.Sets →
      (Action.results (context.resolve a.target) (onTarget actions a.target) ≠ [] ↔
        Path.segments a.target ∈ (deltaWrites context actions).map Prod.fst) := by
    intro a ha hsets
    rw [← deltaWrites_onTarget (h a ha hsets), Ne, List.map_eq_nil_iff, List.filter_eq_nil_iff]
    simp
  constructor
  · intro hp
    obtain ⟨w, hw, rfl⟩ := List.mem_map.mp hp
    obtain ⟨a, ha, hsets, hpath⟩ := path_of_mem_deltaWrites hw
    exact ⟨a, ha, hsets, hpath.symm, (hvalues a ha hsets).mpr (hpath ▸ hp)⟩
  · rintro ⟨a, ha, hsets, rfl, hresults⟩
    exact (hvalues a ha hsets).mp hresults

end Target

/-! ## Whole deltas -/

section Whole
variable {context : Members} {actions others : List Action}

theorem mem_onTarget {a : Action} {target : String} :
    a ∈ onTarget actions target ↔ a ∈ actions ∧ a.Sets ∧ a.target = target := by
  simp [onTarget]

theorem onTarget_swap {a b : Action} (h : a.target ≠ b.target) (before after : List Action)
    (target : String) :
    onTarget (before ++ b :: a :: after) target = onTarget (before ++ a :: b :: after) target := by
  rw [onTarget, onTarget, List.filter_append, List.filter_append]
  congr 1
  by_cases ha : a.target = target
  · have hb : b.target ≠ target := fun hb => h (ha.trans hb.symm)
    simp [List.filter_cons, hb]
  · simp [List.filter_cons, ha]

theorem mem_and_sets_iff (hsame : ∀ target, onTarget others target = onTarget actions target)
    (a : Action) : a ∈ others ∧ a.Sets ↔ a ∈ actions ∧ a.Sets := by
  have hothers : a ∈ onTarget others a.target ↔ _ := mem_onTarget
  rw [hsame, mem_onTarget] at hothers
  simpa using hothers.symm

theorem Separate.of_onTarget_eq (h : Separate actions)
    (hsame : ∀ target, onTarget others target = onTarget actions target) : Separate others := by
  intro a ha hasets b hb hbsets
  have ha' := (mem_and_sets_iff hsame a).mp ⟨ha, hasets⟩
  have hb' := (mem_and_sets_iff hsame b).mp ⟨hb, hbsets⟩
  exact h a ha'.1 hasets b hb'.1 hbsets

/-- Where no write covers a path, only what is on the way to writes shows, as an object. -/
theorem outline_writeAll_nil {log : List (List String × Value)} {p : List String}
    (h : ∀ t ∈ log.map Prod.fst, ¬ t <+: p) :
    ((object (Members.writeAll [] log)).follow p).map outline =
      if p = [] ∨ ∃ t ∈ log.map Prod.fst, p <+: t then some (.object []) else none := by
  rw [List.forall_mem_map] at h
  by_cases habove : ∃ w ∈ log, p <+: w.1
  · obtain ⟨inner, hinner⟩ := Members.memberAt_writeAll_above h habove []
    rw [follow_of_memberAt hinner, if_pos (Or.inr (by simpa using habove))]
    rfl
  have hapart : ∀ w ∈ log, Path.Apart w.1 p :=
    fun w hw => ⟨h w hw, fun hway => habove ⟨w, hw, hway⟩⟩
  by_cases hp : p = []
  · subst hp
    rw [follow_nil, if_pos (Or.inl rfl)]
    rfl
  · rw [Members.follow_writeAll_nil_apart hapart hp, if_neg (by simpa [hp] using habove)]
    rfl

/-- Actions in another order give the same delta if those on each target keep theirs. -/
theorem alike_contextDelta (context : Members) (h : Separate actions)
    (hsame : ∀ target, onTarget others target = onTarget actions target) :
    Members.Alike (contextDelta context others) (contextDelta context actions) := by
  intro p
  by_cases hbelow : ∃ a ∈ actions, a.Sets ∧ Path.segments a.target <+: p
  · obtain ⟨a, ha, hsets, q, rfl⟩ := hbelow
    have hothers := h.of_onTarget_eq hsame a ((mem_and_sets_iff hsame a).mpr ⟨ha, hsets⟩).1 hsets
    have hvalue : (contextDelta context others).resolve a.target =
        (contextDelta context actions).resolve a.target := by
      rw [resolve_contextDelta hothers, resolve_contextDelta (h a ha hsets), hsame]
    rw [follow_append, follow_append]
    exact congrArg (fun v => (v.bind fun w => w.follow q).map outline) hvalue
  · -- no target covers the path, so it matters only which targets lie below it
    have hwritten : ∀ t, t ∈ (deltaWrites context others).map Prod.fst ↔
        t ∈ (deltaWrites context actions).map Prod.fst := by
      intro t
      rw [mem_paths_deltaWrites h, mem_paths_deltaWrites (h.of_onTarget_eq hsame)]
      simp only [hsame, ← and_assoc, mem_and_sets_iff hsame]
    have hpaths : ∀ t ∈ (deltaWrites context actions).map Prod.fst, ¬ t <+: p := by
      intro t ht hway
      obtain ⟨w, hw, rfl⟩ := List.mem_map.mp ht
      obtain ⟨a, ha, hsets, hpath⟩ := path_of_mem_deltaWrites hw
      exact hbelow ⟨a, ha, hsets, hpath ▸ hway⟩
    have hothers : ∀ t ∈ (deltaWrites context others).map Prod.fst, ¬ t <+: p :=
      fun t ht => hpaths t ((hwritten t).mp ht)
    rw [contextDelta_eq_writeAll, contextDelta_eq_writeAll, outline_writeAll_nil hothers,
      outline_writeAll_nil hpaths]
    simp only [hwritten]

end Whole

/-- A delta holds at each target the last of the values that the actions on that target give it
in turn, beginning with the value in the context, and nothing if they give none. Nothing else
is in it: a path that is neither on the way to a target that was given a value nor at or below
one leads nowhere. So actions in any other order that keeps the order on each target give the
same delta. -/
theorem contextDelta_target_by_target (context : Members) (actions : List Action)
    (h : Separate actions) :
    (∀ a ∈ actions, a.Sets →
      (contextDelta context actions).resolve a.target =
        (Action.results (context.resolve a.target) (onTarget actions a.target)).getLast?) ∧
    (∀ path, (∀ a ∈ actions, a.Sets →
        Action.results (context.resolve a.target) (onTarget actions a.target) ≠ [] →
          Path.Apart (Path.segments a.target) (Path.segments path)) →
      (contextDelta context actions).resolve path = none) ∧
    ∀ others, (∀ target, onTarget others target = onTarget actions target) →
      Members.Alike (contextDelta context others) (contextDelta context actions) := by
  refine ⟨?_, ?_, fun others hsame => alike_contextDelta context h hsame⟩
  · intro a ha hsets
    exact resolve_contextDelta (h a ha hsets)
  · intro path hpath
    have hapart : ∀ w ∈ deltaWrites context actions, Path.Apart w.1 (Path.segments path) := by
      intro w hw
      obtain ⟨a, ha, hsets, hsegments, hresults⟩ :=
        (mem_paths_deltaWrites h w.1).mp (List.mem_map_of_mem hw)
      exact hsegments ▸ hpath a ha hsets hresults
    rw [contextDelta_eq_writeAll]
    exact Members.follow_writeAll_nil_apart hapart (Path.segments_ne_nil path)

def Action.setting (target : String) (adjustment : Option Adjustment) (value : Value) : Action :=
  ⟨.set, target, adjustment, some value, none, none, ""⟩

def loading : Action := .setting "pricing.base" (some .add) (.number 5)
def grading : Action := .setting "risk.tier" none (.string "B")
def doubling : Action := .setting "pricing.base" (some .multiply) (.number 2)

def tariff : Members := [("pricing", .object [("base", .number 100), ("rate", .number 3)])]

/-- The price is raised and doubled, whatever happens to the tier in between. -/
theorem contextDelta_loading_grading_doubling :
    (contextDelta tariff [loading, grading, doubling]).resolve "pricing.base" =
        some (.number ((100 + 5) * 2)) ∧
      (contextDelta tariff [loading, grading, doubling]).resolve "pricing.rate" = none ∧
      Members.Alike (contextDelta tariff [grading, loading, doubling])
        (contextDelta tariff [loading, grading, doubling]) := by
  have hseparate : Separate [loading, grading, doubling] := by decide
  obtain ⟨htargets, hnowhere, hreordered⟩ := contextDelta_target_by_target tariff _ hseparate
  have hbase : tariff.resolve loading.target = some (.number 100) := by
    simp [tariff, loading, Action.setting, Members.resolve, Path.segments, Path.split, follow,
      step, Members.get?]
  have hon : onTarget [loading, grading, doubling] loading.target = [loading, doubling] := rfl
  have hpremium := htargets loading List.mem_cons_self (by decide)
  rw [hbase, hon] at hpremium
  refine ⟨hpremium, hnowhere _ ?_, hreordered _ ?_⟩
  · intro a ha _ _
    simp only [List.mem_cons, List.not_mem_nil, or_false] at ha
    rcases ha with rfl | rfl | rfl <;> decide
  · exact fun target => onTarget_swap (by decide) [] [doubling] target

end Underwriting
