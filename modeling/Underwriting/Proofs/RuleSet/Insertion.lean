import Underwriting.Proofs.RuleSet.Identifiers

/-! # Adding a rule to a set

The order of a set is determined by its enabled rules of each priority. So a rule that is
added to a set takes one place among the outcomes, behind those of its priority and of higher
ones, and changes nothing about the others. A disabled rule changes nothing at all.
-/
namespace Underwriting
namespace RuleSet

/-! ## Sorted lists of rules -/

def Descending (rules : List Rule) : Prop :=
  rules.Pairwise fun a b => b.priority ≤ a.priority

def enabledAt (s : RuleSet) (priority : Int32) : List Rule :=
  (s.rules.filter (·.enabled)).filter (·.priority = priority)

theorem mem_iff_of_filter_priority {l l' : List Rule}
    (h : ∀ priority, l.filter (·.priority = priority) = l'.filter (·.priority = priority))
    (r : Rule) : r ∈ l ↔ r ∈ l' := by
  have hmem (l : List Rule) : r ∈ l ↔ r ∈ l.filter (·.priority = r.priority) := by
    simp
  rw [hmem l, hmem l', h]

theorem Descending.priority_le_head {a r : Rule} {l : List Rule} (h : Descending (a :: l))
    (hr : r ∈ a :: l) : r.priority ≤ a.priority := by
  rcases List.mem_cons.mp hr with rfl | hr
  · exact Int32.le_refl _
  · exact List.rel_of_pairwise_cons h hr

/-- A sorted list is determined by its rules of each priority. -/
theorem Descending.eq_of_filter_priority {l l' : List Rule} (h : Descending l)
    (h' : Descending l')
    (heq : ∀ priority, l.filter (·.priority = priority) = l'.filter (·.priority = priority)) :
    l = l' := by
  induction l generalizing l' with
  | nil =>
    have hnone : ∀ r, r ∉ l' := by
      intro r hr
      exact List.not_mem_nil ((mem_iff_of_filter_priority heq r).mpr hr)
    exact (List.eq_nil_iff_forall_not_mem.mpr hnone).symm
  | cons a l ih =>
    cases l' with
    | nil =>
      have hmem := (mem_iff_of_filter_priority heq a).mp List.mem_cons_self
      cases hmem
    | cons b l' =>
      -- both heads have the largest priority, and the first rule of that priority is one
      have hpriority : a.priority = b.priority := by
        apply Int32.le_antisymm
        · exact h'.priority_le_head ((mem_iff_of_filter_priority heq a).mp List.mem_cons_self)
        · exact h.priority_le_head ((mem_iff_of_filter_priority heq b).mpr List.mem_cons_self)
      have hhead := heq a.priority
      rw [List.filter_cons_of_pos (by simp), List.filter_cons_of_pos (by simp [hpriority])]
        at hhead
      obtain ⟨rfl, -⟩ := List.cons.inj hhead
      refine congrArg (a :: ·) (ih h.tail h'.tail fun priority => ?_)
      have htails := heq priority
      by_cases ha : a.priority = priority
      · simpa [ha] using htails
      · simpa [ha] using htails

/-- A sorted list falls into the rules of at least this priority and those of lower ones. -/
theorem Descending.exists_split {l : List Rule} (h : Descending l) (priority : Int32) :
    ∃ before after, l = before ++ after ∧ (∀ r ∈ before, priority ≤ r.priority) ∧
      ∀ r ∈ after, r.priority < priority := by
  induction l with
  | nil => exact ⟨[], [], rfl, nofun, nofun⟩
  | cons a l ih =>
    by_cases ha : priority ≤ a.priority
    · obtain ⟨before, after, rfl, hbefore, hafter⟩ := ih h.tail
      exact ⟨a :: before, after, rfl, List.forall_mem_cons.mpr ⟨ha, hbefore⟩, hafter⟩
    · refine ⟨[], a :: l, rfl, nofun, ?_⟩
      intro r hr
      exact Int32.lt_of_le_of_lt (h.priority_le_head hr) (Int32.not_le.mp ha)

/-! ## The order of a set -/

section Order
variable {s s' : RuleSet} {r : Rule}

theorem ordered_congr (h : ∀ priority, s.enabledAt priority = s'.enabledAt priority) :
    s.ordered = s'.ordered := by
  apply Descending.eq_of_filter_priority (ordered_sorted s) (ordered_sorted s')
  intro priority
  rw [filter_priority_ordered, filter_priority_ordered]
  exact h priority

theorem ordered_add_of_disabled (hadd : s.add r = (none, s')) (hdisabled : r.enabled = false) :
    s'.ordered = s.ordered := by
  obtain ⟨-, rfl⟩ := add_eq_none_iff.mp hadd
  apply ordered_congr
  intro priority
  simp [enabledAt, hdisabled]

theorem enabledAt_add_of_enabled (hadd : s.add r = (none, s')) (henabled : r.enabled = true)
    (priority : Int32) :
    s'.enabledAt priority = s.enabledAt priority ++ [r].filter (·.priority = priority) := by
  obtain ⟨-, rfl⟩ := add_eq_none_iff.mp hadd
  simp only [enabledAt, List.filter_append]
  rw [List.filter_cons_of_pos henabled, List.filter_nil]

theorem Descending.insert {before after : List Rule} (h : Descending (before ++ after))
    (hbefore : ∀ x ∈ before, r.priority ≤ x.priority)
    (hafter : ∀ x ∈ after, x.priority < r.priority) : Descending (before ++ r :: after) := by
  obtain ⟨hsorted, hsorted', hacross⟩ := List.pairwise_append.mp h
  refine List.pairwise_append.mpr ⟨hsorted, List.pairwise_cons.mpr ⟨?_, hsorted'⟩, ?_⟩
  · intro x hx
    exact Int32.le_of_lt (hafter x hx)
  · intro x hx y hy
    rcases List.mem_cons.mp hy with rfl | hy
    · exact hbefore x hx
    · exact hacross x hx y hy

/-- An enabled rule comes right behind the last one whose priority is not lower. -/
theorem ordered_add_of_enabled {before after : List Rule} (hadd : s.add r = (none, s'))
    (henabled : r.enabled = true) (hsplit : s.ordered = before ++ after)
    (hbefore : ∀ x ∈ before, r.priority ≤ x.priority)
    (hafter : ∀ x ∈ after, x.priority < r.priority) : s'.ordered = before ++ r :: after := by
  have hsorted : Descending (before ++ after) := hsplit ▸ ordered_sorted s
  apply Descending.eq_of_filter_priority (ordered_sorted s') (hsorted.insert hbefore hafter)
  intro priority
  have hold : s.enabledAt priority =
      before.filter (·.priority = priority) ++ after.filter (·.priority = priority) := by
    rw [← List.filter_append, ← hsplit]
    exact (filter_priority_ordered s priority).symm
  have hnew : s'.ordered.filter (·.priority = priority) =
      s.enabledAt priority ++ [r].filter (·.priority = priority) :=
    (filter_priority_ordered s' priority).trans (enabledAt_add_of_enabled hadd henabled priority)
  rw [hnew, hold, List.filter_append, List.append_assoc]
  congr 1
  by_cases hr : r.priority = priority
  · have hnone : after.filter (·.priority = priority) = [] := by
      rw [List.filter_eq_nil_iff]
      intro x hx hsame
      have hlower := hafter x hx
      rw [hr, of_decide_eq_true hsame] at hlower
      exact Int32.lt_irrefl hlower
    simp [hr, hnone]
  · simp [hr]

end Order

/-! ## What a set reports -/

def outcome (context : Members) (r : Rule) : RuleOutcome :=
  ⟨r.id, r.priority, r.logic.evaluate context⟩

def messagesOf (outcomes : List RuleOutcome) : List RuleMessage :=
  outcomes.flatMap (·.result.messages)

def matchedIdsOf (outcomes : List RuleOutcome) : List String :=
  (outcomes.filter (·.result.matched)).map (·.ruleId)

/-- A new report is the old one with an outcome inserted between those that are not lower in
priority and those that are. -/
structure Insertion (old : RuleSetOutcome) (before : List RuleOutcome) (o : RuleOutcome)
    (after : List RuleOutcome) (new : RuleSetOutcome) : Prop where
  before_priority : ∀ x ∈ before, o.priority ≤ x.priority
  after_priority : ∀ x ∈ after, x.priority < o.priority
  outcomes : old.outcomes = before ++ after ∧ new.outcomes = before ++ o :: after
  messages : old.messages = messagesOf before ++ messagesOf after ∧
    new.messages = messagesOf before ++ o.result.messages ++ messagesOf after
  matchedIds : old.matchedIds = matchedIdsOf before ++ matchedIdsOf after ∧
    new.matchedIds =
      matchedIdsOf before ++ (if o.result.matched then [o.ruleId] else []) ++ matchedIdsOf after
  blocked : new.blocked = (old.blocked || o.result.blocked)

theorem insertion_summarize {before after : List RuleOutcome} {o : RuleOutcome}
    (hbefore : ∀ x ∈ before, o.priority ≤ x.priority)
    (hafter : ∀ x ∈ after, x.priority < o.priority) :
    Insertion (summarize (before ++ after)) before o after (summarize (before ++ o :: after)) where
  before_priority := hbefore
  after_priority := hafter
  outcomes := ⟨rfl, rfl⟩
  messages := by simp [summarize, messagesOf]
  matchedIds := by
    cases hmatched : o.result.matched <;> simp [summarize, matchedIdsOf, hmatched]
  blocked := by
    simp only [summarize, List.any_append, List.any_cons]
    rw [Bool.or_left_comm, Bool.or_comm o.result.blocked]

theorem evaluateAll_eq_summarize_outcome (s : RuleSet) (context : Members) (workers : Nat) :
    s.evaluateAll context workers = summarize (s.ordered.map (outcome context)) :=
  evaluateAll_eq_summarize s context workers

theorem evaluateAll_congr_ordered {s t : RuleSet} (h : s.ordered = t.ordered)
    (context : Members) (workers others : Nat) :
    s.evaluateAll context workers = t.evaluateAll context others := by
  rw [evaluateAll_eq_summarize_outcome, evaluateAll_eq_summarize_outcome, h]

theorem exists_insertion_of_enabled {s s' : RuleSet} {r : Rule} (hadd : s.add r = (none, s'))
    (henabled : r.enabled = true) (context : Members) (workers others : Nat) :
    ∃ before after, Insertion (s.evaluateAll context others) before (outcome context r) after
      (s'.evaluateAll context workers) := by
  have hsorted : Descending s.ordered := ordered_sorted s
  obtain ⟨before, after, hsplit, hbefore, hafter⟩ := hsorted.exists_split r.priority
  have hnew := ordered_add_of_enabled hadd henabled hsplit hbefore hafter
  refine ⟨before.map (outcome context), after.map (outcome context), ?_⟩
  rw [evaluateAll_eq_summarize_outcome, evaluateAll_eq_summarize_outcome, hsplit, hnew,
    List.map_append, List.map_append, List.map_cons]
  apply insertion_summarize
  · exact List.forall_mem_map.mpr hbefore
  · exact List.forall_mem_map.mpr hafter

/-- Adding a rule to a set that does not have its identifier changes nothing about the other
rules: a disabled rule does not show at all, and an enabled one takes a place of its own in
what the set reports. So a report does not depend on disabled rules, nor on the order in which
rules of different priorities were added: sets with the same enabled rules of each priority
report the same. -/
theorem evaluateAll_add (s : RuleSet) {r : Rule} (hnew : ∀ x ∈ s.rules, x.id ≠ r.id)
    (context : Members) :
    ∃ s', s.add r = (none, s') ∧
      (r.enabled = false → ∀ workers others,
        s'.evaluateAll context workers = s.evaluateAll context others) ∧
      (r.enabled = true → ∀ workers others, ∃ before after,
        Insertion (s.evaluateAll context others) before (outcome context r) after
          (s'.evaluateAll context workers)) ∧
      ∀ t : RuleSet, (∀ priority, s.enabledAt priority = t.enabledAt priority) → ∀ workers others,
        s.evaluateAll context workers = t.evaluateAll context others := by
  have hadd : s.add r = (none, ⟨s.rules ++ [r]⟩) := add_of_new hnew
  refine ⟨_, hadd, ?_, ?_, ?_⟩
  · intro hdisabled
    exact evaluateAll_congr_ordered (ordered_add_of_disabled hadd hdisabled) context
  · intro henabled
    exact exists_insertion_of_enabled hadd henabled context
  · intro t hsame
    exact evaluateAll_congr_ordered (ordered_congr hsame) context

/-- An announcement comes behind the one of the same priority that was there before. -/
theorem matchedIds_added_announcement :
    (∀ x ∈ announcements.rules, x.id ≠ (announcing "c" 2).id) ∧
      ∃ s', announcements.add (announcing "c" 2) = (none, s') ∧
        (s'.evaluateAll [] 3).matchedIds = ["b", "c", "a"] := by
  have hnew : ∀ x ∈ announcements.rules, x.id ≠ (announcing "c" 2).id := by
    simp [announcements, announcing]
  obtain ⟨s', hadd, -, henabled, -⟩ := evaluateAll_add announcements hnew []
  obtain ⟨before, after, hinsertion⟩ := henabled rfl 3 1
  have hold : before ++ after = [outcome [] (announcing "b" 2), outcome [] (announcing "a" 1)] := by
    rw [← hinsertion.outcomes.1, evaluateAll_eq_summarize_outcome, ordered_announcements]
    rfl
  have hplace : before = [outcome [] (announcing "b" 2)] ∧
      after = [outcome [] (announcing "a" 1)] := by
    -- any other split would put a lower outcome before the new one or one as high behind it
    rcases before with _ | ⟨x, _ | ⟨y, before⟩⟩
    · obtain rfl : after = _ := hold
      have hlower := hinsertion.after_priority (outcome [] (announcing "b" 2)) List.mem_cons_self
      exact absurd hlower (by decide)
    · simpa using hold
    · obtain ⟨-, hsecond⟩ := List.cons.inj hold
      obtain ⟨rfl, -⟩ := List.cons.inj hsecond
      have hhigher := hinsertion.before_priority (outcome [] (announcing "a" 1))
        (List.mem_cons_of_mem x List.mem_cons_self)
      exact absurd hhigher (by decide)
  refine ⟨hnew, s', hadd, ?_⟩
  rw [hinsertion.matchedIds.2, hplace.1, hplace.2]
  rfl

end RuleSet
end Underwriting
