import Underwriting.Proofs.RuleSet.Schedule
import Underwriting.Service.Dispatch

/-! # Rule sets in parallel

The workers of a rule set share the numbers of its ordered rules. What a set reports does
not depend on how many workers there are, nor on the order in which they take their steps.
-/
namespace Underwriting.RuleSet
open WorkerPool

/-- The job of a number: evaluating the rule that has it. -/
def job (rules : List Rule) (context : Members) (i : Nat) : Evaluation :=
  match rules[i]? with
  | some r => r.logic.evaluate context
  | none => .blank

def outcomeOf (rules : List Rule) (results : List Evaluation) : RuleSetOutcome :=
  summarize (List.zipWith (fun r result => ⟨r.id, r.priority, result⟩) rules results)

/-- A pool for some rules that has only the calling worker. -/
def alone (rules : List Rule) : WorkerPool Evaluation := start 1 rules.length .blank

theorem map_job (rules : List Rule) (context : Members) :
    (List.range rules.length).map (job rules context) =
      rules.map fun r => r.logic.evaluate context := by
  refine List.ext_getElem? ?_
  intro i
  rw [List.getElem?_map, List.getElem?_map]
  by_cases hi : i < rules.length
  · simp [job, hi]
  · simp [hi]

theorem evaluations_eq (rules : List Rule) (context : Members) (workers : Nat) :
    evaluations rules context workers = rules.map fun r => r.logic.evaluate context := by
  by_cases hfew : workers ≤ 1 ∨ rules.length ≤ 1
  · rw [evaluations, if_pos hfew]
  · have hworkers : 0 < min workers rules.length := by omega
    rw [evaluations, if_neg hfew]
    exact (results_eq (job rules context) hworkers rules.length .blank).trans
      (map_job rules context)

theorem evaluateAll_eq (s : RuleSet) (context : Members) (workers : Nat) :
    s.evaluateAll context workers =
      outcomeOf s.ordered (s.ordered.map fun r => r.logic.evaluate context) := by
  rw [evaluateAll, evaluations_eq, outcomeOf]

theorem slots_of_run {rules : List Rule} {context : Members} {events : List Event}
    {final : WorkerPool Evaluation} (hrun : Run (job rules context) (alone rules) events final)
    (hstopped : final.AllStopped) :
    final.slots = rules.map fun r => r.logic.evaluate context :=
  (hrun.consistent.slots_of_allStopped hstopped).trans (map_job rules context)

theorem dispatch_evaluateAll (json : Json.Library) (p : Provider) (id : UInt64)
    (context : Members) (requested : UInt32) :
    p.dispatch json ⟨id, some (.evaluateAll context requested)⟩ =
      ⟨id, ⟨.ok, "ok"⟩, some (.evaluateAll (.ofOutcome
        (outcomeOf p.rules.ordered (p.rules.ordered.map fun r => r.logic.evaluate context))))⟩ := by
  refine Provider.dispatch_of_answered fun r => ?_
  rw [Provider.handle, Provider.evaluateAll, evaluateAll_eq]

/-- However many workers join the caller, and whenever they do, each rule is evaluated by
one of them; when all of them have stopped, the outcome is that of the caller alone. The
answer to a request depends neither on the workers it asks for nor on the provider's. -/
theorem evaluateAll_schedule_independent (s : RuleSet) (context : Members) :
    (∀ (events : List Event) (final : WorkerPool Evaluation),
      Run (job s.ordered context) (alone s.ordered) events final →
        final.Exclusive ∧ (held final.workers ++ written events).Nodup ∧
          (final.AllStopped →
            final.slots = (s.ordered.map fun r => r.logic.evaluate context) ∧
              outcomeOf s.ordered final.slots = s.evaluateAll context 1)) ∧
      (∀ workers, s.evaluateAll context workers = s.evaluateAll context 1) ∧
      ∀ (json : Json.Library) (p : Provider) (id : UInt64) (configured : Nat)
        (requested others : UInt32),
        { p with workers := configured, rules := s }.dispatch json
            ⟨id, some (.evaluateAll context requested)⟩ =
          { p with rules := s }.dispatch json ⟨id, some (.evaluateAll context others)⟩ := by
  refine ⟨?_, ?_, ?_⟩
  · intro events final hrun
    refine ⟨hrun.consistent.exclusive, hrun.consistent.nodup, ?_⟩
    intro hstopped
    have hslots := slots_of_run hrun hstopped
    exact ⟨hslots, by rw [hslots, evaluateAll_eq]⟩
  · intro workers
    rw [evaluateAll_eq, evaluateAll_eq]
  · intro json p id configured requested others
    rw [dispatch_evaluateAll, dispatch_evaluateAll]

def announcing (id : String) (priority : Int32) : Rule :=
  ⟨id, id, priority, true,
    ⟨1, ⟨.and, []⟩, [⟨.addMessage, "", none, none, some id, none, ""⟩], none⟩⟩

def announcements : RuleSet := ⟨[announcing "a" 1, announcing "b" 2]⟩

theorem ordered_announcements :
    announcements.ordered = [announcing "b" 2, announcing "a" 1] := by
  simp [announcements, ordered, announcing, List.mergeSort, List.MergeSort.Internal.splitInTwo]

/-- A second worker joins when the caller has a rule in hands already, takes the other one
and is done before the caller is. -/
theorem evaluateAll_late_worker :
    ∃ events final,
      Run (job announcements.ordered []) (alone announcements.ordered) events final ∧
        final.workers = [.stopped, .stopped] ∧ final.next = 4 ∧
          outcomeOf announcements.ordered final.slots = announcements.evaluateAll [] 1 := by
  have hall := evaluateAll_schedule_independent announcements []
  rw [ordered_announcements] at hall ⊢
  obtain ⟨first, hfirst⟩ := exists_run_run (job [announcing "b" 2, announcing "a" 1] [])
    (alone [announcing "b" 2, announcing "a" 1]) [0]
  obtain ⟨others, hothers⟩ := exists_run_run (job [announcing "b" 2, announcing "a" 1] [])
    ⟨1, [.busy 0, .ready], [.blank, .blank]⟩ [1, 1, 1, 0, 0]
  have hrun := (hfirst.snoc .join).append hothers
  refine ⟨_, _, hrun, rfl, rfl, ((hall.1 _ _ hrun).2.2 ?_).2⟩
  intro w hw
  have hmem : w ∈ [Worker.stopped, Worker.stopped] := hw
  simpa using hmem

end Underwriting.RuleSet
