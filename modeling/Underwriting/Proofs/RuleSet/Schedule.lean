import Mathlib.Data.List.Perm.Basic
import Underwriting.RuleSet.WorkerPool

/-! # Worker pools under any schedule

A pool starts with one worker, the caller; others join while those that are there may
already be at work, as many as can be had. Whatever the order of all these steps, the jobs
in the hands of workers and those already stored are, together, the first numbers of the
counter, each of them once. So no job is done twice, and when all workers have stopped all
jobs are done. A schedule that gives each worker enough turns stops all of them.
-/
namespace Underwriting

def Worker.job? : Worker → Option Nat
  | .ready => none
  | .busy i => some i
  | .stopped => none

namespace WorkerPool
open scoped List
variable {α : Type}

inductive Event where
  /-- One more worker has been started. -/
  | join
  | fetch (worker job : Nat)
  | store (worker job : Nat)
  | stop (worker : Nat)
  deriving DecidableEq, Repr

def Event.written? : Event → Option Nat
  | .join => none
  | .fetch _ _ => none
  | .store _ i => some i
  | .stop _ => none

/-- The steps that can be taken in a pool. -/
inductive Step (job : Nat → α) (pool : WorkerPool α) : Event → WorkerPool α → Prop where
  | join : Step job pool .join { pool with workers := pool.workers ++ [.ready] }
  | fetch {w : Nat} (hready : pool.workers[w]? = some .ready)
      (hnext : pool.next < pool.slots.length) :
      Step job pool (.fetch w pool.next)
        { pool with next := pool.next + 1, workers := pool.workers.set w (.busy pool.next) }
  | stop {w : Nat} (hready : pool.workers[w]? = some .ready)
      (hnext : pool.slots.length ≤ pool.next) :
      Step job pool (.stop w)
        { pool with next := pool.next + 1, workers := pool.workers.set w .stopped }
  | store {w i : Nat} (hbusy : pool.workers[w]? = some (.busy i)) :
      Step job pool (.store w i)
        { pool with workers := pool.workers.set w .ready, slots := pool.slots.set i (job i) }

inductive Run (job : Nat → α) (pool : WorkerPool α) : List Event → WorkerPool α → Prop where
  | nil : Run job pool [] pool
  | snoc {events : List Event} {event : Event} {middle final : WorkerPool α}
      (before : Run job pool events middle) (last : Step job middle event final) :
      Run job pool (events ++ [event]) final

def held (workers : List Worker) : List Nat := workers.filterMap Worker.job?

/-- The slots that have been written, in the order of writing. -/
def written (events : List Event) : List Nat := events.filterMap Event.written?

/-- What every schedule keeps. Fetched jobs are in the hands of one worker or stored, stored
results stay, and the counter runs past the last job only to stop workers. -/
structure Consistent (job : Nat → α) (jobs : Nat) (events : List Event)
    (pool : WorkerPool α) : Prop where
  size : pool.slots.length = jobs
  fetched : (held pool.workers ++ written events).Perm (List.range (min pool.next jobs))
  stored : ∀ i ∈ written events, pool.slots[i]? = some (job i)
  counter : pool.next = min pool.next jobs + pool.workers.count .stopped
  caller : pool.workers ≠ []

/-! ## One step -/

theorem held_set {workers : List Worker} {w : Nat} {old : Worker}
    (h : workers[w]? = some old) (new : Worker) :
    (old.job?.toList ++ held (workers.set w new)).Perm (new.job?.toList ++ held workers) := by
  obtain ⟨hw, hold⟩ := List.getElem?_eq_some_iff.mp h
  have hsplit (x : Worker) : (held (workers.take w ++ x :: workers.drop (w + 1))).Perm
      (x.job?.toList ++ held (workers.take w ++ workers.drop (w + 1))) := by
    simp only [held, List.filterMap_append, List.filterMap_cons]
    cases x.job? with
    | none => exact List.Perm.refl _
    | some i => exact List.perm_middle
  have hworkers : workers = workers.take w ++ old :: workers.drop (w + 1) := by
    rw [← hold, ← List.drop_eq_getElem_cons, List.take_append_drop]
  have hset : workers.set w new = workers.take w ++ new :: workers.drop (w + 1) := by
    rw [List.set_eq_take_append_cons_drop, if_pos hw]
  have hbefore := hsplit old
  rw [← hworkers] at hbefore
  rw [hset]
  calc old.job?.toList ++ held (workers.take w ++ new :: workers.drop (w + 1))
    _ ~ old.job?.toList ++
        (new.job?.toList ++ held (workers.take w ++ workers.drop (w + 1))) :=
      (hsplit new).append_left _
    _ ~ new.job?.toList ++
        (old.job?.toList ++ held (workers.take w ++ workers.drop (w + 1))) := by
      rw [← List.append_assoc, ← List.append_assoc]
      exact List.perm_append_comm.append_right _
    _ ~ new.job?.toList ++ held workers := hbefore.symm.append_left _

theorem count_stopped_set {workers : List Worker} {w : Nat} {old : Worker}
    (h : workers[w]? = some old) (hold : old ≠ .stopped) (new : Worker) :
    (workers.set w new).count .stopped =
      workers.count .stopped + if new = .stopped then 1 else 0 := by
  obtain ⟨hw, hget⟩ := List.getElem?_eq_some_iff.mp h
  rw [List.count_set hw, hget]
  simp [hold]

theorem Consistent.start (job : Nat → α) (jobs : Nat) (blank : α) :
    Consistent job jobs [] (start 1 jobs blank) where
  size := by simp [WorkerPool.start]
  fetched := by simp [WorkerPool.start, held, written, Worker.job?]
  stored := by simp [written]
  counter := by simp [WorkerPool.start]
  caller := by simp [WorkerPool.start]

theorem written_snoc (events : List Event) (event : Event) :
    written (events ++ [event]) = written events ++ event.written?.toList := by
  simp only [written, List.filterMap_append]
  cases event <;> rfl

theorem Consistent.step {job : Nat → α} {jobs : Nat} {events : List Event} {event : Event}
    {pool next : WorkerPool α} (h : Consistent job jobs events pool)
    (hstep : Step job pool event next) : Consistent job jobs (events ++ [event]) next := by
  obtain ⟨hsize, hfetched, hstored, hcounter, hcaller⟩ := h
  cases hstep with
  | join =>
    refine ⟨hsize, ?_, ?_, ?_, by simp⟩
    · have hheld : held (pool.workers ++ [.ready]) = held pool.workers := by
        simp [held, Worker.job?, List.filterMap_cons]
      simpa [written_snoc, Event.written?, hheld] using hfetched
    · simpa [written_snoc, Event.written?] using hstored
    · simpa using hcounter
  | @fetch w hready hnext =>
    rw [hsize] at hnext
    have hheld := held_set hready (.busy pool.next)
    have hcount := count_stopped_set hready (by simp) (.busy pool.next)
    refine ⟨hsize, ?_, ?_, ?_, by simpa using hcaller⟩
    · rw [Nat.min_eq_left (by omega)] at hfetched
      rw [written_snoc, Event.written?, Option.toList_none, List.append_nil]
      dsimp only
      rw [Nat.min_eq_left (by omega), List.range_succ]
      calc held (pool.workers.set w (.busy pool.next)) ++ written events
        _ ~ pool.next :: held pool.workers ++ written events := hheld.append_right _
        _ ~ pool.next :: List.range pool.next := hfetched.cons _
        _ ~ List.range pool.next ++ [pool.next] := (List.perm_append_singleton _ _).symm
    · simpa [written_snoc, Event.written?] using hstored
    · dsimp only
      rw [hcount, if_neg (by simp)]
      omega
  | @stop w hready hnext =>
    rw [hsize] at hnext
    have hheld := held_set hready .stopped
    have hcount := count_stopped_set hready (by simp) .stopped
    refine ⟨hsize, ?_, ?_, ?_, by simpa using hcaller⟩
    · rw [Nat.min_eq_right hnext] at hfetched
      rw [written_snoc, Event.written?, Option.toList_none, List.append_nil]
      dsimp only
      rw [Nat.min_eq_right (by omega)]
      exact (hheld.append_right _).trans hfetched
    · simpa [written_snoc, Event.written?] using hstored
    · dsimp only
      rw [hcount, if_pos rfl]
      omega
  | @store w i hbusy =>
    have hheld := held_set hbusy .ready
    have hcount := count_stopped_set hbusy (by simp) .ready
    refine ⟨by simpa using hsize, ?_, ?_, ?_, by simpa using hcaller⟩
    · rw [written_snoc]
      calc held (pool.workers.set w .ready) ++ (written events ++ [i])
        _ ~ (i :: held (pool.workers.set w .ready)) ++ written events := by
          rw [← List.append_assoc]
          exact List.perm_append_singleton _ _
        _ ~ held pool.workers ++ written events := hheld.append_right _
        _ ~ List.range (min pool.next jobs) := hfetched
    · -- a job is fetched below the number of jobs, so it has a slot
      have hi : i < pool.slots.length := by
        have hmem : i ∈ held pool.workers := hheld.subset (List.mem_cons_self ..)
        have := List.mem_range.mp (hfetched.subset (List.mem_append_left _ hmem))
        omega
      intro j hj
      by_cases hji : i = j
      · subst hji
        simp [hi]
      · have hbefore : j ∈ written events := by
          simpa [written_snoc, Event.written?, Ne.symm hji] using hj
        rw [List.getElem?_set_ne hji]
        exact hstored j hbefore
    · dsimp only
      rw [hcount, if_neg (by simp)]
      exact hcounter

/-! ## Whole runs -/

def Exclusive (pool : WorkerPool α) : Prop :=
  ∀ v w i : Nat, pool.workers[v]? = some (.busy i) → pool.workers[w]? = some (.busy i) → v = w

def AllStopped (pool : WorkerPool α) : Prop := ∀ w ∈ pool.workers, w = .stopped

section Runs
variable {job : Nat → α} {jobs : Nat} {blank : α} {events : List Event}
variable {pool : WorkerPool α}

theorem Run.consistent (h : Run job (start 1 jobs blank) events pool) :
    Consistent job jobs events pool := by
  induction h with
  | nil => exact Consistent.start job jobs blank
  | snoc _ last ih => exact ih.step last

theorem Consistent.nodup (h : Consistent job jobs events pool) :
    (held pool.workers ++ written events).Nodup :=
  h.fetched.nodup_iff.mpr List.nodup_range

theorem Consistent.exclusive (h : Consistent job jobs events pool) : pool.Exclusive := by
  have hheld : (held pool.workers).Nodup := (List.nodup_append.mp h.nodup).1
  have hpairwise := List.pairwise_filterMap.mp hheld
  have hlt : ∀ v w i : Nat, v < w → pool.workers[v]? = some (.busy i) →
      pool.workers[w]? ≠ some (.busy i) := by
    intro v w i hvw hv hw
    obtain ⟨hvlt, hv⟩ := List.getElem?_eq_some_iff.mp hv
    obtain ⟨hwlt, hw⟩ := List.getElem?_eq_some_iff.mp hw
    exact List.pairwise_iff_getElem.mp hpairwise v w hvlt hwlt hvw i (by rw [hv]; rfl) i
      (by rw [hw]; rfl) rfl
  intro v w i hv hw
  rcases Nat.lt_trichotomy v w with hvw | hvw | hvw
  · exact absurd hw (hlt v w i hvw hv)
  · exact hvw
  · exact absurd hv (hlt w v i hvw hw)

theorem Consistent.slots_of_allStopped (h : Consistent job jobs events pool)
    (hstopped : pool.AllStopped) : pool.slots = (List.range jobs).map job := by
  have hheld : held pool.workers = [] := by
    refine List.filterMap_eq_nil_iff.mpr ?_
    intro w hw
    rw [hstopped w hw]
    rfl
  have hcount : 0 < pool.workers.count .stopped := by
    obtain ⟨w, hw⟩ := List.exists_mem_of_ne_nil _ h.caller
    have hmem : Worker.stopped ∈ pool.workers := hstopped w hw ▸ hw
    exact List.count_pos_iff.mpr hmem
  have hcounter := h.counter
  have hwritten : (written events).Perm (List.range jobs) := by
    have hfetched := h.fetched
    rw [hheld, List.nil_append, Nat.min_eq_right (by omega)] at hfetched
    exact hfetched
  refine List.ext_getElem? ?_
  intro i
  by_cases hi : i < jobs
  · rw [h.stored i (hwritten.mem_iff.mpr (List.mem_range.mpr hi))]
    simp [hi]
  · rw [List.getElem?_eq_none (by rw [h.size]; omega)]
    simp [hi]

end Runs

/-! ## Schedules -/

section Schedules
variable {job : Nat → α} {pool : WorkerPool α}

theorem Run.append {first second : List Event} {middle final : WorkerPool α}
    (before : Run job pool first middle) (after : Run job middle second final) :
    Run job pool (first ++ second) final := by
  induction after with
  | nil =>
    rw [List.append_nil]
    exact before
  | snoc _ last ih =>
    rw [← List.append_assoc]
    exact ih.snoc last

theorem exists_run_step (job : Nat → α) (pool : WorkerPool α) (w : Nat) :
    ∃ events, Run job pool events (pool.step job w) := by
  have hone {event : Event} {next : WorkerPool α} (h : Step job pool event next) :
      Run job pool [event] next := Run.nil.snoc h
  unfold WorkerPool.step
  split
  · rename_i hready
    by_cases hnext : pool.next < pool.slots.length
    · simp only [if_pos hnext]
      exact ⟨_, hone (.fetch hready hnext)⟩
    · simp only [if_neg hnext]
      exact ⟨_, hone (.stop hready (Nat.not_lt.mp hnext))⟩
  · rename_i hbusy
    exact ⟨_, hone (.store hbusy)⟩
  · exact ⟨[], .nil⟩

theorem exists_run_run (job : Nat → α) (pool : WorkerPool α) (schedule : List Nat) :
    ∃ events, Run job pool events (pool.run job schedule) := by
  induction schedule generalizing pool with
  | nil => exact ⟨[], .nil⟩
  | cons w schedule ih =>
    obtain ⟨first, hfirst⟩ := exists_run_step job pool w
    obtain ⟨others, hothers⟩ := ih (pool.step job w)
    exact ⟨first ++ others, hfirst.append hothers⟩

theorem exists_run_start (job : Nat → α) (workers jobs : Nat) (blank : α) :
    ∃ events, Run job (start 1 jobs blank) events (start (workers + 1) jobs blank) := by
  induction workers with
  | zero => exact ⟨[], .nil⟩
  | succ workers ih =>
    obtain ⟨events, hrun⟩ := ih
    have hjoined : { start (workers + 1) jobs blank with
        workers := (start (workers + 1) jobs blank).workers ++ [.ready] } =
        start (workers + 2) jobs blank := by
      simp only [start, ← List.replicate_succ']
    exact ⟨_, hjoined ▸ hrun.snoc .join⟩

/-- How far a worker has come after some turns of its own, if it has not stopped: half of
them were fetches, each of a larger number. -/
def Advanced (v turns : Nat) (pool : WorkerPool α) : Prop :=
  pool.workers[v]? = some .stopped ∨
    (pool.workers[v]? = some .ready ∧ turns ≤ 2 * pool.next ∧ turns ≤ 2 * pool.slots.length) ∨
    ∃ i, pool.workers[v]? = some (.busy i) ∧ turns ≤ 2 * i + 1 ∧ i < pool.next ∧
      i < pool.slots.length

theorem Advanced.step_self (job : Nat → α) {v turns : Nat} (h : Advanced v turns pool) :
    Advanced v (turns + 1) (pool.step job v) := by
  rcases h with hstopped | ⟨hready, hnext, hsize⟩ | ⟨i, hbusy, hturns, hi, hsize⟩
  · left
    simp only [WorkerPool.step, hstopped]
  · have hv : v < pool.workers.length := (List.getElem?_eq_some_iff.mp hready).1
    by_cases hjob : pool.next < pool.slots.length
    · right
      right
      simp only [WorkerPool.step, hready, if_pos hjob, List.getElem?_set_self hv]
      exact ⟨pool.next, rfl, by omega, by omega, hjob⟩
    · left
      simp only [WorkerPool.step, hready, if_neg hjob, List.getElem?_set_self hv]
  · have hv : v < pool.workers.length := (List.getElem?_eq_some_iff.mp hbusy).1
    right
    left
    simp only [WorkerPool.step, hbusy, List.getElem?_set_self hv, List.length_set]
    exact ⟨trivial, by omega, by omega⟩

theorem step_other (job : Nat → α) (pool : WorkerPool α) {v w : Nat} (h : w ≠ v) :
    (pool.step job w).workers[v]? = pool.workers[v]? ∧ pool.next ≤ (pool.step job w).next ∧
      (pool.step job w).slots.length = pool.slots.length := by
  unfold WorkerPool.step
  split
  · exact ⟨List.getElem?_set_ne h, Nat.le_succ _, rfl⟩
  · exact ⟨List.getElem?_set_ne h, Nat.le_refl _, List.length_set⟩
  · exact ⟨rfl, Nat.le_refl _, rfl⟩

theorem Advanced.step_other (job : Nat → α) {v w turns : Nat} (h : Advanced v turns pool)
    (hwv : w ≠ v) : Advanced v turns (pool.step job w) := by
  obtain ⟨hworker, hnext, hsize⟩ := WorkerPool.step_other job pool hwv
  unfold Advanced at h ⊢
  rw [hworker, hsize]
  rcases h with hstopped | ⟨hready, hturns, hle⟩ | ⟨i, hbusy, hturns, hi, hle⟩
  · exact Or.inl hstopped
  · exact Or.inr (Or.inl ⟨hready, by omega, hle⟩)
  · exact Or.inr (Or.inr ⟨i, hbusy, hturns, by omega, hle⟩)

theorem Advanced.run (job : Nat → α) {v turns : Nat} (schedule : List Nat)
    (h : Advanced v turns pool) :
    Advanced v (turns + schedule.count v) (pool.run job schedule) := by
  induction schedule generalizing pool turns with
  | nil => exact h
  | cons w schedule ih =>
    by_cases hwv : w = v
    · subst hwv
      have hrest := ih (h.step_self job)
      rwa [List.count_cons_self, Nat.add_comm _ 1, ← Nat.add_assoc]
    · rw [List.count_cons_of_ne hwv]
      exact ih (h.step_other job hwv)

theorem lengths_run (job : Nat → α) (pool : WorkerPool α) (schedule : List Nat) :
    (pool.run job schedule).workers.length = pool.workers.length ∧
      (pool.run job schedule).slots.length = pool.slots.length := by
  induction schedule generalizing pool with
  | nil => exact ⟨rfl, rfl⟩
  | cons w schedule ih =>
    obtain ⟨hworkers, hslots⟩ := ih (pool.step job w)
    have hstep : (pool.step job w).workers.length = pool.workers.length ∧
        (pool.step job w).slots.length = pool.slots.length := by
      unfold WorkerPool.step
      split <;> simp
    exact ⟨hworkers.trans hstep.1, hslots.trans hstep.2⟩

/-- A schedule that gives each worker two turns for each job and one more stops them all. -/
theorem allStopped_run {workers jobs : Nat} {blank : α} {schedule : List Nat}
    (h : ∀ v < workers, 2 * jobs + 1 ≤ schedule.count v) :
    ((start workers jobs blank).run job schedule).AllStopped := by
  intro w hw
  obtain ⟨v, hv⟩ := List.mem_iff_getElem?.mp hw
  obtain ⟨hworkers, hslots⟩ := lengths_run job (start workers jobs blank) schedule
  simp only [start, List.length_replicate] at hworkers hslots
  have hlt : v < workers := by
    rw [← hworkers]
    exact (List.getElem?_eq_some_iff.mp hv).1
  have hstart : Advanced v 0 (start workers jobs blank) :=
    Or.inr (Or.inl ⟨by simp [start, hlt], by omega, by omega⟩)
  have hrun := hstart.run job schedule
  have hcount := h v hlt
  rcases hrun with hstopped | ⟨-, -, hturns⟩ | ⟨i, -, hturns, -, hi⟩
  · exact Option.some.inj (hv.symm.trans hstopped)
  · rw [start, hslots] at hturns
    omega
  · rw [start, hslots] at hi
    omega

theorem count_inTurn {workers jobs v : Nat} (hv : v < workers) :
    (inTurn workers jobs).count v = 2 * jobs + 1 := by
  rw [inTurn, List.count_flatten, List.map_replicate, List.sum_replicate_nat, List.count_range,
    if_pos hv, Nat.mul_one]

/-- Workers that take turns do all jobs, however many of them there are. -/
theorem results_eq (job : Nat → α) {workers : Nat} (h : 0 < workers) (jobs : Nat) (blank : α) :
    results job workers jobs blank = (List.range jobs).map job := by
  obtain ⟨others, rfl⟩ := Nat.exists_eq_succ_of_ne_zero (Nat.ne_of_gt h)
  obtain ⟨joins, hjoins⟩ := exists_run_start job others jobs blank
  obtain ⟨turns, hturns⟩ := exists_run_run job (start (others + 1) jobs blank)
    (inTurn (others + 1) jobs)
  have hstopped : ((start (others + 1) jobs blank).run job
      (inTurn (others + 1) jobs)).AllStopped :=
    allStopped_run fun v hv => Nat.le_of_eq (count_inTurn hv).symm
  exact (hjoins.append hturns).consistent.slots_of_allStopped hstopped

end Schedules
end WorkerPool
end Underwriting
