-- SUMMARY: Each worker's completions form a chain without gaps, and the log as a whole is chronological.
import Mathlib.Data.List.Chain
import Smpp.Correctness.Refinement

/-!
# Timelines

A worker's timeline is never stored. It can be read off the log because a worker
has at most one task in flight, so that the log lists the tasks of a worker in
the order the worker got them.
-/

open ListScheduling

namespace Smpp

open TaskProcessorWithTransfer

variable {std : StdAlgorithms} {tp : TaskProcessorWithTransfer} {procs : List Processor}
  {tasks : List SimpleTask} {w : ℕ → ℕ} {out : List (TaskCompletition TaskPtr)}

/-! ## The completions of one worker -/

section OneWorker

variable {d : ℕ → ℕ → ℚ}

theorem onWorker_dispatched_succ_of_eq {k v : ℕ} (h : w k = v) :
    onWorker v (dispatched d w (k + 1)) = onWorker v (dispatched d w k) ++ [completion d w k] := by
  subst h
  rw [dispatched_succ, onWorker_append]
  exact congrArg _ (onWorker_singleton_self (completion d w k))

theorem onWorker_dispatched_succ_of_ne {k v : ℕ} (h : w k ≠ v) :
    onWorker v (dispatched d w (k + 1)) = onWorker v (dispatched d w k) := by
  rw [dispatched_succ, onWorker_append, onWorker_singleton_of_ne (c := completion d w k) h,
    List.append_nil]

/-- What holds between any two completions of a worker, the earlier one handed
    out first, holds in this order along the worker's list. -/
theorem pairwise_onWorker_dispatched
    {R : TaskCompletition TaskPtr → TaskCompletition TaskPtr → Prop} {k v : ℕ} (hR : ∀ i j, i < j → j < k → w i = v → w j = v →
      R (completion d w i) (completion d w j)) :
    (onWorker v (dispatched d w k)).Pairwise R := by
  apply List.pairwise_filter.mpr
  apply List.pairwise_map.mpr
  apply List.pairwise_lt_range.imp_of_mem
  intro i j _ hj hij hi hj'
  exact hR i j hij (List.mem_range.mp hj) (of_decide_eq_true hi) (of_decide_eq_true hj')

/-- A worker starts at time 0. -/
theorem timeStart_head_onWorker (k v : ℕ) :
    ∀ c ∈ (onWorker v (dispatched d w k)).head?, c.timeStart = 0 := by
  induction k with
  | zero => simp
  | succ k ih =>
    by_cases hk : w k = v
    · rw [onWorker_dispatched_succ_of_eq hk]
      cases hbefore : onWorker v (dispatched d w k) with
      | nil =>
        have hload := load_eq_getLast (d := d) (w := w) k v
        rw [hbefore] at hload
        simpa [completion, start, hk] using hload
      | cons c rest =>
        rw [hbefore] at ih
        exact ih
    · rwa [onWorker_dispatched_succ_of_ne hk]

/-- A worker goes on when it is done with the task before. -/
theorem isChain_onWorker (k v : ℕ) :
    (onWorker v (dispatched d w k)).IsChain (fun a b => b.timeStart = a.timeEnd) := by
  induction k with
  | zero => exact .nil
  | succ k ih =>
    by_cases hk : w k = v
    · rw [onWorker_dispatched_succ_of_eq hk]
      apply ih.append (List.isChain_singleton _)
      intro a ha b hb
      rw [List.head?_singleton, Option.mem_some_iff] at hb
      subst hb
      have hload := load_eq_getLast (d := d) (w := w) k v
      rw [Option.mem_def.mp ha] at hload
      simpa [completion, start, hk] using hload
    · rwa [onWorker_dispatched_succ_of_ne hk]

/-- A worker is busy for as long as its tasks take. -/
theorem load_eq_sum_onWorker (k v : ℕ) :
    load d w k v = ((onWorker v (dispatched d w k)).map (fun c => d v c.task)).sum := by
  induction k with
  | zero => simp
  | succ k ih =>
    by_cases hk : w k = v
    · rw [load_succ, if_pos hk, ih, onWorker_dispatched_succ_of_eq hk]
      simp [completion]
    · rw [load_succ_of_ne d w hk, ih, onWorker_dispatched_succ_of_ne hk]

/-- With non-negative durations a worker is done with a task before it starts
    another. -/
theorem finish_le_start {i j v : ℕ} (hij : i < j) (hi : w i = v) (hj : w j = v)
    (hd : ∀ k < j, 0 ≤ d (w k) k) : finish d w i ≤ start d w j := by
  have hload : finish d w i ≤ load d w j (w i) := finish_le_load hij hd
  rwa [hi, ← hj] at hload

end OneWorker

/-! ## The timeline of a worker -/

/-- The completions of one worker: in the order of the tasks, the first one from
    time 0 on, each next one from the end of the one before, and each as long as
    the worker takes for its task. -/
structure Timeline (tp : TaskProcessorWithTransfer) (procs : List Processor)
    (tasks : List SimpleTask) (v : ℕ) (l : List (TaskCompletition TaskPtr)) : Prop where
  increasing : l.Pairwise (·.task < ·.task)
  fromZero : ∀ c ∈ l.head?, c.timeStart = 0
  gapFree : l.IsChain (fun a b => b.timeStart = a.timeEnd)
  timeEnd_eq : ∀ c ∈ l, ∃ proc task, procs[v]? = some proc ∧ tasks[c.task]? = some task ∧
    c.timeEnd = c.timeStart + task.complexity / proc.mips + tp.transferTime task.bitsToTransfer

theorem Schedule.timeline_onWorker (h : Schedule tp procs tasks w out) (v : ℕ) :
    Timeline tp procs tasks v (onWorker v out) where
  increasing := by
    rw [h.timeline]
    apply pairwise_onWorker_dispatched
    intro i j hij _ _ _
    exact hij
  fromZero := by
    rw [h.timeline]
    exact timeStart_head_onWorker _ _
  gapFree := by
    rw [h.timeline]
    exact isChain_onWorker _ _
  timeEnd_eq c hc := by
    obtain ⟨hmem, rfl⟩ := mem_onWorker.mp hc
    obtain ⟨proc, task, hproc, htask, htime⟩ := h.timeEnd_sub_timeStart hmem
    refine ⟨proc, task, hproc, htask, ?_⟩
    rw [add_assoc, ← htime, add_sub_cancel]

theorem Schedule.finishingTime_eq_sum (h : Schedule tp procs tasks w out) (v : ℕ) :
    finishingTime out v =
      ((onWorker v out).map (fun c => tp.duration procs tasks v c.task)).sum := by
  rw [h.finishingTime_eq, load_eq_sum_onWorker, h.timeline]

/-- No worker starts a task before it is done with those before. -/
theorem Schedule.disjoint_onWorker (h : Schedule tp procs tasks w out)
    (hd : DurationsNonneg tp procs tasks) (v : ℕ) :
    (onWorker v out).Pairwise (fun a b => a.timeEnd ≤ b.timeStart) := by
  rw [h.timeline]
  apply pairwise_onWorker_dispatched
  intro i j hij hj hi hj'
  exact finish_le_start hij hi hj' (fun k hk => h.duration_nonneg hd (hk.trans hj))

/-- Whatever the signs of the durations, a call returns a log that is a timeline
    on every worker, each worker is done after the sum of its own durations, and
    at no time has a worker two tasks in flight. -/
theorem call_worker_timelines (std : StdAlgorithms) (tp : TaskProcessorWithTransfer)
    (procs : List Processor) (tasks : List SimpleTask) :
    ∃ out, call std tp procs tasks = some out ∧ ∀ v,
      Timeline tp procs tasks v (onWorker v out) ∧
      finishingTime out v =
        ((onWorker v out).map (fun c => tp.duration procs tasks v c.task)).sum ∧
      (∀ st, Reachable std tp procs tasks st → (onWorker v st.pQueue.container).length ≤ 1) ∧
      (DurationsNonneg tp procs tasks →
        (onWorker v out).Pairwise (fun a b => a.timeEnd ≤ b.timeStart)) := by
  have hone : ∀ v st, Reachable std tp procs tasks st →
      (onWorker v st.pQueue.container).length ≤ 1 := by
    intro v st hst
    obtain ⟨w, hrun⟩ := hst.exists_running
    exact hrun.atMostOne v
  by_cases hprocs : procs = []
  · subst hprocs
    refine ⟨[], ?_, fun v => ⟨⟨.nil, ?_, .nil, ?_⟩, rfl, hone v, fun _ => .nil⟩⟩
    · rw [call, run_nil]
      rfl
    · simp
    · simp
  · obtain ⟨out, w, hcall, hsched⟩ := call_schedule std tp tasks hprocs
    exact ⟨out, hcall, fun v => ⟨hsched.timeline_onWorker v, hsched.finishingTime_eq_sum v, hone v,
      fun hd => hsched.disjoint_onWorker hd v⟩⟩

/-! ## Chronology -/

section Chronology

variable {st st' : LoopState} {tk : TaskCompletition TaskPtr} {q : TaskQueue}

/-- The event loop only adds to the end of the log. -/
theorem eventLoop_prefix {fuel : ℕ} (hloop : eventLoop std tp procs fuel st = some st') :
    st.processedTasks <+: st'.processedTasks := by
  refine (Timing.eventLoop_invariant (P := fun s => st.processedTasks <+: s.processedTasks) ?_
    List.prefix_rfl hloop).1
  intro s s' hs hstep
  obtain ⟨tk, q, -, hlog⟩ := eventStep_log hstep
  rw [hlog]
  exact hs.trans (List.prefix_append _ _)

namespace Reachable

/-- The call goes on from every reachable state to the state in which it
    returns. -/
theorem exists_eventLoop (h : Reachable std tp procs tasks st)
    (hrun : run std tp procs tasks = some st') :
    ∃ fuel, TaskProcessorWithTransfer.eventLoop std tp procs fuel st = some st' := by
  induction h with
  | firstRound hfirst =>
    rw [run_eq, hfirst] at hrun
    exact ⟨_, hrun⟩
  | @eventStep s s' hs hstep ih =>
    obtain ⟨fuel, hloop⟩ := ih
    obtain ⟨w, hs⟩ := hs.exists_running
    cases fuel with
    | zero => rw [eventLoop_zero] at hloop; cases hloop
    | succ fuel =>
      have hbusy : ¬ s.pQueue.empty = true := by
        rw [PriorityQueue.empty_eq_true]
        exact hs.toInv.ne_nil_of_eventStep hstep
      rw [eventLoop_succ, if_neg hbusy, hstep, Option.bind_some] at hloop
      exact ⟨fuel, hloop⟩

/-- A state in which a completion is taken off the queue has a successor, whose
    log ends with this completion. -/
theorem exists_eventStep (h : Reachable std tp procs tasks st)
    (hpop : st.pQueue.pop std = some (tk, q)) :
    ∃ next, Reachable std tp procs tasks next ∧
      next.processedTasks = st.processedTasks ++ [tk] := by
  obtain ⟨w, hrun⟩ := h.exists_running
  have htk := (hrun.valid.popped std hpop).perm.mem_iff.mpr List.mem_cons_self
  obtain ⟨next, -, hstep, -, -⟩ := hrun.step std (List.ne_nil_of_mem htk)
  refine ⟨next, h.eventStep hstep, ?_⟩
  obtain ⟨tk', q', hpop', hlog⟩ := eventStep_log hstep
  rw [hpop] at hpop'
  cases hpop'
  exact hlog

/-- Everything in the log was taken off the queue of some reachable state. -/
theorem exists_popped (h : Reachable std tp procs tasks st) :
    ∀ c ∈ st.processedTasks, ∃ s q, Reachable std tp procs tasks s ∧
      s.pQueue.pop std = some (c, q) := by
  induction h with
  | firstRound hfirst =>
    intro c hc
    rw [(running_of_firstRound hfirst).2] at hc
    cases hc
  | @eventStep s s' hs hstep ih =>
    intro c hc
    obtain ⟨tk, q, hq, hlog⟩ := eventStep_log hstep
    rw [hlog] at hc
    rcases List.mem_append.mp hc with hc | hc
    · exact ih c hc
    · rw [List.mem_singleton.mp hc]
      exact ⟨s, q, hs, hq⟩

/-- What the log has so far are tasks before the iterator. -/
theorem task_lt_of_mem (h : Reachable std tp procs tasks st) {c : TaskCompletition TaskPtr}
    (hc : c ∈ st.processedTasks ++ st.pQueue.container) : c.task < st.taskIterator := by
  obtain ⟨w, hrun⟩ := h.exists_running
  obtain ⟨k, hk, rfl⟩ := mem_dispatched.mp (hrun.perm.mem_iff.mp hc)
  exact hk

end Reachable

/-- What is popped ends no later than anything that is handed out afterwards. -/
theorem Reachable.popped_le_later (h : Reachable std tp procs tasks st)
    (hpop : st.pQueue.pop std = some (tk, q)) (hrun : run std tp procs tasks = some st')
    (hsorted : st'.processedTasks.Pairwise (·.timeEnd ≤ ·.timeEnd)) :
    tk ∈ st'.processedTasks ∧
      ∀ c ∈ st'.processedTasks, st.taskIterator ≤ c.task → tk.timeEnd ≤ c.timeEnd := by
  obtain ⟨next, hnext, hlog⟩ := h.exists_eventStep hpop
  obtain ⟨fuel, hloop⟩ := hnext.exists_eventLoop hrun
  obtain ⟨later, hlater⟩ := eventLoop_prefix hloop
  obtain ⟨w, hs⟩ := h.exists_running
  have hflight : tk ∈ st.pQueue.container :=
    (hs.valid.popped std hpop).perm.mem_iff.mpr List.mem_cons_self
  rw [← hlater, hlog] at hsorted ⊢
  constructor
  · simp
  · intro c hc hit
    -- up to `tk` the log has tasks before the iterator only
    rcases List.mem_append.mp hc with hc | hc
    · have hbefore : c ∈ st.processedTasks ++ st.pQueue.container := by
        rcases List.mem_append.mp hc with hc | hc
        · exact List.mem_append_left _ hc
        · rw [List.mem_singleton.mp hc]
          exact List.mem_append_right _ hflight
      exact absurd (h.task_lt_of_mem hbefore) (Nat.not_lt.mpr hit)
    · have hpair := (List.pairwise_append.mp hsorted).2.2
      exact hpair tk (List.mem_append_right _ (List.mem_singleton_self tk)) c hc

/-- The last end of a chronological log is the largest. -/
theorem isGreatest_getLast {last : TaskCompletition TaskPtr}
    (hsorted : out.Pairwise (·.timeEnd ≤ ·.timeEnd)) (hlast : out.getLast? = some last) :
    IsGreatest {t | ∃ c ∈ out, c.timeEnd = t} last.timeEnd := by
  obtain ⟨before, rfl⟩ := List.getLast?_eq_some_iff.mp hlast
  constructor
  · exact ⟨last, by simp, rfl⟩
  · rintro t ⟨c, hc, rfl⟩
    rcases List.mem_append.mp hc with hc | hc
    · exact (List.pairwise_append.mp hsorted).2.2 c hc last (List.mem_singleton_self last)
    · rw [List.mem_singleton.mp hc]

end Chronology

/-- With non-negative durations the log is in the order of the ends and closes
    with the latest one. Everything in it was popped at some point, and whatever
    was in flight then, or was handed out later, ends no earlier. -/
theorem call_chronological (std : StdAlgorithms) (tp : TaskProcessorWithTransfer)
    (procs : List Processor) (tasks : List SimpleTask) (hd : DurationsNonneg tp procs tasks) :
    ∃ out, call std tp procs tasks = some out ∧ out.Pairwise (·.timeEnd ≤ ·.timeEnd) ∧
      (procs ≠ [] → (out.map (·.task)).Perm (List.range tasks.length)) ∧
      (∀ last, out.getLast? = some last →
        IsGreatest {t | ∃ c ∈ out, c.timeEnd = t} last.timeEnd) ∧
      (∀ c ∈ out, ∃ st q, Reachable std tp procs tasks st ∧ st.pQueue.pop std = some (c, q)) ∧
      ∀ st tk q, Reachable std tp procs tasks st → st.pQueue.pop std = some (tk, q) →
        tk ∈ out ∧ (∀ c ∈ q.container, tk.timeEnd ≤ c.timeEnd) ∧
        ∀ c ∈ out, st.taskIterator ≤ c.task → tk.timeEnd ≤ c.timeEnd := by
  obtain ⟨st', hrun, hreach⟩ := exists_run_reachable std tp procs tasks
  have hsorted := (hreach.chronological hd).sorted
  have hcall : call std tp procs tasks = some st'.processedTasks := by
    rw [call, hrun]
    rfl
  refine ⟨st'.processedTasks, hcall, hsorted, fun hprocs => ?_,
    fun last hlast => isGreatest_getLast hsorted hlast, hreach.exists_popped,
    fun st tk q hst hpop => ?_⟩
  · obtain ⟨out, w, hout, hsched⟩ := call_schedule std tp tasks hprocs
    cases hcall.symm.trans hout
    exact hsched.tasks_perm
  obtain ⟨hmem, hlater⟩ := hst.popped_le_later hpop hrun hsorted
  obtain ⟨w, hs⟩ := hst.exists_running
  have hpopped := hs.valid.popped std hpop
  refine ⟨hmem, fun c hc => ?_, hlater⟩
  exact hs.toInv.popped_le hpopped (hpopped.perm.mem_iff.mpr (List.mem_cons_of_mem _ hc))

theorem call_chronological_two_workers :
    DurationsNonneg ⟨1, 1⟩ [⟨1⟩, ⟨2⟩] [⟨4, 1, 0⟩, ⟨2, 1, 0⟩, ⟨6, 1, 1⟩] ∧
      ∃ out, call .reference ⟨1, 1⟩ [⟨1⟩, ⟨2⟩] [⟨4, 1, 0⟩, ⟨2, 1, 0⟩, ⟨6, 1, 1⟩] = some out ∧
        out.Pairwise (·.timeEnd ≤ ·.timeEnd) ∧ (out.map (·.task)).Perm (List.range 3) := by
  have hd : DurationsNonneg ⟨1, 1⟩ [⟨1⟩, ⟨2⟩] [⟨4, 1, 0⟩, ⟨2, 1, 0⟩, ⟨6, 1, 1⟩] := by
    unfold DurationsNonneg
    decide +kernel
  obtain ⟨out, hcall, hsorted, htasks, -⟩ := call_chronological .reference ⟨1, 1⟩ [⟨1⟩, ⟨2⟩]
    [⟨4, 1, 0⟩, ⟨2, 1, 0⟩, ⟨6, 1, 1⟩] hd
  exact ⟨hd, out, hcall, hsorted, htasks (List.cons_ne_nil _ _)⟩

end Smpp
