-- SUMMARY: The task processor loses and repeats no task, and refines the greedy list scheduler.
import Smpp.Correctness.Schedule

open ListScheduling

namespace Smpp

open TaskProcessorWithTransfer

variable {tp : TaskProcessorWithTransfer} {procs : List Processor}
  {tasks : List SimpleTask} {w : ℕ → ℕ} {out : List (TaskCompletition TaskPtr)}

/-! ## Conservation of tasks -/

/-- The loops end for every sign of the durations and every choice of the heap:
    any fuel beyond the number of tasks gives the same final state. There the
    tasks are untouched, the log has a pointer to each of them exactly once, and
    the completions of the first round are those of task `i` on worker `i`. -/
theorem run_conserves_tasks (std : StdAlgorithms) (tp : TaskProcessorWithTransfer)
    (procs : List Processor) (tasks : List SimpleTask) (hprocs : procs ≠ []) :
    ∃ first st, firstRound std tp procs 0 (initial tasks) = some first ∧
      run std tp procs tasks = some st ∧
      (∀ fuel, tasks.length < fuel → eventLoop std tp procs fuel first = some st) ∧
      st.tasks = tasks ∧
      (st.processedTasks.map (·.task)).Perm (List.range tasks.length) ∧
      (∀ c ∈ st.processedTasks, c.workerIndex < procs.length) ∧
      (∀ c ∈ first.pQueue.container, c ∈ st.processedTasks) ∧
      (first.pQueue.container.map fun c => (c.task, c.workerIndex)).Perm
        ((List.range (min tasks.length procs.length)).map fun i => (i, i)) := by
  obtain ⟨first, st, w, hfirst, hqueue, hloop, htasks, hsched⟩ :=
    exists_run std tp tasks hprocs
  have hrun : run std tp procs tasks = some st := by
    rw [run_eq, hfirst]
    exact hloop _ (Nat.lt_succ_self _)
  refine ⟨first, st, hfirst, hrun, hloop, htasks, hsched.tasks_perm, fun c hc => ?_, fun c hc => ?_,
    ?_⟩
  · obtain ⟨k, hk, rfl⟩ := hsched.mem_iff.mp hc
    exact hsched.worker_lt k hk
  · obtain ⟨k, hk, rfl⟩ := mem_dispatched.mp (hqueue.mem_iff.mp hc)
    -- the schedule of the whole run starts with the first round
    have hsame : ∀ j ≤ k, id j = w j :=
      fun j hj => (hsched.firstRound j (by omega) (by omega)).symm
    rw [completion_congr hsame]
    exact hsched.completion_mem (by omega)
  · rw [Nat.min_comm]
    refine (hqueue.map _).trans (List.Perm.of_eq ?_)
    rw [dispatched, List.map_map]
    rfl

theorem run_conserves_tasks_two_workers :
    [Processor.mk 1, ⟨2⟩] ≠ [] ∧
      ∃ st, run .reference ⟨1, -3⟩ [⟨1⟩, ⟨2⟩] [⟨4, 1, 0⟩, ⟨2, 1, 0⟩, ⟨6, 1, 1⟩] = some st ∧
        (st.processedTasks.map (·.task)).Perm (List.range 3) := by
  obtain ⟨_, st, -, hrun, -, -, hperm, -⟩ := run_conserves_tasks .reference ⟨1, -3⟩ [⟨1⟩, ⟨2⟩]
    [⟨4, 1, 0⟩, ⟨2, 1, 0⟩, ⟨6, 1, 1⟩] (List.cons_ne_nil _ _)
  exact ⟨List.cons_ne_nil _ _, st, hrun, hperm⟩

/-! ## Refinement of list scheduling -/

/-- The `worker_index` the log records for `tasks[k]`. -/
def recordedWorker (out : List (TaskCompletition TaskPtr)) (k : TaskPtr) : ℕ :=
  ((out.find? (·.task = k)).map (·.workerIndex)).getD 0

/-- When a worker is done: the end of its last task in the log. -/
def finishingTime (out : List (TaskCompletition TaskPtr)) (v : ℕ) : ℚ :=
  ((onWorker v out).getLast?.map (·.timeEnd)).getD 0

theorem Schedule.recordedWorker_eq (h : Schedule tp procs tasks w out) {k : ℕ}
    (hk : k < tasks.length) : recordedWorker out k = w k := by
  have hsome : (out.find? (·.task = k)).isSome := by
    rw [List.find?_isSome]
    exact ⟨_, h.completion_mem hk, by simp [completion]⟩
  obtain ⟨c, hc⟩ := Option.isSome_iff_exists.mp hsome
  have htask : c.task = k := by simpa using List.find?_some hc
  have hcomp := (h.eq_completion (List.mem_of_find?_eq_some hc)).1
  rw [recordedWorker, hc, Option.map_some, Option.getD_some, hcomp, htask]
  rfl

theorem Schedule.load_recordedWorker (h : Schedule tp procs tasks w out) {k : ℕ}
    (hk : k ≤ tasks.length) (v : ℕ) :
    load (tp.duration procs tasks) (recordedWorker out) k v =
      load (tp.duration procs tasks) w k v :=
  load_congr _ (fun _ hj => h.recordedWorker_eq (hj.trans_le hk)) v

theorem Schedule.finishingTime_eq (h : Schedule tp procs tasks w out) (v : ℕ) :
    finishingTime out v = load (tp.duration procs tasks) w tasks.length v := by
  rw [finishingTime, h.timeline, load_eq_getLast]

/-- Against the load table of the workers the log records: every task has one
    completion, it starts when its worker has done what it got before, which is
    the least load of all workers, and takes the worker's time for the task and its
    transfer; and no worker is done before the last task has started. -/
theorem call_refines_list_scheduling (std : StdAlgorithms) (tp : TaskProcessorWithTransfer)
    (procs : List Processor) (tasks : List SimpleTask) (hprocs : procs ≠ [])
    (hd : DurationsNonneg tp procs tasks) :
    ∃ out, call std tp procs tasks = some out ∧
      ∀ k < tasks.length, ∃ c, (∀ c', c' ∈ out ∧ c'.task = k ↔ c' = c) ∧
        c.workerIndex = recordedWorker out k ∧ c.workerIndex < procs.length ∧
        c.timeStart = load (tp.duration procs tasks) (recordedWorker out) k c.workerIndex ∧
        (∀ v < procs.length,
          c.timeStart ≤ load (tp.duration procs tasks) (recordedWorker out) k v) ∧
        c.timeEnd = c.timeStart + tp.duration procs tasks c.workerIndex k ∧
        (∃ proc task, procs[c.workerIndex]? = some proc ∧ tasks[k]? = some task ∧
          tp.duration procs tasks c.workerIndex k = task.complexity / proc.mips +
            (task.bitsToTransfer / tp.bandwidth + tp.connectionSetup)) ∧
        ∀ v < procs.length, c.timeStart ≤ finishingTime out v := by
  obtain ⟨out, w, hcall, hsched⟩ := call_schedule std tp tasks hprocs
  refine ⟨out, hcall, fun k hk => ⟨completion (tp.duration procs tasks) w k,
    fun c' => hsched.mem_task_iff hk, (hsched.recordedWorker_eq hk).symm, hsched.worker_lt k hk,
    (hsched.load_recordedWorker hk.le (w k)).symm, fun v hv => ?_, rfl, ?_, fun v hv => ?_⟩⟩
  · rw [hsched.load_recordedWorker hk.le]
    exact (hsched.greedy hd).least k hk v (Finset.mem_range.mpr hv)
  · have hproc := List.getElem?_eq_getElem (hsched.worker_lt k hk)
    have htask := List.getElem?_eq_getElem hk
    exact ⟨_, _, hproc, htask, duration_eq hproc htask⟩
  · rw [hsched.finishingTime_eq]
    exact (hsched.greedy hd).start_le_load hk (fun j hj => hsched.duration_nonneg hd hj)
      (Finset.mem_range.mpr hv)

theorem call_refines_list_scheduling_two_workers :
    DurationsNonneg ⟨1, 1⟩ [⟨1⟩, ⟨2⟩] [⟨4, 1, 0⟩, ⟨2, 1, 0⟩, ⟨6, 1, 1⟩] ∧
      ∃ out, call .reference ⟨1, 1⟩ [⟨1⟩, ⟨2⟩] [⟨4, 1, 0⟩, ⟨2, 1, 0⟩, ⟨6, 1, 1⟩] = some out ∧
        ∃ c ∈ out, c.task = 2 ∧ ∀ v < 2, c.timeStart ≤ finishingTime out v := by
  have hd : DurationsNonneg ⟨1, 1⟩ [⟨1⟩, ⟨2⟩] [⟨4, 1, 0⟩, ⟨2, 1, 0⟩, ⟨6, 1, 1⟩] := by
    unfold DurationsNonneg
    decide +kernel
  obtain ⟨out, hcall, hall⟩ := call_refines_list_scheduling .reference ⟨1, 1⟩ [⟨1⟩, ⟨2⟩]
    [⟨4, 1, 0⟩, ⟨2, 1, 0⟩, ⟨6, 1, 1⟩] (List.cons_ne_nil _ _) hd
  obtain ⟨c, hc, -, -, -, -, -, -, hfin⟩ := hall 2 (by decide)
  obtain ⟨hmem, htask⟩ := (hc c).mpr rfl
  exact ⟨hd, out, hcall, c, hmem, htask, hfin⟩

end Smpp
