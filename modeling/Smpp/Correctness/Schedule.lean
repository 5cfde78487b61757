-- SUMMARY: What a call of the task processor returns: the completion log of a greedy list schedule.
import Smpp.Correctness.EventLoop

/-!
# The completion log

`exists_schedule` collects what the loop invariant says when the loops are done.
Everything later modules prove about a call goes through the `Schedule` it gives.
-/

open ListScheduling

namespace Smpp

open TaskProcessorWithTransfer

variable {std : StdAlgorithms} {tp : TaskProcessorWithTransfer} {procs : List Processor}
  {tasks : List SimpleTask} {w : ℕ → ℕ} {out : List (TaskCompletition TaskPtr)}

/-- All tasks take non-negative time on all workers. -/
def DurationsNonneg (tp : TaskProcessorWithTransfer) (procs : List Processor)
    (tasks : List SimpleTask) : Prop :=
  ∀ v < procs.length, ∀ k < tasks.length, 0 ≤ tp.duration procs tasks v k

/-- The log is that of the schedule that gives task `k` to worker `w k`. -/
structure Schedule (tp : TaskProcessorWithTransfer) (procs : List Processor)
    (tasks : List SimpleTask) (w : ℕ → ℕ) (out : List (TaskCompletition TaskPtr)) : Prop where
  worker_lt : ∀ k < tasks.length, w k < procs.length
  firstRound : ∀ k < procs.length, k < tasks.length → w k = k
  /-- On each worker the log lists the tasks in the order they were handed out. -/
  timeline : ∀ v, onWorker v out = onWorker v (dispatched (tp.duration procs tasks) w tasks.length)
  /-- After the first round every task goes to a worker that is free earliest. -/
  least : ∀ k, procs.length ≤ k → k < tasks.length → ∀ v < procs.length,
    start (tp.duration procs tasks) w k ≤ load (tp.duration procs tasks) w k v
  chronological : DurationsNonneg tp procs tasks → out.Pairwise (·.timeEnd ≤ ·.timeEnd)

/-! ## Reachable states -/

variable (std tp procs tasks) in
/-- The states of a call between two rounds of its event loop. A round is
    undefined when nothing is in flight. -/
inductive Reachable : LoopState → Prop
  | firstRound {st : LoopState} :
      TaskProcessorWithTransfer.firstRound std tp procs 0 (initial tasks) = some st → Reachable st
  | eventStep {st st' : LoopState} :
      Reachable st → TaskProcessorWithTransfer.eventStep std tp procs st = some st' → Reachable st'

variable (std tp procs tasks) in
/-- The first round is defined, and the event loop starts from its result. -/
theorem exists_firstRound :
    ∃ first, firstRound std tp procs 0 (initial tasks) = some first ∧
      Running tp procs tasks first id ∧ first.processedTasks = [] ∧
      first.taskIterator = min procs.length tasks.length := by
  obtain ⟨first, hfirst, hinv, hnone, hit⟩ := firstRound_spec std procs 0
    (initial tasks) List.drop_zero (Nat.zero_add _) (Inv.initial tp procs tasks) rfl rfl
  exact ⟨first, hfirst, Running.of_firstRound hinv hnone hit, hnone, hit⟩

theorem running_of_firstRound {st : LoopState}
    (hfirst : TaskProcessorWithTransfer.firstRound std tp procs 0 (initial tasks) = some st) :
    Running tp procs tasks st id ∧ st.processedTasks = [] := by
  obtain ⟨first, hfirst', hrun, hnone, -⟩ := exists_firstRound std tp procs tasks
  rw [hfirst] at hfirst'
  cases hfirst'
  exact ⟨hrun, hnone⟩

theorem Inv.ne_nil_of_eventStep {st st' : LoopState} (h : Inv tp procs tasks st w)
    (hstep : eventStep std tp procs st = some st') : st.pQueue.container ≠ [] := by
  obtain ⟨tk, q, hq, -⟩ := eventStep_log hstep
  have hperm := (h.valid.popped std hq).perm
  intro hnil
  rw [hnil] at hperm
  exact absurd (List.nil_perm.mp hperm) (List.cons_ne_nil _ _)

namespace Reachable

variable {st st' : LoopState}

theorem exists_running (h : Reachable std tp procs tasks st) :
    ∃ w, Running tp procs tasks st w := by
  induction h with
  | firstRound hfirst => exact ⟨id, (running_of_firstRound hfirst).1⟩
  | @eventStep s s' _ hstep ih =>
    obtain ⟨w, hs⟩ := ih
    obtain ⟨s'', w', hs'', hrun, -⟩ := hs.step std (hs.toInv.ne_nil_of_eventStep hstep)
    rw [hstep] at hs''
    cases hs''
    exact ⟨w', hrun⟩

theorem chronological (h : Reachable std tp procs tasks st) (hd : DurationsNonneg tp procs tasks) :
    Chronological st := by
  induction h with
  | firstRound hfirst =>
    have hnone := (running_of_firstRound hfirst).2
    constructor <;> rw [hnone]
    · exact List.Pairwise.nil
    · intro c hc
      cases hc
  | eventStep hs hstep ih =>
    obtain ⟨w, hrun⟩ := hs.exists_running
    exact ih.step hrun.toInv hd hstep

theorem eventLoop {fuel : ℕ} (h : Reachable std tp procs tasks st)
    (hloop : eventLoop std tp procs fuel st = some st') :
    Reachable std tp procs tasks st' ∧ st'.pQueue.container = [] :=
  Timing.eventLoop_invariant (P := Reachable std tp procs tasks) .eventStep h hloop

/-- With the queue drained all tasks have been handed out, and the log is that of
    a schedule. -/
theorem exists_schedule (h : Reachable std tp procs tasks st) (hprocs : procs ≠ [])
    (hempty : st.pQueue.container = []) :
    ∃ w, Schedule tp procs tasks w st.processedTasks := by
  obtain ⟨w, hdone⟩ := h.exists_running
  -- every worker would be idle if tasks were left
  have hend : st.taskIterator = tasks.length := by
    by_contra hne
    have hmore : st.taskIterator < tasks.length := lt_of_le_of_ne hdone.iterator_le hne
    have hpos : 0 < procs.length := List.length_pos_iff.mpr hprocs
    exact hdone.busy hmore 0 hpos (by rw [hempty]; rfl)
  refine ⟨w, fun k hk => hdone.worker_lt k (by omega),
    fun k hk hkt => hdone.firstRound k hk (by omega), fun v => ?_,
    fun k hk hkt => hdone.least k hk (by omega), fun hd => (h.chronological hd).sorted⟩
  have htimeline := hdone.timeline v
  rwa [hempty, List.append_nil, hend] at htimeline

end Reachable

/-! ## The run -/

/-- Both loops end, whatever the durations and whatever the heap does with equal
    ends. -/
theorem exists_run (std : StdAlgorithms) (tp : TaskProcessorWithTransfer)
    (tasks : List SimpleTask) (hprocs : procs ≠ []) :
    ∃ first st w, firstRound std tp procs 0 (initial tasks) = some first ∧
      first.pQueue.container.Perm
        (dispatched (tp.duration procs tasks) id (min procs.length tasks.length)) ∧
      (∀ fuel, tasks.length < fuel → eventLoop std tp procs fuel first = some st) ∧
      st.tasks = tasks ∧ Schedule tp procs tasks w st.processedTasks := by
  obtain ⟨first, hfirst, hrun, hnone, hit⟩ := exists_firstRound std tp procs tasks
  have hfuel : tasks.length < first.processedTasks.length + (tasks.length + 1) := by omega
  obtain ⟨st, _, hst, hdone, hempty⟩ := hrun.eventLoop std _ hfuel
  obtain ⟨w, hsched⟩ :=
    ((Reachable.firstRound hfirst).eventLoop hst).1.exists_schedule hprocs hempty
  refine ⟨first, st, w, hfirst, ?_, fun fuel hlt => Timing.eventLoop_mono hlt hst,
    hdone.tasks_eq, hsched⟩
  rw [← hit, ← List.nil_append first.pQueue.container, ← hnone]
  exact hrun.perm

/-- A call returns in a reachable state, also without processors. -/
theorem exists_run_reachable (std : StdAlgorithms) (tp : TaskProcessorWithTransfer)
    (procs : List Processor) (tasks : List SimpleTask) :
    ∃ st, run std tp procs tasks = some st ∧ Reachable std tp procs tasks st := by
  obtain ⟨first, hfirst, hrun, -⟩ := exists_firstRound std tp procs tasks
  have hfuel : tasks.length < first.processedTasks.length + (tasks.length + 1) := by omega
  obtain ⟨st, -, hst, -⟩ := hrun.eventLoop std _ hfuel
  refine ⟨st, ?_, ((Reachable.firstRound hfirst).eventLoop hst).1⟩
  rw [run_eq, hfirst]
  exact hst

theorem exists_call (std : StdAlgorithms) (tp : TaskProcessorWithTransfer)
    (procs : List Processor) (tasks : List SimpleTask) :
    ∃ out, call std tp procs tasks = some out := by
  obtain ⟨st, hst, -⟩ := exists_run_reachable std tp procs tasks
  exact ⟨st.processedTasks, by rw [call, hst]; rfl⟩

theorem run_schedule (std : StdAlgorithms) (tp : TaskProcessorWithTransfer)
    (tasks : List SimpleTask) (hprocs : procs ≠ []) :
    ∃ st w, run std tp procs tasks = some st ∧ st.tasks = tasks ∧
      Schedule tp procs tasks w st.processedTasks := by
  obtain ⟨first, st, w, hfirst, -, hloop, htasks, hsched⟩ :=
    exists_run std tp tasks hprocs
  refine ⟨st, w, ?_, htasks, hsched⟩
  rw [run_eq, hfirst]
  exact hloop _ (Nat.lt_succ_self _)

theorem call_schedule (std : StdAlgorithms) (tp : TaskProcessorWithTransfer)
    (tasks : List SimpleTask) (hprocs : procs ≠ []) :
    ∃ out w, call std tp procs tasks = some out ∧ Schedule tp procs tasks w out := by
  obtain ⟨st, w, hst, -, hsched⟩ := run_schedule std tp tasks hprocs
  exact ⟨st.processedTasks, w, by rw [call, hst]; rfl, hsched⟩

/-! ## Reading the log -/

namespace Schedule

theorem perm (h : Schedule tp procs tasks w out) :
    out.Perm (dispatched (tp.duration procs tasks) w tasks.length) :=
  perm_of_onWorker_eq h.timeline

theorem mem_iff (h : Schedule tp procs tasks w out) {c : TaskCompletition TaskPtr} :
    c ∈ out ↔ ∃ k < tasks.length, completion (tp.duration procs tasks) w k = c :=
  h.perm.mem_iff.trans mem_dispatched

theorem completion_mem (h : Schedule tp procs tasks w out) {k : ℕ} (hk : k < tasks.length) :
    completion (tp.duration procs tasks) w k ∈ out :=
  h.mem_iff.mpr ⟨k, hk, rfl⟩

/-- A task has one entry in the log. -/
theorem eq_completion (h : Schedule tp procs tasks w out) {c : TaskCompletition TaskPtr}
    (hc : c ∈ out) : c = completion (tp.duration procs tasks) w c.task ∧ c.task < tasks.length := by
  obtain ⟨k, hk, rfl⟩ := h.mem_iff.mp hc
  exact ⟨rfl, hk⟩

/-- … and no other one. -/
theorem mem_task_iff (h : Schedule tp procs tasks w out) {k : ℕ} (hk : k < tasks.length)
    {c : TaskCompletition TaskPtr} :
    c ∈ out ∧ c.task = k ↔ c = completion (tp.duration procs tasks) w k := by
  constructor
  · rintro ⟨hc, rfl⟩
    exact (h.eq_completion hc).1
  · rintro rfl
    exact ⟨h.completion_mem hk, rfl⟩

theorem ne_nil (h : Schedule tp procs tasks w out) (htasks : tasks ≠ []) : out ≠ [] :=
  List.ne_nil_of_mem (h.completion_mem (List.length_pos_iff.mpr htasks))

/-- Where something is done there is somebody who does it. -/
theorem length_pos (h : Schedule tp procs tasks w out) {c : TaskCompletition TaskPtr}
    (hc : c ∈ out) : 0 < procs.length := by
  obtain ⟨k, hk, rfl⟩ := h.mem_iff.mp hc
  exact (Nat.zero_le _).trans_lt (h.worker_lt k hk)

/-- The log has every task exactly once. -/
theorem tasks_perm (h : Schedule tp procs tasks w out) :
    (out.map (·.task)).Perm (List.range tasks.length) := by
  have hmap : (dispatched (tp.duration procs tasks) w tasks.length).map (·.task) =
      List.range tasks.length := by
    unfold dispatched
    rw [List.map_map]
    exact List.map_id _
  rw [← hmap]
  exact h.perm.map _

/-- In the first round no worker has done anything before. -/
theorem start_firstRound (h : Schedule tp procs tasks w out) {k : ℕ} (hkp : k < procs.length)
    (hk : k < tasks.length) : start (tp.duration procs tasks) w k = 0 := by
  unfold start
  rcases load_eq_finish (tp.duration procs tasks) w k (w k) with ⟨-, h0⟩ | ⟨j, hj, hjk, -⟩
  · exact h0
  · rw [h.firstRound k hkp hk, h.firstRound j (hj.trans hkp) (hj.trans hk)] at hjk
    exact absurd hjk hj.ne

/-- With non-negative durations the first round is greedy as well: it hands out
    tasks to workers that have not done anything yet. -/
theorem greedy (h : Schedule tp procs tasks w out) (hd : DurationsNonneg tp procs tasks) :
    Greedy (tp.duration procs tasks) w (Finset.range procs.length) tasks.length where
  mem k hk := Finset.mem_range.mpr (h.worker_lt k hk)
  least k hk v hv := by
    rcases Nat.lt_or_ge k procs.length with hkp | hkp
    · rw [h.start_firstRound hkp hk]
      exact load_nonneg (fun j hj => hd _ (h.worker_lt j (hj.trans hk)) _ (hj.trans hk)) v
    · exact h.least k hkp hk v (Finset.mem_range.mp hv)

theorem duration_nonneg (h : Schedule tp procs tasks w out) (hd : DurationsNonneg tp procs tasks)
    {k : ℕ} (hk : k < tasks.length) : 0 ≤ tp.duration procs tasks (w k) k :=
  hd _ (h.worker_lt k hk) _ hk

theorem start_nonneg (h : Schedule tp procs tasks w out) (hd : DurationsNonneg tp procs tasks)
    {k : ℕ} (hk : k < tasks.length) : 0 ≤ start (tp.duration procs tasks) w k :=
  load_nonneg (fun _ hj => h.duration_nonneg hd (hj.trans hk)) (w k)

/-- Nothing ends before time 0. -/
theorem timeEnd_nonneg (h : Schedule tp procs tasks w out) (hd : DurationsNonneg tp procs tasks)
    {c : TaskCompletition TaskPtr} (hc : c ∈ out) : 0 ≤ c.timeEnd := by
  obtain ⟨k, hk, rfl⟩ := h.mem_iff.mp hc
  exact add_nonneg (h.start_nonneg hd hk) (h.duration_nonneg hd hk)

/-- The time a completion says its task took is that of the worker's processor in
    the vector the task processor was called with. -/
theorem timeEnd_sub_timeStart (h : Schedule tp procs tasks w out) {c : TaskCompletition TaskPtr}
    (hc : c ∈ out) :
    ∃ proc task, procs[c.workerIndex]? = some proc ∧ tasks[c.task]? = some task ∧
      c.timeEnd - c.timeStart =
        task.complexity / proc.mips + tp.transferTime task.bitsToTransfer := by
  obtain ⟨k, hk, rfl⟩ := h.mem_iff.mp hc
  have hproc := List.getElem?_eq_getElem (h.worker_lt k hk)
  have htask := List.getElem?_eq_getElem hk
  refine ⟨_, _, hproc, htask, ?_⟩
  have hduration : tp.duration procs tasks (w k) k = _ := duration_eq hproc htask
  simp only [completion, finish, add_sub_cancel_left, hduration]
  rfl

end Schedule

end Smpp
