-- SUMMARY: What the two priorities of `simulate` decide: the order in which tasks start, and the workers of the first round.
import Smpp.Correctness.Simulate
import Smpp.Correctness.Refinement

/-!
# Priorities

Both priorities act through the sorts before the run. For tasks that is enough:
they start in the order in which they are handed out. For processors it settles
the first round; after that a task goes to whichever worker is free earliest, and
the queue compares ends only.
-/

open ListScheduling

namespace Smpp

open TaskProcessorWithTransfer

variable {tp : TaskProcessorWithTransfer} {procs : List Processor} {tasks : List SimpleTask}
  {taskComp : Comparator SimpleTask} {w : ℕ → ℕ} {out : List (TaskCompletition TaskPtr)}

/-! ## Task priority -/

theorem Schedule.timeStart_mono (h : Schedule tp procs tasks w out)
    (hd : DurationsNonneg tp procs tasks) {c c' : TaskCompletition TaskPtr} (hc : c ∈ out)
    (hc' : c' ∈ out) (hle : c.task ≤ c'.task) : c.timeStart ≤ c'.timeStart := by
  obtain ⟨k, hk, rfl⟩ := h.mem_iff.mp hc
  obtain ⟨k', hk', rfl⟩ := h.mem_iff.mp hc'
  exact (h.greedy hd).start_mono (fun j hj => h.duration_nonneg hd hj) hle hk'

/-- Of two tasks the one that goes before the other starts no later. The log,
    which `simulate` returns if it is asked to, has all tasks, each of them once. -/
theorem simulate_respects_task_priority (std : StdAlgorithms) (g : Shuffle)
    (procs : List Processor) (procComp : Comparator Processor) (tasks : List SimpleTask)
    (taskComp : Comparator SimpleTask) (tp : TaskProcessorWithTransfer) (nUserHint : UInt8)
    (shuffle : Bool) (hprocs : procs ≠ []) (hmips : ∀ p ∈ procs, 0 < p.mips)
    (hcomplexity : ∀ t ∈ tasks, 0 ≤ t.complexity) (hbandwidth : 0 < tp.bandwidth)
    (hsetup : 0 ≤ tp.connectionSetup) :
    ∃ sorted out, sorted.Perm tasks ∧ call std tp (std.sort procComp procs) sorted = some out ∧
      (out.map (·.task)).Perm (List.range sorted.length) ∧
      (∀ c ∈ out, ∀ c' ∈ out, ∀ a b, sorted[c.task]? = some a → sorted[c'.task]? = some b →
        taskComp a b = true → c.timeStart ≤ c'.timeStart) ∧
      (∀ r, simulate std g procs procComp tasks taskComp tp nUserHint shuffle true = some r →
        r.processedTasks = out ∧ r.tasks = sorted) ∧
      ((∀ t ∈ tasks, t.userid < nUserHint) →
        ∃ r, simulate std g procs procComp tasks taskComp tp nUserHint shuffle true = some r) := by
  obtain ⟨out, hcall, hsim, -, hsched⟩ :=
    simulate_log std g procs procComp tasks taskComp tp shuffle
  obtain ⟨w, hsched⟩ := hsched hprocs
  have hd := durationsNonneg_sorted std g procs procComp tasks taskComp tp shuffle hmips hcomplexity
    hbandwidth hsetup
  refine ⟨sortedTasks std g tasks taskComp shuffle, out,
    sortedTasks_perm std g tasks taskComp shuffle, hcall, hsched.tasks_perm, ?_,
    fun r hr => processed_of_reported ((hsim nUserHint true).symm.trans hr), fun husers => ?_⟩
  · intro c hc c' hc' a b ha hb hab
    have hlt := (sortedTasks_sorted std g tasks taskComp shuffle).index_lt ha hb hab
    exact hsched.timeStart_mono hd hc hc' hlt.le
  · obtain ⟨r, -, -, hr, -⟩ := exists_simulated std g procs procComp tasks taskComp tp nUserHint
      shuffle true hprocs hmips hcomplexity husers hbandwidth hsetup
    exact ⟨r, hr⟩

theorem simulate_respects_task_priority_two_workers :
    ∃ sorted out, sorted.Perm [⟨4, 1, 0⟩, ⟨2, 1, 1⟩, ⟨6, 1, 1⟩] ∧
      call .reference ⟨1, 1⟩ (StdAlgorithms.reference.sort Processor.slowFirst [⟨2⟩, ⟨1⟩]) sorted =
        some out ∧
      ∀ c ∈ out, ∀ c' ∈ out, ∀ a b : SimpleTask, sorted[c.task]? = some a →
        sorted[c'.task]? = some b → SimpleTask.largeFirst a b = true →
          c.timeStart ≤ c'.timeStart := by
  obtain ⟨sorted, out, hperm, hcall, -, hall, -⟩ := simulate_respects_task_priority .reference
    .identity [⟨2⟩, ⟨1⟩] Processor.slowFirst [⟨4, 1, 0⟩, ⟨2, 1, 1⟩, ⟨6, 1, 1⟩] SimpleTask.largeFirst
    ⟨1, 1⟩ 2 true (List.cons_ne_nil _ _) (by decide +kernel) (by decide +kernel) (by decide +kernel)
    (by decide +kernel)
  exact ⟨sorted, out, hperm, hcall, hall⟩

/-! ## Processor priority -/

/-- When worker `v` is done with those of the tasks before `tasks[k]` that it got:
    the end of the last of them in the log, and 0 if there is none. -/
def freeFrom (out : List (TaskCompletition TaskPtr)) (k : TaskPtr) (v : ℕ) : ℚ :=
  finishingTime (out.filter (·.task < k)) v

theorem filter_dispatched {d : ℕ → ℕ → ℚ} {k n : ℕ} (hk : k ≤ n) :
    (dispatched d w n).filter (·.task < k) = dispatched d w k := by
  induction n, hk using Nat.le_induction with
  | base =>
    apply List.filter_eq_self.mpr
    intro c hc
    obtain ⟨j, hj, rfl⟩ := mem_dispatched.mp hc
    exact decide_eq_true hj
  | succ n hkn ih =>
    have hlast : ([completion d w n].filter (·.task < k)) = [] := by
      simp [completion, hkn]
    rw [dispatched_succ, List.filter_append, ih, hlast, List.append_nil]

theorem Schedule.freeFrom_eq (h : Schedule tp procs tasks w out) {k : ℕ} (hk : k ≤ tasks.length)
    (v : ℕ) : freeFrom out k v = load (tp.duration procs tasks) w k v := by
  have hcomm : ∀ l : List (TaskCompletition TaskPtr),
      onWorker v (l.filter (·.task < k)) = (onWorker v l).filter (·.task < k) := by
    intro l
    simp only [onWorker, List.filter_filter, Bool.and_comm]
  rw [freeFrom, finishingTime, hcomm, h.timeline, ← hcomm, filter_dispatched hk, load_eq_getLast]

/-- In the first round task `k` goes to worker `k`, and every worker before it has
    something to do by then. -/
theorem Schedule.freeFrom_pos (h : Schedule tp procs tasks w out)
    (hd : ∀ v < procs.length, ∀ k < tasks.length, 0 < tp.duration procs tasks v k) {k v : ℕ}
    (hk : k < tasks.length) (hkp : k < procs.length) (hv : v < k) : 0 < freeFrom out k v := by
  have hnonneg : ∀ j < k, 0 ≤ tp.duration procs tasks (w j) j :=
    fun j hj => (hd _ (h.worker_lt j (hj.trans hk)) j (hj.trans hk)).le
  have hworker : w v = v := h.firstRound v (hv.trans hkp) (hv.trans hk)
  have hbusy : finish (tp.duration procs tasks) w v ≤ load (tp.duration procs tasks) w k v := by
    have hload := finish_le_load hv hnonneg
    rwa [hworker] at hload
  have hstart : 0 ≤ start (tp.duration procs tasks) w v :=
    load_nonneg (fun j hj => hnonneg j (hj.trans hv)) _
  have hduration := hd v (hv.trans hkp) v (hv.trans hk)
  rw [h.freeFrom_eq hk.le]
  calc 0 < start (tp.duration procs tasks) w v + tp.duration procs tasks v v :=
        add_pos_of_nonneg_of_pos hstart hduration
    _ = finish (tp.duration procs tasks) w v := by rw [finish, hworker]
    _ ≤ load (tp.duration procs tasks) w k v := hbusy

/-- Preferred workers stand in front of the others, so in the first round they have
    got their task already when it is another one's turn. -/
theorem Schedule.freeFrom_ne_of_preferred (h : Schedule tp procs tasks w out)
    {procComp : Comparator Processor} (hsorted : procComp.Sorted procs)
    (hd : ∀ v < procs.length, ∀ k < tasks.length, 0 < tp.duration procs tasks v k) {k : ℕ}
    (hk : k < tasks.length) (hkp : k < procs.length) {v : ℕ} {p q : Processor}
    (hv : procs[v]? = some p) (hq : procs[w k]? = some q) (hpq : procComp p q = true) :
    freeFrom out k v ≠ start (tp.duration procs tasks) w k := by
  have hlt : v < k := by
    have hindex : v < w k := hsorted.index_lt hv hq hpq
    rwa [h.firstRound k hkp hk] at hindex
  rw [h.start_firstRound hkp hk]
  exact (h.freeFrom_pos hd hk hkp hlt).ne'

/-- Sorting keeps the durations positive. -/
theorem duration_sorted_pos (std : StdAlgorithms) (g : Shuffle) (procComp : Comparator Processor)
    (taskComp : Comparator SimpleTask) (shuffle : Bool)
    (hpositive : ∀ p ∈ procs, ∀ t ∈ tasks, 0 < tp.timeToProcess p t) :
    ∀ v < (std.sort procComp procs).length,
      ∀ k < (sortedTasks std g tasks taskComp shuffle).length,
        0 < tp.duration (std.sort procComp procs)
          (sortedTasks std g tasks taskComp shuffle) v k := by
  intro v hv k hk
  rw [duration_eq (List.getElem?_eq_getElem hv) (List.getElem?_eq_getElem hk)]
  apply hpositive
  · exact (std.sort_perm procComp procs).mem_iff.mp (List.getElem_mem hv)
  · exact (sortedTasks_perm std g tasks taskComp shuffle).mem_iff.mp (List.getElem_mem hk)

/-- With positive durations the processor priority decides in the first round:
    when a task starts there, no preferred worker is free. After that a task
    starts on a worker that is free earliest. If there are processors the log has
    every task once. -/
theorem processor_priority_decides_first_round (std : StdAlgorithms) (g : Shuffle)
    (procs : List Processor) (procComp : Comparator Processor) (tasks : List SimpleTask)
    (taskComp : Comparator SimpleTask) (tp : TaskProcessorWithTransfer) (shuffle : Bool)
    (hpositive : ∀ p ∈ procs, ∀ t ∈ tasks, 0 < tp.timeToProcess p t) :
    ∃ sorted out, sorted.Perm tasks ∧ call std tp (std.sort procComp procs) sorted = some out ∧
      (∀ nUserHint r,
        simulate std g procs procComp tasks taskComp tp nUserHint shuffle true = some r →
          r.processedTasks = out ∧ r.tasks = sorted) ∧
      (procs ≠ [] → (out.map (·.task)).Perm (List.range sorted.length)) ∧
      ∀ c ∈ out, freeFrom out c.task c.workerIndex = c.timeStart ∧
        (∀ v < procs.length, c.timeStart ≤ freeFrom out c.task v) ∧
        (c.task < procs.length → c.workerIndex = c.task ∧ c.timeStart = 0 ∧
          ∀ v p q, (std.sort procComp procs)[v]? = some p →
            (std.sort procComp procs)[c.workerIndex]? = some q → procComp p q = true →
            freeFrom out c.task v ≠ c.timeStart) := by
  obtain ⟨out, hcall, hsim, hnil, hsched⟩ :=
    simulate_log std g procs procComp tasks taskComp tp shuffle
  have hperm := sortedTasks_perm std g tasks taskComp shuffle
  have hpermp := std.sort_perm procComp procs
  refine ⟨sortedTasks std g tasks taskComp shuffle, out, hperm, hcall,
    fun n r hr => processed_of_reported ((hsim n true).symm.trans hr), fun hprocs => ?_,
    fun c hc => ?_⟩
  · obtain ⟨w, hsched⟩ := hsched hprocs
    exact hsched.tasks_perm
  have hprocs : procs ≠ [] := by
    intro hnone
    rw [hnil hnone] at hc
    cases hc
  obtain ⟨w, hsched⟩ := hsched hprocs
  have hpos := duration_sorted_pos std g procComp taskComp shuffle hpositive
  have hd : DurationsNonneg tp (std.sort procComp procs)
      (sortedTasks std g tasks taskComp shuffle) :=
    fun v hv k hk => (hpos v hv k hk).le
  obtain ⟨k, hk, rfl⟩ := hsched.mem_iff.mp hc
  refine ⟨hsched.freeFrom_eq hk.le _, fun v hv => ?_, fun hfirst => ?_⟩
  · rw [← hpermp.length_eq] at hv
    have hleast := (hsched.greedy hd).least k hk v (Finset.mem_range.mpr hv)
    exact hleast.trans (hsched.freeFrom_eq hk.le v).ge
  · rw [← hpermp.length_eq] at hfirst
    exact ⟨hsched.firstRound k hfirst hk, hsched.start_firstRound hfirst hk, fun v p q hv hq hpq =>
      hsched.freeFrom_ne_of_preferred (std.sort_sorted procComp procs) hpos hk hfirst hv hq hpq⟩

theorem processor_priority_decides_first_round_two_workers :
    ∃ sorted out, call .reference ⟨1, 0⟩
        (StdAlgorithms.reference.sort Processor.fastFirst [⟨2⟩, ⟨1⟩]) sorted = some out ∧
      sorted.Perm [⟨2, 0, 0⟩, ⟨2, 0, 0⟩, ⟨2, 0, 0⟩] ∧
      (out.map (·.task)).Perm (List.range sorted.length) ∧
      ∀ c ∈ out, ∀ v < 2, c.timeStart ≤ freeFrom out c.task v := by
  obtain ⟨sorted, out, hperm, hcall, -, htasks, hall⟩ := processor_priority_decides_first_round
    .reference .identity [⟨2⟩, ⟨1⟩] Processor.fastFirst [⟨2, 0, 0⟩, ⟨2, 0, 0⟩, ⟨2, 0, 0⟩]
    SimpleTask.smallFirst ⟨1, 0⟩ false (by decide +kernel)
  exact ⟨sorted, out, hcall, hperm, htasks (List.cons_ne_nil _ _),
    fun c hc v hv => (hall c hc).2.1 v hv⟩

/-- Four equal tasks on processors of speeds 2 and 1, the fast one preferred: at
    time 2 both workers are done, and the last task starts on the slow one. -/
theorem later_tie_ignores_processor_priority :
    (∀ p ∈ [Processor.mk 2, ⟨1⟩], ∀ t ∈ List.replicate 4 (SimpleTask.mk 2 0 0),
        0 < timeToProcess ⟨1, 0⟩ p t) ∧
      ∃ r, simulate .reference .identity [⟨2⟩, ⟨1⟩] Processor.fastFirst
          (List.replicate 4 ⟨2, 0, 0⟩) SimpleTask.smallFirst ⟨1, 0⟩ 1 false true = some r ∧
        ∃ c ∈ r.processedTasks, ∃ v p q,
          (StdAlgorithms.reference.sort Processor.fastFirst [⟨2⟩, ⟨1⟩])[v]? = some p ∧
          (StdAlgorithms.reference.sort Processor.fastFirst [⟨2⟩, ⟨1⟩])[c.workerIndex]? = some q ∧
          Processor.fastFirst p q = true ∧ freeFrom r.processedTasks c.task v = c.timeStart := by
  refine ⟨by decide +kernel, ⟨[4], [⟨0, 1, 0, 0⟩, ⟨0, 2, 1, 1⟩, ⟨1, 2, 0, 2⟩, ⟨2, 4, 1, 3⟩],
    List.replicate 4 ⟨2, 0, 0⟩⟩, ?_, ⟨2, 4, 1, 3⟩, ?_, 0, ⟨2⟩, ⟨1⟩, ?_, ?_, ?_, ?_⟩
  · decide +kernel
  · decide +kernel
  · decide +kernel
  · decide +kernel
  · decide +kernel
  · decide +kernel

end Smpp
