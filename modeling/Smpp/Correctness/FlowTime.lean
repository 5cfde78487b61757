-- SUMMARY: Smallest first: on equal processors no schedule of the tasks has a smaller total of their ends.
import Smpp.Correctness.LargestFirst
import Smpp.Scheduling.FlowTime

/-!
# Smallest first

With `small_first` tasks are handed out in increasing order. On equal processors the
ends of all tasks then add up to no more than in any other schedule, whoever gets a
task and in whatever order. So the average task is done as early as it can be.
-/

open ListScheduling

namespace Smpp

open TaskProcessorWithTransfer

variable {tp : TaskProcessorWithTransfer} {procs : List Processor} {tasks : List SimpleTask}
  {mips : ℚ} {w : ℕ → ℕ} {out : List (TaskCompletition TaskPtr)}

/-! ## Increasing durations -/

/-- If more operations mean at least as many bits, smallest first is shortest first. -/
theorem jobTime_mono (hmips : 0 < mips) (hbandwidth : 0 < tp.bandwidth)
    (hsorted : SimpleTask.smallFirst.Sorted tasks)
    (hbits : ∀ t ∈ tasks, ∀ t' ∈ tasks, t.complexity ≤ t'.complexity →
      t.bitsToTransfer ≤ t'.bitsToTransfer) :
    ∀ i k, i ≤ k → k < tasks.length → jobTime tp mips tasks i ≤ jobTime tp mips tasks k := by
  intro i k hik hk
  have hi : i < tasks.length := hik.trans_lt hk
  rcases hik.eq_or_lt with rfl | hlt
  · exact le_rfl
  · have hcomplexity : tasks[i].complexity ≤ tasks[k].complexity :=
      Comparator.less_eq_false.mp (List.pairwise_iff_getElem.mp hsorted i k hi hk hlt)
    rw [jobTime_eq hk, jobTime_eq hi]
    exact timeToProcess_mono hmips hbandwidth hcomplexity
      (hbits _ (List.getElem_mem hi) _ (List.getElem_mem hk) hcomplexity)

theorem map_jobTime (tp : TaskProcessorWithTransfer) (mips : ℚ) (tasks : List SimpleTask) :
    (List.range tasks.length).map (jobTime tp mips tasks) =
      tasks.map (tp.timeToProcess ⟨mips⟩) := by
  apply List.ext_getElem
  · simp
  · intro k hk _
    have hk' : k < tasks.length := by simpa using hk
    rw [List.getElem_map, List.getElem_map, List.getElem_range, jobTime_eq hk']

/-- With shorter tasks before longer ones, tasks end in the order they are handed out. -/
theorem Schedule.timeEnd_mono (h : Schedule tp procs tasks w out)
    (hequal : ∀ p ∈ procs, p.mips = mips)
    (hjob : ∀ k < tasks.length, 0 ≤ jobTime tp mips tasks k)
    (hmono : ∀ i k, i ≤ k → k < tasks.length → jobTime tp mips tasks i ≤ jobTime tp mips tasks k)
    {c c' : TaskCompletition TaskPtr} (hc : c ∈ out) (hc' : c' ∈ out) (hle : c.task ≤ c'.task) :
    c.timeEnd ≤ c'.timeEnd := by
  obtain ⟨k, hk, rfl⟩ := h.mem_iff.mp hc
  obtain ⟨k', hk', rfl⟩ := h.mem_iff.mp hc'
  have hp : ∀ v ∈ Finset.range procs.length, ∀ j < tasks.length,
      tp.duration procs tasks v j = jobTime tp mips tasks j :=
    fun v hv j _ => duration_eq_jobTime hequal (Finset.mem_range.mp hv) j
  exact (h.greedy (durationsNonneg_of_equal hequal hjob)).finish_mono hp hjob hmono hle hk'

/-! ## The sum of the ends -/

theorem Schedule.sum_timeEnd (h : Schedule tp procs tasks w out) :
    (out.map (·.timeEnd)).sum =
      ∑ k ∈ Finset.range tasks.length, finish (tp.duration procs tasks) w k := by
  have hsum := (h.perm.map (·.timeEnd)).sum_eq
  rw [hsum, dispatched, List.map_map]
  rfl

/-- With shorter tasks before longer ones, the ends add up to no more than in any
    schedule of the same tasks, in the order of `order`, task `k` on worker `a k`. -/
theorem Schedule.sum_timeEnd_le (h : Schedule tp procs tasks w out)
    (hequal : ∀ p ∈ procs, p.mips = mips)
    (hjob : ∀ k < tasks.length, 0 ≤ jobTime tp mips tasks k)
    (hmono : ∀ i k, i ≤ k → k < tasks.length → jobTime tp mips tasks i ≤ jobTime tp mips tasks k)
    {procs' : List Processor} (hequal' : ∀ p ∈ procs', p.mips = mips)
    (hlength : procs'.length = procs.length) {order : List SimpleTask} (horder : order.Perm tasks)
    {a : ℕ → ℕ} (ha : ∀ k < order.length, a k < procs'.length) :
    (out.map (·.timeEnd)).sum ≤
      ∑ k ∈ Finset.range order.length, finish (tp.duration procs' order) a k := by
  have hlen : order.length = tasks.length := horder.length_eq
  rw [h.sum_timeEnd, hlen]
  rw [hlen] at ha
  have hp : ∀ v ∈ Finset.range procs.length, ∀ j < tasks.length,
      tp.duration procs tasks v j = jobTime tp mips tasks j :=
    fun v hv j _ => duration_eq_jobTime hequal (Finset.mem_range.mp hv) j
  have hp' : ∀ v ∈ Finset.range procs'.length, ∀ j < tasks.length,
      tp.duration procs' order v j = jobTime tp mips order j :=
    fun v hv j _ => duration_eq_jobTime hequal' (Finset.mem_range.mp hv) j
  have hcard : (Finset.range procs'.length).card ≤ (Finset.range procs.length).card := by
    rw [Finset.card_range, Finset.card_range, hlength]
  have hjobs : ((List.range tasks.length).map (jobTime tp mips order)).Perm
      ((List.range tasks.length).map (jobTime tp mips tasks)) := by
    rw [map_jobTime, ← hlen, map_jobTime]
    exact horder.map _
  exact (h.greedy (durationsNonneg_of_equal hequal hjob)).sum_finish_le hp hjob hmono hcard
    (fun j hj => Finset.mem_range.mpr (ha j hj)) hp' hjobs

/-- On equal processors, with the smallest tasks first, no schedule of the tasks has a
    smaller sum of ends, whatever the order it hands them out in and whoever it gives
    them to, if tasks with more operations have at least as many bits. -/
theorem small_first_minimises_total (std : StdAlgorithms) (g : Shuffle) (procs : List Processor)
    (mips : ℚ) (procComp : Comparator Processor) (tasks : List SimpleTask)
    (tp : TaskProcessorWithTransfer) (shuffle : Bool) (hprocs : procs ≠ [])
    (hequal : ∀ p ∈ procs, p.mips = mips) (hmips : 0 < mips)
    (hcomplexity : ∀ t ∈ tasks, 0 ≤ t.complexity) (hbandwidth : 0 < tp.bandwidth)
    (hsetup : 0 ≤ tp.connectionSetup)
    (hbits : ∀ t ∈ tasks, ∀ t' ∈ tasks, t.complexity ≤ t'.complexity →
      t.bitsToTransfer ≤ t'.bitsToTransfer) :
    ∃ sorted out, sorted.Perm tasks ∧ call std tp (std.sort procComp procs) sorted = some out ∧
      (∀ nUserHint r, simulate std g procs procComp tasks SimpleTask.smallFirst tp nUserHint shuffle
        true = some r → r.processedTasks = out ∧ r.tasks = sorted) ∧
      (out.map (·.task)).Perm (List.range sorted.length) ∧
      ∀ order : List SimpleTask, order.Perm tasks →
        ∀ a : ℕ → ℕ, (∀ k < order.length, a k < procs.length) →
          (out.map (·.timeEnd)).sum ≤
            ∑ k ∈ Finset.range order.length, finish (tp.duration procs order) a k := by
  obtain ⟨out, hcall, hsim, -, hsched⟩ :=
    simulate_log std g procs procComp tasks SimpleTask.smallFirst tp shuffle
  obtain ⟨w, hsched⟩ := hsched hprocs
  have hperm := sortedTasks_perm std g tasks SimpleTask.smallFirst shuffle
  have hsorted := sortedTasks_sorted std g tasks SimpleTask.smallFirst shuffle
  refine ⟨_, out, hperm, hcall,
    fun n r hr => processed_of_reported ((hsim n true).symm.trans hr), hsched.tasks_perm,
    fun order horder a ha => ?_⟩
  have hpermp := std.sort_perm procComp procs
  have hjob : ∀ k < (sortedTasks std g tasks SimpleTask.smallFirst shuffle).length,
      0 ≤ jobTime tp mips (sortedTasks std g tasks SimpleTask.smallFirst shuffle) k :=
    fun k hk => jobTime_nonneg hmips (fun t ht => hcomplexity t (hperm.mem_iff.mp ht)) hbandwidth
      hsetup hk
  have hmono := jobTime_mono hmips hbandwidth hsorted (fun t ht t' ht' =>
    hbits t (hperm.mem_iff.mp ht) t' (hperm.mem_iff.mp ht'))
  exact hsched.sum_timeEnd_le (fun p hp => hequal p (hpermp.mem_iff.mp hp)) hjob hmono hequal
    hpermp.length_eq.symm (horder.trans hperm.symm) ha

theorem small_first_minimises_total_five :
    ∃ tasks sorted out, Mmsim.createTasks .unbounded 5 [2] = some tasks ∧ sorted.Perm tasks ∧
      call .reference ⟨100, 1⟩ (StdAlgorithms.reference.sort Processor.slowFirst [⟨2⟩, ⟨2⟩])
        sorted = some out ∧ (out.map (·.task)).Perm (List.range sorted.length) ∧
      (out.map (·.timeEnd)).sum ≤ ∑ k ∈ Finset.range tasks.length,
        finish (duration ⟨100, 1⟩ [⟨2⟩, ⟨2⟩] tasks) (fun k => k % 2) k := by
  have hcreate : Mmsim.createTasks .unbounded 5 [2] = some (Mmsim.tasksFrom .unbounded 5 [2] 0) :=
    Mmsim.createTasks_unbounded 5 (by decide)
  obtain ⟨sorted, out, hperm, hcall, -, htasks, hall⟩ := small_first_minimises_total .reference
    .identity [⟨2⟩, ⟨2⟩] 2 Processor.slowFirst (Mmsim.tasksFrom .unbounded 5 [2] 0) ⟨100, 1⟩ false
    (List.cons_ne_nil _ _) (by decide +kernel) (by decide +kernel) (by decide +kernel)
    (by decide +kernel) (by decide +kernel) (by decide +kernel)
  exact ⟨_, sorted, out, hcreate, hperm, hcall, htasks,
    hall _ (.refl _) (fun k => k % 2) (fun k _ => Nat.mod_lt k Nat.zero_lt_two)⟩

end Smpp
