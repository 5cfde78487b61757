-- SUMMARY: A simulated time never beats the hardware, from the slice sizes to the reported times.
import Smpp.Correctness.Players

/-!
# Throughput

In the time a simulation takes, all processors together cannot do more than the
sum of their rates. What they have to do is fixed by the problem: the operations
of the product for every player, and the transfers.
-/

open ListScheduling Tiling

namespace Smpp

open TaskProcessorWithTransfer

variable {tp : TaskProcessorWithTransfer} {procs : List Processor} {tasks : List SimpleTask}

/-- The rate of worker `v`. -/
def rate (procs : List Processor) (v : ℕ) : ℚ := ((procs[v]?).map (·.mips)).getD 0

/-- In the time it has for a task a processor of rate at least `m` could do the
    task's operations, and `m` for every unit of the transfer time. -/
theorem work_le_rate_mul_duration {m : ℚ} (hmips : ∀ p ∈ procs, 0 < p.mips)
    (hm : ∀ p ∈ procs, m ≤ p.mips)
    (htransfer : ∀ t ∈ tasks, 0 ≤ tp.transferTime t.bitsToTransfer) {v k : ℕ}
    (hv : v < procs.length) (hk : k < tasks.length) :
    tasks[k].complexity + m * tp.transferTime tasks[k].bitsToTransfer ≤
      rate procs v * tp.duration procs tasks v k := by
  have hproc := List.getElem?_eq_getElem hv
  have htask := List.getElem?_eq_getElem hk
  have hrate : rate procs v = procs[v].mips := by simp [rate, hv]
  have hpos : 0 < procs[v].mips := hmips _ (List.getElem_mem hv)
  have hmul : procs[v].mips * (tasks[k].complexity / procs[v].mips) = tasks[k].complexity :=
    mul_div_cancel₀ _ hpos.ne'
  rw [duration_eq hproc htask, hrate, timeToProcess, Processor.timeToComplete, mul_add, hmul]
  gcongr
  · exact htransfer _ (List.getElem_mem hk)
  · exact hm _ (List.getElem_mem hv)

/-- What is done by time `T` is at most what the processors can do in time `T`. -/
theorem Schedule.work_le {w : ℕ → ℕ} {out : List (TaskCompletition TaskPtr)} {m T : ℚ}
    (h : Schedule tp procs tasks w out) (hmips : ∀ p ∈ procs, 0 < p.mips)
    (hm : ∀ p ∈ procs, m ≤ p.mips)
    (htransfer : ∀ t ∈ tasks, 0 ≤ tp.transferTime t.bitsToTransfer) (hT0 : 0 ≤ T)
    (hT : ∀ c ∈ out, c.timeEnd ≤ T) :
    (tasks.map (·.complexity)).sum + m * (tasks.map (tp.transferTime ·.bitsToTransfer)).sum ≤
      T * (procs.map (·.mips)).sum := by
  have hrate : ∀ v ∈ Finset.range procs.length, 0 ≤ rate procs v := by
    intro v hv
    have hv' := Finset.mem_range.mp hv
    simpa [rate, hv'] using (hmips _ (List.getElem_mem hv')).le
  calc (tasks.map (·.complexity)).sum + m * (tasks.map (tp.transferTime ·.bitsToTransfer)).sum
      = ∑ k ∈ Finset.range tasks.length, ((tasks[k]?).map fun t =>
          t.complexity + m * tp.transferTime t.bitsToTransfer).getD 0 := by
        rw [sum_range_getElem?, List.sum_map_add, List.sum_map_mul_left]
    _ ≤ ∑ k ∈ Finset.range tasks.length, rate procs (w k) * tp.duration procs tasks (w k) k := by
        apply Finset.sum_le_sum
        intro k hk
        have hk' := Finset.mem_range.mp hk
        rw [List.getElem?_eq_getElem hk']
        exact work_le_rate_mul_duration hmips hm htransfer (h.worker_lt k hk') hk'
    _ ≤ (∑ v ∈ Finset.range procs.length, rate procs v) * T :=
        sum_speed_mul_le hrate (fun k hk => Finset.mem_range.mpr (h.worker_lt k hk)) hT0
          (fun k hk => hT _ (h.completion_mem hk))
    _ = T * (procs.map (·.mips)).sum := by
        rw [mul_comm]
        congr 1
        exact sum_range_getElem? procs _

/-- For the tasks that `create_tasks` makes of `N` and the players' slices, the
    largest time `T` that `simulate` returns satisfies
    `U * N ^ 2 * (2 * N - 1) + slowest * transfers ≤ T * (sum of all rates)`. -/
theorem simulate_throughput (std : StdAlgorithms) (g : Shuffle) (procs : List Processor)
    (procComp : Comparator Processor) (taskComp : Comparator SimpleTask)
    (tp : TaskProcessorWithTransfer) (shuffle returnProcessed : Bool) (problemSize : ℕ)
    (slices : List ℕ) (hN : 1 ≤ problemSize) (hplayers : 1 ≤ slices.length)
    (hhint : slices.length ≤ 255) (hs : ∀ s ∈ slices, 1 ≤ s) (hprocs : procs ≠ [])
    (hmips : ∀ p ∈ procs, 0 < p.mips) (hbandwidth : 0 < tp.bandwidth)
    (hsetup : 0 ≤ tp.connectionSetup) :
    ∃ tasks r T m, Mmsim.createTasks .unbounded problemSize slices = some tasks ∧
      simulate std g procs procComp tasks taskComp tp (UInt8.ofNat slices.length) shuffle
        returnProcessed = some r ∧
      IsGreatest {t | t ∈ r.times} T ∧ IsLeast {x | x ∈ procs.map (·.mips)} m ∧
      (tasks.map (·.complexity)).sum =
        slices.length * problemSize ^ 2 * (2 * problemSize - 1 : ℚ) ∧
      slices.length * problemSize ^ 2 * (2 * problemSize - 1 : ℚ) +
          m * (tasks.map (tp.transferTime ·.bitsToTransfer)).sum ≤
        T * (procs.map (·.mips)).sum := by
  obtain ⟨r, out, w, hsim, h, hlen⟩ := Mmsim.exists_simulated_players std g procComp taskComp
    shuffle returnProcessed .unbounded problemSize slices hhint hprocs hmips hbandwidth hsetup
  have hperm := std.sort_perm procComp procs
  have hne : r.times ≠ [] := List.length_pos_iff.mp (by omega)
  obtain ⟨T, hT⟩ := exists_isGreatest hne
  obtain ⟨m, hm⟩ := exists_isLeast (show procs.map (·.mips) ≠ [] by simpa using hprocs)
  have hend : ∀ c ∈ out, c.timeEnd ≤ T := by
    intro c hc
    obtain ⟨t, ht, hle⟩ := h.exists_time_ge hc
    exact hle.trans (hT.2 ht)
  have hT0 : 0 ≤ T := by
    obtain ⟨task, htask, -⟩ := Mmsim.exists_mem_tasksFrom (u := 0) hs hN hplayers
    obtain ⟨k, hk, -⟩ := List.mem_iff_getElem.mp (h.perm.mem_iff.mpr htask)
    have hc := h.schedule.completion_mem hk
    exact (h.schedule.timeEnd_nonneg h.nonneg hc).trans (hend _ hc)
  have htransfer : ∀ t ∈ r.tasks, 0 ≤ tp.transferTime t.bitsToTransfer :=
    fun t _ => add_nonneg (div_nonneg (Nat.cast_nonneg _) hbandwidth.le) hsetup
  have hbound := h.schedule.work_le (fun p hp => hmips p (hperm.mem_iff.mp hp))
    (fun p hp => hm.2 (List.mem_map_of_mem (hperm.mem_iff.mp hp))) htransfer hT0 hend
  have hwork := Mmsim.sum_complexity_tasksFrom problemSize hs 0
  rw [(h.perm.map _).sum_eq, (h.perm.map _).sum_eq, (hperm.map _).sum_eq, hwork] at hbound
  exact ⟨_, r, T, m, Mmsim.createTasks_unbounded problemSize hs, hsim, hT, hm, hwork, hbound⟩

theorem simulate_throughput_two_players :
    ∃ tasks r T m, Mmsim.createTasks .unbounded 5 [2, 7] = some tasks ∧
      simulate .reference .identity [⟨2⟩, ⟨1⟩] Processor.slowFirst tasks SimpleTask.largeFirst
        ⟨100, 1⟩ 2 false true = some r ∧
      IsGreatest {t | t ∈ r.times} T ∧ IsLeast {x | x ∈ [(2 : ℚ), 1]} m := by
  obtain ⟨tasks, r, T, m, htasks, hr, hT, hm, -⟩ := simulate_throughput .reference .identity
    [⟨2⟩, ⟨1⟩] Processor.slowFirst SimpleTask.largeFirst ⟨100, 1⟩ false true 5 [2, 7] (by decide)
    (by decide) (by decide) (by decide) (List.cons_ne_nil _ _) (by decide +kernel)
    (by decide +kernel) (by decide +kernel)
  exact ⟨tasks, r, T, m, htasks, hr, hT, hm⟩

end Smpp
