-- SUMMARY: On processors of any speeds a simulation wastes at most one task's time of what the hardware could do.
import Smpp.Correctness.Throughput
import Smpp.Scheduling.Balance

/-!
# Balance

The bound of the throughput from the other side. The processors of a simulation are busy
until the last task starts, so in the reported time they could do the operations, the
transfers, and what fits in the time of one task, but no more.
-/

open ListScheduling Tiling

namespace Smpp

open TaskProcessorWithTransfer

variable {tp : TaskProcessorWithTransfer} {procs : List Processor} {tasks : List SimpleTask}

/-- In the time it has for a task a processor of rate at most `M` could do no more than the
    task's operations, and `M` for every unit of the transfer time. -/
theorem rate_mul_duration_le_work {M : ℚ} (hmips : ∀ p ∈ procs, 0 < p.mips)
    (hM : ∀ p ∈ procs, p.mips ≤ M)
    (htransfer : ∀ t ∈ tasks, 0 ≤ tp.transferTime t.bitsToTransfer) {v k : ℕ}
    (hv : v < procs.length) (hk : k < tasks.length) :
    rate procs v * tp.duration procs tasks v k ≤
      tasks[k].complexity + M * tp.transferTime tasks[k].bitsToTransfer := by
  have hproc := List.getElem?_eq_getElem hv
  have htask := List.getElem?_eq_getElem hk
  have hrate : rate procs v = procs[v].mips := by simp [rate, hv]
  have hpos : 0 < procs[v].mips := hmips _ (List.getElem_mem hv)
  have hmul : procs[v].mips * (tasks[k].complexity / procs[v].mips) = tasks[k].complexity :=
    mul_div_cancel₀ _ hpos.ne'
  rw [duration_eq hproc htask, hrate, timeToProcess, Processor.timeToComplete, mul_add, hmul]
  gcongr
  · exact htransfer _ (List.getElem_mem hk)
  · exact hM _ (List.getElem_mem hv)

/-- What the processors could do until a task ends. -/
theorem Schedule.le_work {w : ℕ → ℕ} {out : List (TaskCompletition TaskPtr)} {M D : ℚ}
    (h : Schedule tp procs tasks w out) (hd : DurationsNonneg tp procs tasks)
    (hmips : ∀ p ∈ procs, 0 < p.mips) (hM : ∀ p ∈ procs, p.mips ≤ M)
    (htransfer : ∀ t ∈ tasks, 0 ≤ tp.transferTime t.bitsToTransfer)
    (hD : ∀ p ∈ procs, ∀ t ∈ tasks, tp.timeToProcess p t ≤ D)
    {c : TaskCompletition TaskPtr} (hc : c ∈ out) :
    c.timeEnd * (procs.map (·.mips)).sum ≤
      (tasks.map (·.complexity)).sum + M * (tasks.map (tp.transferTime ·.bitsToTransfer)).sum +
        D * (procs.map (·.mips)).sum := by
  obtain ⟨j, hj, rfl⟩ := h.mem_iff.mp hc
  have hrate : ∀ v ∈ Finset.range procs.length, 0 ≤ rate procs v := by
    intro v hv
    have hv' := Finset.mem_range.mp hv
    simpa [rate, hv'] using (hmips _ (List.getElem_mem hv')).le
  have hsum : ∑ v ∈ Finset.range procs.length, rate procs v = (procs.map (·.mips)).sum :=
    sum_range_getElem? procs _
  have hlong : tp.duration procs tasks (w j) j ≤ D := by
    have hw := h.worker_lt j hj
    rw [duration_eq (List.getElem?_eq_getElem hw) (List.getElem?_eq_getElem hj)]
    exact hD _ (List.getElem_mem hw) _ (List.getElem_mem hj)
  have hwork : ∑ k ∈ Finset.range tasks.length, rate procs (w k) * tp.duration procs tasks (w k) k ≤
      (tasks.map (·.complexity)).sum + M * (tasks.map (tp.transferTime ·.bitsToTransfer)).sum := by
    rw [← List.sum_map_mul_left, ← List.sum_map_add, ← sum_range_getElem?]
    apply Finset.sum_le_sum
    intro k hk
    have hk' := Finset.mem_range.mp hk
    rw [List.getElem?_eq_getElem hk']
    exact rate_mul_duration_le_work hmips hM htransfer (h.worker_lt k hk') hk'
  have hbound := (h.greedy hd).sum_speed_mul_finish_le (fun k hk => h.duration_nonneg hd hk)
    hrate hj hlong
  rw [hsum] at hbound
  calc finish (tp.duration procs tasks) w j * (procs.map (·.mips)).sum
      = (procs.map (·.mips)).sum * finish (tp.duration procs tasks) w j := mul_comm _ _
    _ ≤ _ := hbound
    _ ≤ (tasks.map (·.complexity)).sum +
          M * (tasks.map (tp.transferTime ·.bitsToTransfer)).sum +
            D * (procs.map (·.mips)).sum := by
        rw [mul_comm D]
        gcongr

/-! ## Simulations -/

/-- Every player has a task. -/
theorem Mmsim.exists_mem_of_lt {problemSize : ℕ} {slices : List ℕ} (hN : 1 ≤ problemSize)
    (hs : ∀ s ∈ slices, 0 < s) (hhint : slices.length ≤ 255) {u : UInt8}
    (hu : u < UInt8.ofNat slices.length) :
    ∃ task ∈ Mmsim.tasksFrom .unbounded problemSize slices 0, task.userid = u := by
  rw [UInt8.lt_iff_toNat_lt, toNat_userId (by omega)] at hu
  obtain ⟨task, htask, huser⟩ := exists_mem_tasksFrom (u := 0) hs hN hu
  exact ⟨task, htask, by rw [huser, Nat.zero_add, UInt8.ofNat_toNat]⟩

/-- If all users have tasks, all times are ends of tasks. -/
theorem Simulated.exists_of_mem_times {taskComp : Comparator SimpleTask} {nUserHint : UInt8}
    {r : SimulateResult} {w : ℕ → ℕ} {out : List (TaskCompletition TaskPtr)}
    (h : Simulated tp procs tasks taskComp nUserHint r w out)
    (hall : ∀ u < nUserHint, ∃ task ∈ tasks, task.userid = u) {t : ℚ} (ht : t ∈ r.times) :
    ∃ c ∈ out, c.timeEnd = t := by
  obtain ⟨k, hk, rfl⟩ := List.mem_iff_getElem.mp ht
  have hhint : k < nUserHint.toNat := h.length ▸ hk
  have huid : (UInt8.ofNat k).toNat = k := Mmsim.toNat_userId (hhint.trans nUserHint.toNat_lt)
  have hlt : UInt8.ofNat k < nUserHint := by
    rw [UInt8.lt_iff_toNat_lt, huid]
    exact hhint
  obtain ⟨t, ht, hfinishing⟩ := h.times _ hlt
  obtain ⟨task, htask, huser⟩ := hall _ hlt
  obtain ⟨c, hc, -, hct⟩ := (hfinishing.1 ⟨task, h.perm.mem_iff.mpr htask, huser⟩).1
  rw [huid, List.getElem?_eq_getElem hk] at ht
  exact ⟨c, hc, hct.trans (Option.some.inj ht).symm⟩

/-- The largest time `T` that `simulate` returns for the tasks of `N` and the players' slices
    satisfies `T * (sum of all rates) ≤ U * N ^ 2 * (2 * N - 1) + fastest * transfers +
    longest * (sum of all rates)`, on processors of any speeds in any order. -/
theorem simulate_wastes_one_task (std : StdAlgorithms) (g : Shuffle) (procs : List Processor)
    (procComp : Comparator Processor) (taskComp : Comparator SimpleTask)
    (tp : TaskProcessorWithTransfer) (shuffle returnProcessed : Bool) (problemSize : ℕ)
    (slices : List ℕ) (hN : 1 ≤ problemSize) (hplayers : 1 ≤ slices.length)
    (hhint : slices.length ≤ 255) (hs : ∀ s ∈ slices, 1 ≤ s) (hprocs : procs ≠ [])
    (hmips : ∀ p ∈ procs, 0 < p.mips) (hbandwidth : 0 < tp.bandwidth)
    (hsetup : 0 ≤ tp.connectionSetup) :
    ∃ tasks r T M D, Mmsim.createTasks .unbounded problemSize slices = some tasks ∧
      simulate std g procs procComp tasks taskComp tp (UInt8.ofNat slices.length) shuffle
        returnProcessed = some r ∧
      IsGreatest {t | t ∈ r.times} T ∧ IsGreatest {x | x ∈ procs.map (·.mips)} M ∧
      IsGreatest {x | ∃ p ∈ procs, ∃ t ∈ tasks, tp.timeToProcess p t = x} D ∧
      T * (procs.map (·.mips)).sum ≤
        slices.length * problemSize ^ 2 * (2 * problemSize - 1 : ℚ) +
          M * (tasks.map (tp.transferTime ·.bitsToTransfer)).sum +
            D * (procs.map (·.mips)).sum := by
  obtain ⟨r, out, w, hsim, h, hlen⟩ := Mmsim.exists_simulated_players std g procComp taskComp
    shuffle returnProcessed .unbounded problemSize slices hhint hprocs hmips hbandwidth hsetup
  have hperm := std.sort_perm procComp procs
  have hne : r.times ≠ [] := List.length_pos_iff.mp (by omega)
  obtain ⟨T, hT⟩ := exists_isGreatest hne
  obtain ⟨M, hM⟩ := exists_isGreatest (show procs.map (·.mips) ≠ [] by simpa using hprocs)
  obtain ⟨task, htask, -⟩ := Mmsim.exists_mem_tasksFrom (u := 0) hs hN hplayers
  -- the longest time of a task on a processor
  obtain ⟨p, hp⟩ := List.exists_mem_of_ne_nil _ hprocs
  obtain ⟨D, hD⟩ := exists_isGreatest (l := procs.flatMap fun p =>
    (Mmsim.tasksFrom .unbounded problemSize slices 0).map (tp.timeToProcess p))
    (List.ne_nil_of_mem (List.mem_flatMap_of_mem hp (List.mem_map_of_mem htask)))
  simp only [List.mem_flatMap, List.mem_map] at hD
  have htransfer : ∀ t ∈ r.tasks, 0 ≤ tp.transferTime t.bitsToTransfer :=
    fun t _ => add_nonneg (div_nonneg (Nat.cast_nonneg _) hbandwidth.le) hsetup
  -- the largest time is the end of some task
  obtain ⟨c, hc, hcT⟩ :=
    h.exists_of_mem_times (fun u hu => Mmsim.exists_mem_of_lt hN hs hhint hu) hT.1
  have hbound := h.schedule.le_work h.nonneg (fun p hp => hmips p (hperm.mem_iff.mp hp))
    (fun p hp => hM.2 (List.mem_map_of_mem (hperm.mem_iff.mp hp))) htransfer
    (fun p hp t ht => hD.2 ⟨p, hperm.mem_iff.mp hp, t, h.perm.mem_iff.mp ht, rfl⟩) hc
  have hwork := Mmsim.sum_complexity_tasksFrom problemSize hs 0
  rw [hcT, (h.perm.map _).sum_eq, (h.perm.map _).sum_eq, (hperm.map _).sum_eq, hwork] at hbound
  exact ⟨_, r, T, M, D, Mmsim.createTasks_unbounded problemSize hs, hsim, hT, hM, hD, hbound⟩

theorem simulate_wastes_one_task_two_players :
    ∃ tasks r T M D, Mmsim.createTasks .unbounded 5 [2, 7] = some tasks ∧
      simulate .reference .identity [⟨2⟩, ⟨1⟩] Processor.slowFirst tasks SimpleTask.largeFirst
        ⟨100, 1⟩ 2 false true = some r ∧
      IsGreatest {t | t ∈ r.times} T ∧ IsGreatest {x | x ∈ [(2 : ℚ), 1]} M ∧
      T * ([⟨2⟩, ⟨1⟩].map Processor.mips).sum ≤ (2 : ℕ) * (5 : ℕ) ^ 2 * (2 * (5 : ℕ) - 1 : ℚ) +
        M * (tasks.map (transferTime ⟨100, 1⟩ ·.bitsToTransfer)).sum +
          D * ([⟨2⟩, ⟨1⟩].map Processor.mips).sum := by
  obtain ⟨tasks, r, T, M, D, htasks, hr, hT, hM, -, hbound⟩ := simulate_wastes_one_task .reference
    .identity [⟨2⟩, ⟨1⟩] Processor.slowFirst SimpleTask.largeFirst ⟨100, 1⟩ false true 5 [2, 7]
    (by decide) (by decide) (by decide) (by decide) (List.cons_ne_nil _ _) (by decide +kernel)
    (by decide +kernel) (by decide +kernel)
  exact ⟨tasks, r, T, M, D, htasks, hr, hT, hM, hbound⟩

end Smpp
