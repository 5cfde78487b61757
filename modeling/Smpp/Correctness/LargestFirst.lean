-- SUMMARY: Largest first: a single player on equal processors stays within the bound for longest jobs first.
import Smpp.Correctness.EqualProcessors
import Smpp.Correctness.Players
import Smpp.Correctness.TaskWidth
import Smpp.Scheduling.Lpt

/-!
# Largest first

The task order compares complexities and does not know about transfer times. On the
tiles of one decomposition this makes no difference: a tile with more operations
also has longer sides, and so more to transfer.
-/

open ListScheduling Tiling

namespace Smpp

open TaskProcessorWithTransfer

/-! ## Complexity order and duration order -/

theorem timeToProcess_mono {tp : TaskProcessorWithTransfer} {proc : Processor} {t t' : SimpleTask}
    (hmips : 0 < proc.mips) (hbandwidth : 0 < tp.bandwidth)
    (hcomplexity : t.complexity ≤ t'.complexity) (hbits : t.bitsToTransfer ≤ t'.bitsToTransfer) :
    tp.timeToProcess proc t ≤ tp.timeToProcess proc t' := by
  unfold timeToProcess transferTime Processor.timeToComplete
  gcongr

/-- If more operations mean at least as many bits, largest first is longest first. -/
theorem jobTime_anti {tp : TaskProcessorWithTransfer} {mips : ℚ} {tasks : List SimpleTask}
    (hmips : 0 < mips) (hbandwidth : 0 < tp.bandwidth)
    (hsorted : SimpleTask.largeFirst.Sorted tasks)
    (hbits : ∀ t ∈ tasks, ∀ t' ∈ tasks, t.complexity ≤ t'.complexity →
      t.bitsToTransfer ≤ t'.bitsToTransfer) :
    ∀ i k, i ≤ k → k < tasks.length → jobTime tp mips tasks k ≤ jobTime tp mips tasks i := by
  intro i k hik hk
  have hi : i < tasks.length := hik.trans_lt hk
  rcases hik.eq_or_lt with rfl | hlt
  · exact le_rfl
  · have hcomplexity : tasks[k].complexity ≤ tasks[i].complexity :=
      Comparator.greater_eq_false.mp (List.pairwise_iff_getElem.mp hsorted i k hi hk hlt)
    rw [jobTime_eq hk, jobTime_eq hi]
    exact timeToProcess_mono hmips hbandwidth hcomplexity
      (hbits _ (List.getElem_mem hk) _ (List.getElem_mem hi) hcomplexity)

namespace Mmsim

variable {problemSize sliceSize : ℕ} {userId : UInt8}

/-- A tile with more operations has at least as many bits. -/
theorem bits_le_of_complexity_le (hs : 0 < sliceSize) (hN : 0 < problemSize) {t t' : SimpleTask}
    (ht : t ∈ playerTasks .unbounded problemSize sliceSize userId)
    (ht' : t' ∈ playerTasks .unbounded problemSize sliceSize userId)
    (hle : t.complexity ≤ t'.complexity) : t.bitsToTransfer ≤ t'.bitsToTransfer := by
  obtain ⟨h, hh, h', hh', rfl⟩ := (mem_playerTasks hs).mp ht
  obtain ⟨k, hk, k', hk', rfl⟩ := (mem_playerTasks hs).mp ht'
  have hoperations : (0 : ℚ) < 2 * problemSize - 1 := by
    have hone : (1 : ℚ) ≤ problemSize := by exact_mod_cast hN
    linarith
  rw [complexity_tile, complexity_tile] at hle
  have harea : h * h' ≤ k * k' := by exact_mod_cast le_of_mul_le_mul_right hle hoperations
  have hsides := add_le_add_of_area_le hs hh hh' hk hk' harea
  rw [bitsToTransfer_tile, bitsToTransfer_tile, Width.wrap, Width.wrap]
  calc tileBits problemSize h h' = 64 * ((h + h') * problemSize + h * h') := by
        unfold tileBits
        ring
    _ ≤ 64 * ((k + k') * problemSize + k * k') := by gcongr
    _ = tileBits problemSize k k' := by
        unfold tileBits
        ring

end Mmsim

/-! ## The bound -/

/-- On equal processors loads only depend on the jobs. -/
theorem load_duration_eq {tp : TaskProcessorWithTransfer} {procs : List Processor}
    {tasks : List SimpleTask} {mips : ℚ} (hequal : ∀ p ∈ procs, p.mips = mips) (a : ℕ → ℕ) (k : ℕ)
    {v : ℕ} (hv : v < procs.length) :
    load (tp.duration procs tasks) a k v = load (fun _ => jobTime tp mips tasks) a k v := by
  apply Finset.sum_congr rfl
  intro j _
  exact duration_eq_jobTime hequal hv j

/-- When jobs are handed out longest first, nothing ends later than the bound
    against any assignment `a` that keeps all loads within `T'`. -/
theorem Schedule.timeEnd_le_of_anti {tp : TaskProcessorWithTransfer} {procs : List Processor}
    {tasks : List SimpleTask} {w a : ℕ → ℕ} {out : List (TaskCompletition TaskPtr)} {mips T' : ℚ}
    (h : Schedule tp procs tasks w out) (hequal : ∀ p ∈ procs, p.mips = mips)
    (hjob : ∀ k < tasks.length, 0 ≤ jobTime tp mips tasks k)
    (hanti : ∀ i k, i ≤ k → k < tasks.length → jobTime tp mips tasks k ≤ jobTime tp mips tasks i)
    (ha : ∀ k < tasks.length, a k < procs.length)
    (hT' : ∀ v < procs.length, load (fun _ => jobTime tp mips tasks) a tasks.length v ≤ T')
    {c : TaskCompletition TaskPtr} (hc : c ∈ out) :
    3 * procs.length * c.timeEnd ≤ (4 * (procs.length : ℚ) - 1) * T' := by
  obtain ⟨k, hk, rfl⟩ := h.mem_iff.mp hc
  have hpos : 0 < procs.length := h.length_pos hc
  have hS : (Finset.range procs.length).Nonempty := Finset.nonempty_range_iff.mpr hpos.ne'
  have hp : ∀ v ∈ Finset.range procs.length, ∀ j < tasks.length,
      tp.duration procs tasks v j = jobTime tp mips tasks j :=
    fun v hv j _ => duration_eq_jobTime hequal (Finset.mem_range.mp hv) j
  have hgreedy := h.greedy (durationsNonneg_of_equal hequal hjob)
  have hbound := hgreedy.card_nsmul_finish_le_of_anti hp hjob hS hanti
    (fun j hj => Finset.mem_range.mpr (ha j hj)) hk
  have hle :
      makespan (tp.duration procs tasks) a tasks.length (Finset.range procs.length) hS ≤ T' := by
    apply Finset.sup'_le
    intro v hv
    have hv' := Finset.mem_range.mp hv
    rw [load_duration_eq hequal a tasks.length hv']
    exact hT' v hv'
  rw [Finset.card_range, nsmul_eq_mul, nsmul_eq_mul, Nat.cast_sub (by omega)] at hbound
  push_cast at hbound
  have hcoef : (0 : ℚ) ≤ 4 * (procs.length : ℚ) - 1 := by
    have hone : (1 : ℚ) ≤ procs.length := by exact_mod_cast hpos
    linarith
  exact hbound.trans (mul_le_mul_of_nonneg_left hle hcoef)

/-- With the largest tasks first, on `m` equal processors, the time `T` reported for
    a single player satisfies `3 m T ≤ (4 m - 1) T'` for the makespan `T'` of any
    assignment `a` of the tasks. -/
theorem largest_first_bound (std : StdAlgorithms) (g : Shuffle) (procs : List Processor) (mips : ℚ)
    (procComp : Comparator Processor) (tp : TaskProcessorWithTransfer)
    (shuffle returnProcessed : Bool) (problemSize sliceSize : ℕ) (hN : 1 ≤ problemSize)
    (hs : 1 ≤ sliceSize) (hprocs : procs ≠ []) (hequal : ∀ p ∈ procs, p.mips = mips)
    (hmips : 0 < mips) (hbandwidth : 0 < tp.bandwidth) (hsetup : 0 ≤ tp.connectionSetup) :
    ∃ tasks r T, Mmsim.createTasks .unbounded problemSize [sliceSize] = some tasks ∧
      simulate std g procs procComp tasks SimpleTask.largeFirst tp 1 shuffle returnProcessed =
        some r ∧
      r.times = [T] ∧ r.tasks.Perm tasks ∧
      ∀ a : ℕ → ℕ, (∀ k < r.tasks.length, a k < procs.length) → ∀ T',
        IsGreatest
          {t | ∃ v < procs.length, load (tp.duration procs r.tasks) a r.tasks.length v = t} T' →
        3 * procs.length * T ≤ (4 * (procs.length : ℚ) - 1) * T' := by
  have hslice : ∀ s ∈ [sliceSize], 1 ≤ s := List.forall_mem_singleton.mpr hs
  have hmips' : ∀ p ∈ procs, 0 < p.mips := fun p hp => by rwa [hequal p hp]
  obtain ⟨r, out, w, T, hsim, h, hT, hfinishing⟩ := Mmsim.exists_simulated_single std g procComp
    SimpleTask.largeFirst shuffle returnProcessed .unbounded problemSize sliceSize hprocs hmips'
    hbandwidth hsetup
  refine ⟨_, r, T, Mmsim.createTasks_unbounded problemSize hslice, hsim, hT, h.perm,
    fun a ha T' hT' => ?_⟩
  have hplayer : ∀ t ∈ r.tasks, t ∈ Mmsim.playerTasks .unbounded problemSize sliceSize 0 := by
    intro t ht
    have hmem := h.perm.mem_iff.mp ht
    rwa [Mmsim.tasksFrom_singleton] at hmem
  have hjob : ∀ k < r.tasks.length, 0 ≤ jobTime tp mips r.tasks k :=
    fun k hk => jobTime_nonneg hmips (fun t ht =>
      Mmsim.complexity_nonneg_of_mem_tasksFrom (h.perm.mem_iff.mp ht)) hbandwidth hsetup hk
  have hanti := jobTime_anti hmips hbandwidth h.sorted
    (fun t ht t' ht' => Mmsim.bits_le_of_complexity_le hs hN (hplayer t ht) (hplayer t' ht'))
  -- the task that ends last
  obtain ⟨task, htask, huser⟩ := Mmsim.exists_mem_tasksFrom (u := 0) hslice hN Nat.one_pos
  obtain ⟨c, hc, -, rfl⟩ := (hfinishing.1 ⟨task, h.perm.mem_iff.mpr htask, huser⟩).1
  -- the processors keep their speed when they are sorted
  have hperm := std.sort_perm procComp procs
  have hequal' : ∀ p ∈ std.sort procComp procs, p.mips = mips :=
    fun p hp => hequal p (hperm.mem_iff.mp hp)
  rw [← hperm.length_eq] at ha ⊢
  apply h.schedule.timeEnd_le_of_anti hequal' hjob hanti ha _ hc
  intro v hv
  rw [hperm.length_eq] at hv
  rw [← load_duration_eq hequal a r.tasks.length hv]
  exact hT'.2 ⟨v, hv, rfl⟩

theorem largest_first_bound_five :
    ∃ tasks r T, Mmsim.createTasks .unbounded 5 [2] = some tasks ∧
      simulate .reference .identity [⟨2⟩, ⟨2⟩] Processor.slowFirst tasks SimpleTask.largeFirst
        ⟨100, 1⟩ 1 false false = some r ∧ r.times = [T] := by
  obtain ⟨tasks, r, T, htasks, hr, hT, -⟩ := largest_first_bound .reference .identity [⟨2⟩, ⟨2⟩] 2
    Processor.slowFirst ⟨100, 1⟩ false false 5 2 (by decide) (by decide) (List.cons_ne_nil _ _)
    (by decide +kernel) (by decide +kernel) (by decide +kernel) (by decide +kernel)
  exact ⟨tasks, r, T, htasks, hr, hT⟩

end Smpp
