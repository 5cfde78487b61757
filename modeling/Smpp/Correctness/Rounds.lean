-- SUMMARY: When the slice divides the problem and the processors are equal, the reported times are known exactly.
import Smpp.Correctness.Balance
import Smpp.Correctness.EqualProcessors
import Smpp.Correctness.Volume
import Smpp.Scheduling.Rounds

/-!
# Rounds of tasks

A slice that divides the problem leaves full tiles only. All tasks then take the same
time on equal processors, and the simulation goes through them in rounds, with a task
on every processor in all rounds but the last.
-/

open ListScheduling Tiling

namespace Smpp

open TaskProcessorWithTransfer

/-! ## Tasks of one length -/

section Schedule

variable {tp : TaskProcessorWithTransfer} {procs : List Processor} {tasks : List SimpleTask}
  {mips d : ℚ} {w : ℕ → ℕ} {out : List (TaskCompletition TaskPtr)}

/-- Task `k` ends with its round. -/
theorem Schedule.finish_eq_rounds (h : Schedule tp procs tasks w out)
    (hequal : ∀ p ∈ procs, p.mips = mips) (hd : ∀ t ∈ tasks, tp.timeToProcess ⟨mips⟩ t = d)
    (hd0 : 0 ≤ d) {k : ℕ} (hk : k < tasks.length) :
    finish (tp.duration procs tasks) w k = (k / procs.length + 1 : ℕ) * d := by
  have hjob : ∀ j < tasks.length, jobTime tp mips tasks j = d := by
    intro j hj
    rw [jobTime_eq hj, hd _ (List.getElem_mem hj)]
  have hnonneg : DurationsNonneg tp procs tasks :=
    durationsNonneg_of_equal hequal (fun j hj => (hjob j hj).symm ▸ hd0)
  have hp : ∀ v < procs.length, ∀ j < tasks.length, tp.duration procs tasks v j = d := by
    intro v hv j hj
    rw [duration_eq_jobTime hequal hv, hjob j hj]
  rw [(h.greedy hnonneg).finish_eq_rounds hp hd0 hk, nsmul_eq_mul]

/-- The last task is in the last round. -/
theorem Schedule.isGreatest_rounds (h : Schedule tp procs tasks w out)
    (hequal : ∀ p ∈ procs, p.mips = mips) (hd : ∀ t ∈ tasks, tp.timeToProcess ⟨mips⟩ t = d)
    (hd0 : 0 ≤ d) (htasks : tasks ≠ []) :
    IsGreatest {t | ∃ c ∈ out, c.timeEnd = t} ((tasks.length ⌈/⌉ procs.length : ℕ) * d) := by
  have hlength : 0 < tasks.length := List.length_pos_iff.mpr htasks
  have hlast : tasks.length - 1 < tasks.length := Nat.sub_lt hlength Nat.one_pos
  have hm : 0 < procs.length := Nat.zero_lt_of_lt (h.worker_lt _ hlast)
  have hrounds : tasks.length ⌈/⌉ procs.length = (tasks.length - 1) / procs.length + 1 := by
    rw [Nat.ceilDiv_eq_add_pred_div, ← Nat.add_div_right _ hm]
    congr 1
    omega
  have hend : ∀ k < tasks.length,
      (completion (tp.duration procs tasks) w k).timeEnd = (k / procs.length + 1 : ℕ) * d :=
    fun k hk => h.finish_eq_rounds hequal hd hd0 hk
  rw [hrounds]
  constructor
  · exact ⟨_, h.completion_mem hlast, hend _ hlast⟩
  · rintro _ ⟨c, hc, rfl⟩
    obtain ⟨k, hk, rfl⟩ := h.mem_iff.mp hc
    rw [hend k hk]
    gcongr
    exact Nat.le_sub_one_of_lt hk

end Schedule

/-- If all users have tasks, the largest time is the end of the log. -/
theorem Simulated.isGreatest_times {tp : TaskProcessorWithTransfer} {procs : List Processor}
    {tasks : List SimpleTask} {taskComp : Comparator SimpleTask} {nUserHint : UInt8}
    {r : SimulateResult} {w : ℕ → ℕ} {out : List (TaskCompletition TaskPtr)} {T : ℚ}
    (h : Simulated tp procs tasks taskComp nUserHint r w out)
    (hall : ∀ u < nUserHint, ∃ task ∈ tasks, task.userid = u)
    (hT : IsGreatest {t | ∃ c ∈ out, c.timeEnd = t} T) : IsGreatest {t | t ∈ r.times} T := by
  have hle : ∀ t ∈ r.times, t ≤ T := fun t ht => hT.2 (h.exists_of_mem_times hall ht)
  obtain ⟨c, hc, hcT⟩ := hT.1
  obtain ⟨t, ht, hct⟩ := h.exists_time_ge hc
  have heq : t = T := le_antisymm (hle t ht) (hcT ▸ hct)
  exact ⟨heq ▸ ht, hle⟩

/-! ## Slices that divide the problem -/

section Tasks

variable {problemSize sliceSize : ℕ} {userId : UInt8}

/-- There are no edges and no corner. -/
theorem Mmsim.playerTasks_of_dvd (hdvd : sliceSize ∣ problemSize) :
    playerTasks .unbounded problemSize sliceSize userId =
      List.replicate ((problemSize / sliceSize) ^ 2)
        (tile .unbounded problemSize userId sliceSize sliceSize) := by
  have harea : Width.unbounded.mul (problemSize % sliceSize) sliceSize = 0 := by
    rw [Nat.mod_eq_zero_of_dvd hdvd, Width.unbounded_mul, zero_mul]
  rw [playerTasks_of_eq_zero harea, Width.unbounded_mul, sq]

theorem Mmsim.length_tasksFrom_of_dvd (hs : 0 < sliceSize) (hdvd : sliceSize ∣ problemSize)
    (players : ℕ) :
    (tasksFrom .unbounded problemSize (List.replicate players sliceSize) 0).length =
      players * (problemSize / sliceSize) ^ 2 := by
  have hstrips : problemSize ⌈/⌉ sliceSize = problemSize / sliceSize := by
    rw [ceilDiv_eq hs, if_pos (Nat.mod_eq_zero_of_dvd hdvd), add_zero]
  rw [length_tasksFrom (fun s hs' => (List.eq_of_mem_replicate hs').symm ▸ hs), List.map_replicate,
    List.sum_replicate, hstrips, smul_eq_mul]

/-- The time a full tile takes. -/
def tileTime (tp : TaskProcessorWithTransfer) (mips : ℚ) (problemSize sliceSize : ℕ) : ℚ :=
  sliceSize ^ 2 * (2 * problemSize - 1) / mips +
    (64 * (2 * sliceSize * problemSize + sliceSize ^ 2) / tp.bandwidth + tp.connectionSetup)

theorem timeToProcess_full_tile (tp : TaskProcessorWithTransfer) (mips : ℚ) :
    tp.timeToProcess ⟨mips⟩ (Mmsim.tile .unbounded problemSize userId sliceSize sliceSize) =
      tileTime tp mips problemSize sliceSize := by
  have hbits : ((Mmsim.tileBits problemSize sliceSize sliceSize : ℕ) : ℚ) =
      64 * (2 * sliceSize * problemSize + sliceSize ^ 2) := by
    unfold Mmsim.tileBits
    push_cast
    ring
  rw [timeToProcess, transferTime, Processor.timeToComplete, Mmsim.complexity_tile,
    Mmsim.bitsToTransfer_tile, Width.wrap, hbits, tileTime, sq (sliceSize : ℚ)]

theorem timeToProcess_of_dvd (tp : TaskProcessorWithTransfer) (mips : ℚ)
    (hdvd : sliceSize ∣ problemSize) {players : ℕ} {t : SimpleTask}
    (ht : t ∈ Mmsim.tasksFrom .unbounded problemSize (List.replicate players sliceSize) 0) :
    tp.timeToProcess ⟨mips⟩ t = tileTime tp mips problemSize sliceSize := by
  obtain ⟨k, hk, ht⟩ := Mmsim.mem_tasksFrom.mp ht
  rw [List.getElem_replicate, Mmsim.playerTasks_of_dvd hdvd] at ht
  rw [List.eq_of_mem_replicate ht, timeToProcess_full_tile]

end Tasks

/-- Any number of players who all slice the problem by `s`, a divisor of `N`: on `m` equal
    processors the largest time is that of `⌈players * (N / s) ^ 2 / m⌉` full tiles, one
    after the other, whatever the sorts, the shuffle and the priorities do. -/
theorem simulate_rounds (std : StdAlgorithms) (g : Shuffle) (procs : List Processor) (mips : ℚ)
    (procComp : Comparator Processor) (taskComp : Comparator SimpleTask)
    (tp : TaskProcessorWithTransfer) (shuffle returnProcessed : Bool)
    (problemSize sliceSize players : ℕ) (hN : 1 ≤ problemSize) (hdvd : sliceSize ∣ problemSize)
    (hplayers : 1 ≤ players) (hhint : players ≤ 255) (hprocs : procs ≠ [])
    (hequal : ∀ p ∈ procs, p.mips = mips) (hmips : 0 < mips) (hbandwidth : 0 < tp.bandwidth)
    (hsetup : 0 ≤ tp.connectionSetup) :
    ∃ tasks r, Mmsim.createTasks .unbounded problemSize (List.replicate players sliceSize) =
        some tasks ∧
      simulate std g procs procComp tasks taskComp tp (UInt8.ofNat players) shuffle
        returnProcessed = some r ∧
      IsGreatest {t | t ∈ r.times}
        ((players * (problemSize / sliceSize) ^ 2 ⌈/⌉ procs.length : ℕ) *
          (sliceSize ^ 2 * (2 * problemSize - 1) / mips +
            (64 * (2 * sliceSize * problemSize + sliceSize ^ 2) / tp.bandwidth +
              tp.connectionSetup))) := by
  have hs : 0 < sliceSize := Nat.pos_of_dvd_of_pos hdvd hN
  have hslices : ∀ s ∈ List.replicate players sliceSize, 0 < s :=
    fun s hs' => (List.eq_of_mem_replicate hs').symm ▸ hs
  have hlength : (List.replicate players sliceSize).length = players := List.length_replicate
  obtain ⟨r, out, w, hsim, h, -⟩ := Mmsim.exists_simulated_players std g procComp taskComp shuffle
    returnProcessed .unbounded problemSize (List.replicate players sliceSize) (by rwa [hlength])
    hprocs (fun p hp => by rwa [hequal p hp]) hbandwidth hsetup
  rw [hlength] at hsim h
  have hperm := std.sort_perm procComp procs
  obtain ⟨task, htask, -⟩ := Mmsim.exists_mem_tasksFrom (u := 0) hslices hN
    (show 0 < (List.replicate players sliceSize).length by rwa [hlength])
  have hne : r.tasks ≠ [] := List.ne_nil_of_mem (h.perm.mem_iff.mpr htask)
  have htime : ∀ t ∈ r.tasks, tp.timeToProcess ⟨mips⟩ t = tileTime tp mips problemSize sliceSize :=
    fun t ht => timeToProcess_of_dvd tp mips hdvd (h.perm.mem_iff.mp ht)
  have hnonneg : 0 ≤ tileTime tp mips problemSize sliceSize := by
    rw [← timeToProcess_of_dvd tp mips hdvd htask]
    exact timeToProcess_nonneg hmips (Mmsim.complexity_nonneg_of_mem_tasksFrom htask) hbandwidth
      hsetup
  have hmax := h.schedule.isGreatest_rounds (fun p hp => hequal p (hperm.mem_iff.mp hp)) htime
    hnonneg hne
  rw [h.perm.length_eq, hperm.length_eq, Mmsim.length_tasksFrom_of_dvd hs hdvd] at hmax
  have hall : ∀ u < UInt8.ofNat players, ∃ task ∈ Mmsim.tasksFrom .unbounded problemSize
      (List.replicate players sliceSize) 0, task.userid = u :=
    fun u hu => Mmsim.exists_mem_of_lt hN hslices (by rwa [hlength]) (by rwa [hlength])
  exact ⟨_, r, Mmsim.createTasks_unbounded problemSize hslices, hsim, h.isGreatest_times hall hmax⟩

theorem simulate_rounds_two_players :
    ∃ tasks r, Mmsim.createTasks .unbounded 6 (List.replicate 2 2) = some tasks ∧
      simulate .reference .identity [⟨2⟩, ⟨2⟩, ⟨2⟩, ⟨2⟩] Processor.slowFirst tasks
        SimpleTask.largeFirst ⟨100, 1⟩ (UInt8.ofNat 2) true true = some r ∧
      IsGreatest {t | t ∈ r.times} ((2 * (6 / 2) ^ 2 ⌈/⌉ 4 : ℕ) *
        ((2 : ℕ) ^ 2 * (2 * (6 : ℕ) - 1) / 2 +
          (64 * (2 * (2 : ℕ) * (6 : ℕ) + (2 : ℕ) ^ 2) / 100 + 1))) :=
  simulate_rounds .reference .identity [⟨2⟩, ⟨2⟩, ⟨2⟩, ⟨2⟩] 2 Processor.slowFirst
    SimpleTask.largeFirst ⟨100, 1⟩ true true 6 2 2 (by decide) (by decide) (by decide) (by decide)
    (List.cons_ne_nil _ _) (by decide +kernel) (by decide +kernel) (by decide +kernel)
    (by decide +kernel)

end Smpp
