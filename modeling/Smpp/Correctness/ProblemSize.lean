-- SUMMARY: On equal processors a larger problem takes a single player no less time with the same slice.
import Smpp.Correctness.FlowTime
import Smpp.Scheduling.MoreJobs
import Smpp.Tiling.Growth

/-!
# Problem sizes

With the same slice a larger problem has more tiles, and larger ones, so that of every
length it has at least as many tasks. Both task priorities hand them out in the order of
their lengths, and then each task of the smaller problem is done no later than one of the
larger.
-/

open ListScheduling Tiling

namespace Smpp

open TaskProcessorWithTransfer

variable {tp : TaskProcessorWithTransfer} {mips : ℚ}

/-! ## Tiles of two problems -/

/-- A larger tile of a larger problem takes no less time. -/
theorem timeToProcess_tile_le {N N' : ℕ} (hmips : 0 < mips) (hbandwidth : 0 < tp.bandwidth)
    (hN : 1 ≤ N) (hle : N ≤ N') (userId : UInt8) {h h' k k' : ℕ} (hk : h ≤ k) (hk' : h' ≤ k') :
    tp.timeToProcess ⟨mips⟩ (Mmsim.tile .unbounded N userId h h') ≤
      tp.timeToProcess ⟨mips⟩ (Mmsim.tile .unbounded N' userId k k') := by
  have hoperations : (0 : ℚ) ≤ 2 * N - 1 := by
    have hone : (1 : ℚ) ≤ N := by exact_mod_cast hN
    linarith
  apply timeToProcess_mono hmips hbandwidth
  · rw [Mmsim.complexity_tile, Mmsim.complexity_tile]
    gcongr
  · rw [Mmsim.bitsToTransfer_tile, Mmsim.bitsToTransfer_tile, Width.wrap, Width.wrap]
    unfold Mmsim.tileBits
    gcongr

theorem count_jobTime (tp : TaskProcessorWithTransfer) (mips : ℚ) (tasks : List SimpleTask)
    (x : ℚ) :
    Nat.count (x ≤ jobTime tp mips tasks ·) tasks.length =
      (tasks.map (tp.timeToProcess ⟨mips⟩)).countP (x ≤ ·) := by
  rw [← map_jobTime, List.countP_map]
  rfl

/-- Of every length there are at least as many tasks. -/
theorem moreJobs_of_le {N N' sliceSize : ℕ} {userId : UInt8} {tasks tasks' : List SimpleTask}
    (hmips : 0 < mips) (hbandwidth : 0 < tp.bandwidth) (hN : 1 ≤ N) (hle : N ≤ N')
    (hs : 0 < sliceSize)
    (hperm : tasks.Perm (Mmsim.playerTasks .unbounded N sliceSize userId))
    (hperm' : tasks'.Perm (Mmsim.playerTasks .unbounded N' sliceSize userId)) :
    MoreJobs tasks.length (jobTime tp mips tasks) tasks'.length (jobTime tp mips tasks') := by
  have hcount : ∀ {N : ℕ} {tasks : List SimpleTask},
      tasks.Perm (Mmsim.playerTasks .unbounded N sliceSize userId) → ∀ x : ℚ,
        Nat.count (x ≤ jobTime tp mips tasks ·) tasks.length =
          (grid (fun h h' => tp.timeToProcess ⟨mips⟩ (Mmsim.tile .unbounded N userId h h')) N
            sliceSize).countP (x ≤ ·) := by
    intro N tasks hperm x
    rw [count_jobTime, (hperm.map _).countP_eq, ← Multiset.coe_countP, ← Multiset.map_coe,
      Mmsim.coe_playerTasks hs, map_grid]
  intro x
  rw [hcount hperm, hcount hperm']
  exact countP_grid_le hs hle
    (fun _ _ _ _ hk hk' => timeToProcess_tile_le hmips hbandwidth hN hle userId hk hk') x

/-! ## Two runs -/

section TwoRuns

variable {procs procs' : List Processor} {tasks tasks' : List SimpleTask} {w w' : ℕ → ℕ}
  {out out' : List (TaskCompletition TaskPtr)} {taskComp : Comparator SimpleTask}

/-- With more jobs, sorted by their lengths, each task of the other run has one that is
    done no earlier. -/
theorem Schedule.exists_later_of_moreJobs (h : Schedule tp procs tasks w out)
    (h' : Schedule tp procs' tasks' w' out') (hequal : ∀ p ∈ procs, p.mips = mips)
    (hequal' : ∀ p ∈ procs', p.mips = mips) (hlength : procs'.length ≤ procs.length)
    (hd : DurationsNonneg tp procs tasks) (hd' : DurationsNonneg tp procs' tasks')
    (hmips : 0 < mips) (hbandwidth : 0 < tp.bandwidth) (hcomp : ByComplexity taskComp)
    (hsorted : taskComp.Sorted tasks) (hsorted' : taskComp.Sorted tasks')
    (hbits : ∀ t ∈ tasks, ∀ t' ∈ tasks, t.complexity ≤ t'.complexity →
      t.bitsToTransfer ≤ t'.bitsToTransfer)
    (hbits' : ∀ t ∈ tasks', ∀ t' ∈ tasks', t.complexity ≤ t'.complexity →
      t.bitsToTransfer ≤ t'.bitsToTransfer)
    (hmore : MoreJobs tasks.length (jobTime tp mips tasks) tasks'.length (jobTime tp mips tasks'))
    {c : TaskCompletition TaskPtr} (hc : c ∈ out) : ∃ c' ∈ out', c.timeEnd ≤ c'.timeEnd := by
  obtain ⟨k, hk, rfl⟩ := h.mem_iff.mp hc
  have hle := hmore.le
  -- `own` are the tasks of the larger run that the smaller ones are matched with
  have hmatched : ∀ (own : ℕ → Prop) [DecidablePred own],
      OwnJobs own tasks'.length (jobTime tp mips tasks') tasks.length (jobTime tp mips tasks) →
      k < Nat.count own tasks'.length →
      ∃ c' ∈ out', (completion (tp.duration procs tasks) w k).timeEnd ≤ c'.timeEnd := by
    intro own _ hown hcount
    obtain ⟨i, hi, ho, rfl⟩ := exists_count_eq hcount
    exact ⟨_, h'.completion_mem hi,
      (h'.start_le_and_finish_le h hequal' hequal hlength hd' hd hown hi ho).2⟩
  rcases hcomp with rfl | rfl
  · apply hmatched _ (hmore.ownJobs_of_mono (jobTime_mono hmips hbandwidth hsorted' hbits')
      (jobTime_mono hmips hbandwidth hsorted hbits))
    rw [count_ge]
    omega
  · apply hmatched _ (hmore.ownJobs_of_anti (jobTime_anti hmips hbandwidth hsorted' hbits')
      (jobTime_anti hmips hbandwidth hsorted hbits))
    rw [count_lt]
    omega

end TwoRuns

/-- With the same slice a larger problem never takes a single player less time on equal
    processors, whatever the sorts and the shuffles do. -/
theorem larger_problem_no_faster (std std' : StdAlgorithms) (g g' : Shuffle)
    (procs : List Processor) (mips : ℚ) (procComp : Comparator Processor)
    (taskComp : Comparator SimpleTask) (tp : TaskProcessorWithTransfer)
    (shuffle shuffle' returnProcessed : Bool) (problemSize larger sliceSize : ℕ)
    (hN : 1 ≤ problemSize) (hle : problemSize ≤ larger) (hs : 1 ≤ sliceSize) (hprocs : procs ≠ [])
    (hequal : ∀ p ∈ procs, p.mips = mips) (hmips : 0 < mips)
    (hcomp : taskComp = SimpleTask.smallFirst ∨ taskComp = SimpleTask.largeFirst)
    (hbandwidth : 0 < tp.bandwidth) (hsetup : 0 ≤ tp.connectionSetup) :
    ∃ tasks tasks' r r' t t', Mmsim.createTasks .unbounded problemSize [sliceSize] = some tasks ∧
      Mmsim.createTasks .unbounded larger [sliceSize] = some tasks' ∧
      simulate std g procs procComp tasks taskComp tp 1 shuffle returnProcessed = some r ∧
      simulate std' g' procs procComp tasks' taskComp tp 1 shuffle' returnProcessed = some r' ∧
      r.times = [t] ∧ r'.times = [t'] ∧ t ≤ t' := by
  have hslice : ∀ s ∈ [sliceSize], 1 ≤ s := List.forall_mem_singleton.mpr hs
  have hmips' : ∀ p ∈ procs, 0 < p.mips := fun p hp => by rwa [hequal p hp]
  obtain ⟨r, out, w, t, hsim, h, htimes, hfinishing⟩ := Mmsim.exists_simulated_single std g procComp
    taskComp shuffle returnProcessed .unbounded problemSize sliceSize hprocs hmips'
    hbandwidth hsetup
  obtain ⟨r', out', w', t', hsim', h', htimes', -⟩ := Mmsim.exists_simulated_single std' g' procComp
    taskComp shuffle' returnProcessed .unbounded larger sliceSize hprocs hmips' hbandwidth hsetup
  refine ⟨_, _, r, r', t, t', Mmsim.createTasks_unbounded problemSize hslice,
    Mmsim.createTasks_unbounded larger hslice, hsim, hsim', htimes, htimes', ?_⟩
  have hsorted := std.sort_perm procComp procs
  have hsorted' := std'.sort_perm procComp procs
  have hperm := h.perm
  have hperm' := h'.perm
  rw [Mmsim.tasksFrom_singleton] at hperm hperm'
  have hbits : ∀ {N : ℕ} {tasks : List SimpleTask}, 1 ≤ N →
      tasks.Perm (Mmsim.playerTasks .unbounded N sliceSize 0) →
      ∀ a ∈ tasks, ∀ b ∈ tasks, a.complexity ≤ b.complexity → a.bitsToTransfer ≤ b.bitsToTransfer :=
    fun hN hperm a ha b hb hab => Mmsim.bits_le_of_complexity_le hs hN (hperm.mem_iff.mp ha)
      (hperm.mem_iff.mp hb) hab
  have hmore := moreJobs_of_le hmips hbandwidth hN hle hs hperm hperm'
  -- the task that ends last has a match in the larger problem
  obtain ⟨task, htask, huser⟩ := Mmsim.exists_mem_tasksFrom (u := 0) hslice hN Nat.one_pos
  obtain ⟨c, hc, -, rfl⟩ := (hfinishing.1 ⟨task, h.perm.mem_iff.mpr htask, huser⟩).1
  obtain ⟨c', hc', hcc⟩ := h.schedule.exists_later_of_moreJobs h'.schedule
    (fun p hp => hequal p (hsorted.mem_iff.mp hp)) (fun p hp => hequal p (hsorted'.mem_iff.mp hp))
    (hsorted'.trans hsorted.symm).length_eq.le h.nonneg h'.nonneg hmips hbandwidth hcomp h.sorted
    h'.sorted (hbits hN hperm) (hbits (hN.trans hle) hperm') hmore hc
  obtain ⟨x, hx, hcx⟩ := h'.exists_time_ge hc'
  rw [htimes', List.mem_singleton] at hx
  exact hx ▸ hcc.trans hcx

theorem larger_problem_no_faster_five :
    ∃ tasks tasks' r r' t t', Mmsim.createTasks .unbounded 5 [2] = some tasks ∧
      Mmsim.createTasks .unbounded 8 [2] = some tasks' ∧
      simulate .reference .identity [⟨2⟩, ⟨2⟩] Processor.slowFirst tasks SimpleTask.largeFirst
        ⟨100, 1⟩ 1 true false = some r ∧
      simulate .reference .identity [⟨2⟩, ⟨2⟩] Processor.slowFirst tasks' SimpleTask.largeFirst
        ⟨100, 1⟩ 1 false false = some r' ∧
      r.times = [t] ∧ r'.times = [t'] ∧ t ≤ t' :=
  larger_problem_no_faster .reference .reference .identity .identity [⟨2⟩, ⟨2⟩] 2
    Processor.slowFirst SimpleTask.largeFirst ⟨100, 1⟩ true false false 5 8 2 (by decide)
    (by decide) (by decide) (List.cons_ne_nil _ _) (by decide +kernel) (by decide +kernel)
    (.inr rfl) (by decide +kernel) (by decide +kernel)

end Smpp
