-- SUMMARY: What each player has to do, and the simulation of all players' tasks.
import Mathlib.Tactic.Positivity
import Smpp.Correctness.Determinism
import Smpp.Correctness.Tiling

/-!
# Players

The tasks of `create_tasks` meet what `simulate` needs of its input: complexities
are not negative, and user ids stay below the number of players. Every player has
the same amount of work, and at least one task.
-/

open Tiling

namespace Smpp.Mmsim

variable {problemSize sliceSize : ℕ} {userId : UInt8}

/-! ## The work of a player -/

theorem complexity_tile (h h' : ℕ) :
    (tile .unbounded problemSize userId h h').complexity = h * h' * (2 * problemSize - 1) := by
  simp only [tile, SimpleTask.create, calculateComplexity, Width.unbounded_mul, Nat.cast_mul]
  ring

/-- All players do the same amount of work, however they slice it. -/
theorem sum_complexity_playerTasks (hs : 0 < sliceSize) :
    ((playerTasks .unbounded problemSize sliceSize userId).map (·.complexity)).sum =
      problemSize ^ 2 * (2 * problemSize - 1 : ℚ) := by
  rw [← Multiset.sum_coe, ← Multiset.map_coe, coe_playerTasks hs, map_grid]
  simp only [complexity_tile]
  rw [sum_grid_area hs, sq]

theorem sum_complexity_tasksFrom (problemSize : ℕ) {slices : List ℕ} (hs : ∀ s ∈ slices, 0 < s)
    (u : ℕ) :
    ((tasksFrom .unbounded problemSize slices u).map (·.complexity)).sum =
      slices.length * problemSize ^ 2 * (2 * problemSize - 1 : ℚ) := by
  induction slices generalizing u with
  | nil => simp [tasksFrom]
  | cons s rest ih =>
    have hs' := List.forall_mem_cons.mp hs
    rw [tasksFrom, List.map_append, List.sum_append, sum_complexity_playerTasks hs'.1, ih hs'.2,
      List.length_cons]
    push_cast
    ring

theorem playerTasks_zero (w : Width) (sliceSize : ℕ) (userId : UInt8) :
    playerTasks w 0 sliceSize userId = [] := by
  simp [playerTasks, Width.mul]

/-- Complexities are not negative, even where their factors wrap. -/
theorem complexity_nonneg_of_mem_tasksFrom {w : Width} {slices : List ℕ} {u : ℕ} {t : SimpleTask}
    (ht : t ∈ tasksFrom w problemSize slices u) : 0 ≤ t.complexity := by
  obtain ⟨k, hk, ht⟩ := mem_tasksFrom.mp ht
  rcases Nat.eq_zero_or_pos problemSize with rfl | hN
  · rw [playerTasks_zero] at ht
    cases ht
  · obtain ⟨h, h', rfl⟩ := exists_eq_tile_of_mem ht
    have hoperations : (1 : ℚ) ≤ problemSize := by exact_mod_cast hN
    have hrate : (0 : ℚ) ≤ problemSize * 1 + problemSize - 1 := by linarith
    exact mul_nonneg (Nat.cast_nonneg _) hrate

/-- A player's tasks of one complexity are all the same. -/
theorem eq_of_complexity_eq (hs : 0 < sliceSize) {t t' : SimpleTask}
    (ht : t ∈ playerTasks .unbounded problemSize sliceSize userId)
    (ht' : t' ∈ playerTasks .unbounded problemSize sliceSize userId)
    (heq : t.complexity = t'.complexity) : t = t' := by
  obtain ⟨h, hh, h', hh', rfl⟩ := (mem_playerTasks hs).mp ht
  obtain ⟨k, hk, k', hk', rfl⟩ := (mem_playerTasks hs).mp ht'
  have hoperations : (2 * problemSize - 1 : ℚ) ≠ 0 := by
    rw [two_mul, ← mul_one (problemSize : ℚ)]
    simpa using operations_ne_zero problemSize
  rw [complexity_tile, complexity_tile] at heq
  have harea : (h * h' : ℚ) = k * k' := mul_right_cancel₀ hoperations heq
  exact eq_of_area_eq (tile_comm .unbounded problemSize userId) hs hh hh' hk hk'
    (by exact_mod_cast harea)

/-- Every player has something to do. -/
theorem exists_mem_tasksFrom {slices : List ℕ} (hs : ∀ s ∈ slices, 0 < s) (hN : 1 ≤ problemSize)
    {u k : ℕ} (hk : k < slices.length) :
    ∃ t ∈ tasksFrom .unbounded problemSize slices u, t.userid = UInt8.ofNat (u + k) := by
  have hpos : 0 < slices[k] := hs _ (List.getElem_mem hk)
  have hstrips : 0 < problemSize ⌈/⌉ slices[k] := ceilDiv_pos hpos hN
  have hlen : 0 < (playerTasks .unbounded problemSize slices[k] (UInt8.ofNat (u + k))).length := by
    rw [length_playerTasks hpos]
    exact pow_pos hstrips 2
  obtain ⟨t, ht⟩ := List.exists_mem_of_length_pos hlen
  exact ⟨t, mem_tasksFrom.mpr ⟨k, hk, ht⟩, userid_of_mem_playerTasks ht⟩

/-- Another player with the same slice has the same tasks. -/
theorem map_withUser_playerTasks (w : Width) (problemSize sliceSize : ℕ) (userId : UInt8)
    (σ : UInt8 → UInt8) :
    (playerTasks w problemSize sliceSize userId).map (SimpleTask.withUser σ) =
      playerTasks w problemSize sliceSize (σ userId) := by
  have htile : ∀ h h', (tile w problemSize userId h h').withUser σ =
      tile w problemSize (σ userId) h h' := fun _ _ => rfl
  by_cases h : w.mul (problemSize % sliceSize) sliceSize = 0
  · rw [playerTasks_of_eq_zero h, playerTasks_of_eq_zero h, List.map_replicate, htile]
  · rw [playerTasks_of_ne_zero h, playerTasks_of_ne_zero h]
    simp only [List.map_append, List.map_replicate, List.map_singleton, htile]

/-! ## Simulating the players -/

/-- `simulate` on the players' tasks, with the number of players as the hint. -/
theorem exists_simulated_players (std : StdAlgorithms) (g : Shuffle) {procs : List Processor}
    (procComp : Comparator Processor) (taskComp : Comparator SimpleTask)
    {tp : TaskProcessorWithTransfer} (shuffle returnProcessed : Bool) (w : Width) (problemSize : ℕ)
    (slices : List ℕ) (hhint : slices.length ≤ 255) (hprocs : procs ≠ [])
    (hmips : ∀ p ∈ procs, 0 < p.mips) (hbandwidth : 0 < tp.bandwidth)
    (hsetup : 0 ≤ tp.connectionSetup) :
    ∃ r out workers,
      simulate std g procs procComp (tasksFrom w problemSize slices 0) taskComp tp
        (UInt8.ofNat slices.length) shuffle returnProcessed = some r ∧
      Simulated tp (std.sort procComp procs) (tasksFrom w problemSize slices 0) taskComp
        (UInt8.ofNat slices.length) r workers out ∧
      r.times.length = slices.length := by
  obtain ⟨r, out, workers, hsim, -, -, h⟩ := exists_simulated std g procs procComp
    (tasksFrom w problemSize slices 0) taskComp tp (UInt8.ofNat slices.length) shuffle
    returnProcessed hprocs hmips (fun t ht => complexity_nonneg_of_mem_tasksFrom ht)
    (userid_lt_of_mem_tasksFrom hhint) hbandwidth hsetup
  exact ⟨r, out, workers, hsim, h, h.length.trans (toNat_userId (by omega))⟩

/-- A single player gets a single time. -/
theorem exists_simulated_single (std : StdAlgorithms) (g : Shuffle) {procs : List Processor}
    (procComp : Comparator Processor) (taskComp : Comparator SimpleTask)
    {tp : TaskProcessorWithTransfer} (shuffle returnProcessed : Bool) (w : Width)
    (problemSize sliceSize : ℕ) (hprocs : procs ≠ []) (hmips : ∀ p ∈ procs, 0 < p.mips)
    (hbandwidth : 0 < tp.bandwidth) (hsetup : 0 ≤ tp.connectionSetup) :
    ∃ r out workers t,
      simulate std g procs procComp (tasksFrom w problemSize [sliceSize] 0) taskComp tp 1 shuffle
        returnProcessed = some r ∧
      Simulated tp (std.sort procComp procs) (tasksFrom w problemSize [sliceSize] 0) taskComp 1 r
        workers out ∧
      r.times = [t] ∧ IsFinishingTime r.tasks out 0 t := by
  obtain ⟨r, out, workers, hsim, h, hlen⟩ := exists_simulated_players std g procComp taskComp
    shuffle returnProcessed w problemSize [sliceSize] (Nat.one_le_ofNat) hprocs hmips
    hbandwidth hsetup
  obtain ⟨t, ht, hfinishing⟩ := h.times 0 (show (0 : UInt8) < 1 by decide)
  obtain ⟨x, hx⟩ := List.length_eq_one_iff.mp hlen
  rw [hx] at ht
  cases ht
  exact ⟨r, out, workers, t, hsim, h, hx, hfinishing⟩

end Smpp.Mmsim
