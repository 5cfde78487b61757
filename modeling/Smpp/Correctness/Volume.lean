-- SUMMARY: The work and the communication volume of one player's tasks, in closed form.
import Smpp.Correctness.Players
import Smpp.Correctness.TaskWidth

/-!
# Work and communication

A player's work is that of the whole product, however it is sliced. What has to be
transferred grows with the number of strips: every tile needs its rows and columns
of the factors, and the strips of a factor are sent again for each tile.
-/

open Tiling

namespace Smpp.Mmsim

variable {problemSize sliceSize : ℕ} {userId : UInt8}

/-! ## One player -/

theorem sum_bits_playerTasks (hs : 0 < sliceSize) :
    ((playerTasks .unbounded problemSize sliceSize userId).map (·.bitsToTransfer)).sum =
      64 * problemSize ^ 2 * (2 * (problemSize ⌈/⌉ sliceSize) + 1) := by
  have harea : (grid (fun h h' => h * h') problemSize sliceSize).sum = problemSize ^ 2 := by
    have hsum := sum_grid_area (R := ℕ) (N := problemSize) hs 1
    simpa [sq] using hsum
  have hrows := sum_grid_side hs problemSize
  have hcolumns : (grid (fun _ h' => h') problemSize sliceSize).sum =
      problemSize * (problemSize ⌈/⌉ sliceSize) := by
    have hmul := sum_grid_mul (fun _ => 1) (fun h' => h') problemSize sliceSize
    simpa [sum_heights hs, card_heights, mul_comm] using hmul
  have hscale : ∀ (f : ℕ → ℕ → ℕ) (c : ℕ),
      (grid (fun h h' => c * f h h') problemSize sliceSize).sum =
        c * (grid f problemSize sliceSize).sum := by
    intro f c
    rw [← map_grid (c * ·) f, Multiset.sum_map_mul_left, Multiset.map_id']
  rw [← Multiset.sum_coe, ← Multiset.map_coe, coe_playerTasks hs, map_grid]
  simp only [bitsToTransfer_tile, Width.wrap, tileBits]
  rw [hscale, sum_grid_add, sum_grid_add, harea]
  simp only [mul_comm _ problemSize, hscale, hrows, hcolumns]
  ring

/-- A slice at least as large as the problem leaves one tile, the whole product. -/
theorem playerTasks_of_le (hN : 0 < problemSize) (hle : problemSize ≤ sliceSize) :
    playerTasks .unbounded problemSize sliceSize userId =
      [tile .unbounded problemSize userId problemSize problemSize] := by
  rcases hle.eq_or_lt with rfl | hlt
  · have hrest : Width.unbounded.mul (problemSize % problemSize) problemSize = 0 := by simp
    rw [playerTasks_of_eq_zero hrest, Nat.div_self hN]
    rfl
  · have hmod : problemSize % sliceSize = problemSize := Nat.mod_eq_of_lt hlt
    have hrest : Width.unbounded.mul (problemSize % sliceSize) sliceSize ≠ 0 := by
      rw [hmod]
      exact (Nat.mul_pos hN (hN.trans hlt)).ne'
    rw [playerTasks_of_ne_zero hrest, Nat.div_eq_of_lt hlt, hmod]
    rfl

theorem tile_whole (problemSize : ℕ) (userId : UInt8) :
    tile .unbounded problemSize userId problemSize problemSize =
      ⟨problemSize ^ 2 * (2 * problemSize - 1), 64 * (3 * problemSize ^ 2), userId⟩ := by
  apply SimpleTask.ext
  · rw [complexity_tile, sq]
  · rw [bitsToTransfer_tile, Width.wrap, tileBits]
    ring
  · rfl

/-! ## The tasks of a decomposition -/

/-- The work does not depend on the slice size. The transfers do, through the
    number of strips, and are fewest when the slice is the whole problem. -/
theorem createTasks_volume (problemSize sliceSize : ℕ) (hN : 1 ≤ problemSize)
    (hs : 1 ≤ sliceSize) :
    ∃ tasks, createTasks .unbounded problemSize [sliceSize] = some tasks ∧
      (tasks.map (·.complexity)).sum = (problemSize ^ 2 * (2 * problemSize - 1) : ℕ) ∧
      (tasks.map (·.bitsToTransfer)).sum =
        64 * problemSize ^ 2 * (2 * (problemSize ⌈/⌉ sliceSize) + 1) ∧
      (∀ larger, sliceSize ≤ larger → ∃ tasks',
        createTasks .unbounded problemSize [larger] = some tasks' ∧
        (tasks'.map (·.bitsToTransfer)).sum ≤ (tasks.map (·.bitsToTransfer)).sum) ∧
      (problemSize ≤ sliceSize →
        tasks = [⟨problemSize ^ 2 * (2 * problemSize - 1), 64 * (3 * problemSize ^ 2), 0⟩]) := by
  have hcreate : ∀ s, 1 ≤ s → createTasks .unbounded problemSize [s] =
      some (playerTasks .unbounded problemSize s 0) := by
    intro s hs
    rw [createTasks_unbounded problemSize (List.forall_mem_singleton.mpr hs), tasksFrom_singleton]
  refine ⟨_, hcreate sliceSize hs, ?_, sum_bits_playerTasks hs, fun larger hle => ?_, fun hle => ?_⟩
  · rw [sum_complexity_playerTasks hs, Nat.cast_mul, Nat.cast_pow, Nat.cast_sub (by omega)]
    push_cast
    ring
  · refine ⟨_, hcreate larger (hs.trans hle), ?_⟩
    rw [sum_bits_playerTasks hs, sum_bits_playerTasks (hs.trans hle)]
    have hstrips := ceilDiv_anti (N := problemSize) hs hle
    gcongr
  · rw [playerTasks_of_le hN hle, tile_whole]

theorem createTasks_volume_five_two :
    ∃ tasks, createTasks .unbounded 5 [2] = some tasks ∧
      (tasks.map (·.bitsToTransfer)).sum = 64 * 5 ^ 2 * (2 * (5 ⌈/⌉ 2) + 1) := by
  obtain ⟨tasks, htasks, -, hbits, -⟩ := createTasks_volume 5 2 (by decide) (by decide)
  exact ⟨tasks, htasks, hbits⟩

end Smpp.Mmsim
