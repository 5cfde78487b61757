-- SUMMARY: When task generation in 64-bit arithmetic agrees with exact arithmetic.
import Smpp.Correctness.Tiling

/-!
# Task generation at a width

Products of sizes wrap around at different sizes: the numbers of tasks, the area
of a tile that decides whether there are tasks for the remainder, and the number
of bits to transfer. The last one wraps first, so a tile is right exactly when
its bits are.
-/

namespace Smpp.Mmsim

variable {w : Width} {problemSize sliceSize : ℕ} {userId : UInt8}

/-! ## One tile -/

/-- The bits that the task of a tile has to transfer, in exact arithmetic. -/
def tileBits (problemSize h h' : ℕ) : ℕ :=
  64 * (h * problemSize + problemSize * h' + h * h')

theorem bitsToTransfer_tile (w : Width) (problemSize : ℕ) (userId : UInt8) (h h' : ℕ) :
    (tile w problemSize userId h h').bitsToTransfer = w.wrap (tileBits problemSize h h') := by
  simp only [tile, SimpleTask.create, calculateComplexity, Width.mul, Width.add,
    Width.wrap_add_wrap, Width.wrap_mul_wrap]
  rfl

theorem tileBits_mono {h h' k k' : ℕ} (hk : h ≤ k) (hk' : h' ≤ k') :
    tileBits problemSize h h' ≤ tileBits problemSize k k' := by
  unfold tileBits
  gcongr

theorem area_le_tileBits (h h' : ℕ) : h * h' ≤ tileBits problemSize h h' := by
  unfold tileBits
  omega

/-- A task is the exact one as soon as its bits are. -/
theorem tile_eq_iff {h h' : ℕ} :
    tile w problemSize userId h h' = tile .unbounded problemSize userId h h' ↔
      w.Fits (tileBits problemSize h h') := by
  have hbits := bitsToTransfer_tile w problemSize userId h h'
  constructor
  · intro heq
    rw [heq, bitsToTransfer_tile] at hbits
    exact (w.wrap_eq_self_iff _).mp hbits.symm
  · intro hfits
    have harea : w.mul h h' = h * h' := (hfits.mono (area_le_tileBits h h')).mul_eq
    rw [(w.wrap_eq_self_iff _).mpr hfits] at hbits
    refine SimpleTask.ext ?_ (hbits.trans (bitsToTransfer_tile .unbounded _ _ _ _).symm) rfl
    simp only [tile, SimpleTask.create, calculateComplexity, harea, Width.unbounded_mul]

/-! ## The tasks of a player -/

theorem length_playerTasks_eq (w : Width) (problemSize sliceSize : ℕ) (userId : UInt8) :
    (playerTasks w problemSize sliceSize userId).length =
      w.mul (problemSize / sliceSize) (problemSize / sliceSize) +
        if w.mul (problemSize % sliceSize) sliceSize ≠ 0 then
          w.mul 2 (problemSize / sliceSize) + 1
        else 0 := by
  by_cases h : w.mul (problemSize % sliceSize) sliceSize = 0
  · rw [playerTasks_of_eq_zero h, List.length_replicate, if_neg (not_not.mpr h), add_zero]
  · rw [playerTasks_of_ne_zero h, if_pos h]
    simp

/-- Where the bits of a full tile are exact, the test for a remainder is. -/
theorem mul_remainder_of_fits (hs : 0 < sliceSize)
    (hbits : w.Fits (tileBits problemSize sliceSize sliceSize)) :
    w.mul (problemSize % sliceSize) sliceSize = problemSize % sliceSize * sliceSize := by
  apply (hbits.mono _).mul_eq
  exact (area_le_tileBits _ _).trans (tileBits_mono (Nat.mod_lt problemSize hs).le le_rfl)

/-- A slice that fits in the problem: the tasks are the exact ones if and only if
    the number of full tiles and the bits of a full tile are. -/
theorem playerTasks_eq_iff_of_le (hs : 0 < sliceSize) (hle : sliceSize ≤ problemSize) :
    playerTasks w problemSize sliceSize userId =
        playerTasks .unbounded problemSize sliceSize userId ↔
      w.Fits (problemSize / sliceSize * (problemSize / sliceSize)) ∧
        w.Fits (tileBits problemSize sliceSize sliceSize) := by
  have hfull : 0 < problemSize / sliceSize := Nat.div_pos hle hs
  have hrest : problemSize % sliceSize ≤ sliceSize := (Nat.mod_lt problemSize hs).le
  constructor
  · intro heq
    -- no block is longer than the exact one, so equal lengths mean equal blocks
    have hcount : w.mul (problemSize / sliceSize) (problemSize / sliceSize) =
        problemSize / sliceSize * (problemSize / sliceSize) := by
      have hlength := congrArg List.length heq
      rw [length_playerTasks_eq, length_playerTasks_eq] at hlength
      have hle₁ : w.mul (problemSize / sliceSize) (problemSize / sliceSize) ≤ _ := w.wrap_le _
      have hle₂ : w.mul 2 (problemSize / sliceSize) ≤ _ := w.wrap_le _
      have hle₃ : w.mul (problemSize % sliceSize) sliceSize ≤ _ := w.wrap_le _
      split at hlength <;> split at hlength <;> simp only [Width.unbounded_mul] at * <;> omega
    -- and there is a full tile to compare
    have htile : tile w problemSize userId sliceSize sliceSize =
        tile .unbounded problemSize userId sliceSize sliceSize := by
      obtain ⟨n, hn⟩ := Nat.exists_eq_succ_of_ne_zero (mul_pos hfull hfull).ne'
      have hhead := congrArg List.head? heq
      rw [playerTasks, playerTasks, hcount, Width.unbounded_mul, hn, List.replicate_succ,
        List.replicate_succ] at hhead
      exact Option.some.inj hhead
    exact ⟨(w.wrap_eq_self_iff _).mp hcount, tile_eq_iff.mp htile⟩
  · rintro ⟨hcount, hbits⟩
    have hedge : w.Fits (2 * (problemSize / sliceSize)) := by
      refine hbits.mono ?_
      have hdiv : problemSize / sliceSize ≤ sliceSize * problemSize :=
        (Nat.div_le_self _ _).trans (Nat.le_mul_of_pos_left _ hs)
      unfold tileBits
      omega
    have harea : w.mul (problemSize % sliceSize) sliceSize =
        Width.unbounded.mul (problemSize % sliceSize) sliceSize := mul_remainder_of_fits hs hbits
    have hmul₁ : w.mul (problemSize / sliceSize) (problemSize / sliceSize) =
        Width.unbounded.mul (problemSize / sliceSize) (problemSize / sliceSize) := hcount.mul_eq
    have hmul₂ : w.mul 2 (problemSize / sliceSize) =
        Width.unbounded.mul 2 (problemSize / sliceSize) := hedge.mul_eq
    simp only [playerTasks, hmul₁, hmul₂, harea, tile_eq_iff.mpr hbits,
      tile_eq_iff.mpr (hbits.mono (tileBits_mono hrest le_rfl)),
      tile_eq_iff.mpr (hbits.mono (tileBits_mono hrest hrest))]

/-- A slice larger than the problem: there is a single tile, which exists if and
    only if the area in the test does not wrap around to 0. -/
theorem playerTasks_eq_iff_of_lt (hN : 0 < problemSize) (hlt : problemSize < sliceSize) :
    playerTasks w problemSize sliceSize userId =
        playerTasks .unbounded problemSize sliceSize userId ↔
      w.mul problemSize sliceSize ≠ 0 ∧ w.Fits (tileBits problemSize problemSize problemSize) := by
  have hsingle : ∀ v : Width, v.mul problemSize sliceSize ≠ 0 →
      playerTasks v problemSize sliceSize userId =
        [tile v problemSize userId problemSize problemSize] := by
    intro v hv
    have hv' : v.mul (problemSize % sliceSize) sliceSize ≠ 0 := by rwa [Nat.mod_eq_of_lt hlt]
    rw [playerTasks_of_ne_zero hv', Nat.div_eq_of_lt hlt, Nat.mod_eq_of_lt hlt]
    simp [Width.mul]
  have hexact := hsingle .unbounded (mul_ne_zero hN.ne' (hN.trans hlt).ne')
  by_cases harea : w.mul problemSize sliceSize = 0
  · have hnone : playerTasks w problemSize sliceSize userId = [] := by
      have harea' : w.mul (problemSize % sliceSize) sliceSize = 0 := by
        rwa [Nat.mod_eq_of_lt hlt]
      rw [playerTasks_of_eq_zero harea', Nat.div_eq_of_lt hlt]
      simp [Width.mul]
    rw [hnone, hexact]
    exact ⟨fun h => absurd h.symm (List.cons_ne_nil _ _), fun h => absurd harea h.1⟩
  · rw [hsingle w harea, hexact, List.singleton_inj, tile_eq_iff]
    exact (and_iff_right harea).symm

/-! ## 64 bits -/

/-- The test of `create_tasks`: does the complexity of a tile that is partial in
    one direction differ from 0? -/
def EmitsRemainder (w : Width) (problemSize sliceSize : ℕ) : Prop :=
  ∃ n p1 p2 p3, calculateComplexities w problemSize sliceSize = some (n, p1, p2, p3) ∧ p2.1 ≠ 0

theorem emitsRemainder_iff (hs : 0 < sliceSize) (hN : w.Fits problemSize) :
    EmitsRemainder w problemSize sliceSize ↔ w.mul (problemSize % sliceSize) sliceSize ≠ 0 := by
  unfold EmitsRemainder
  rw [calculateComplexities_eq hs hN]
  by_cases hrest : problemSize % sliceSize = 0
  · simp [hrest, Width.mul]
  · rw [if_neg hrest, ← complexity_ne_zero_iff (w := w) _ problemSize]
    constructor
    · rintro ⟨n, p1, p2, p3, heq, hne⟩
      cases heq
      exact hne
    · intro hne
      exact ⟨_, _, _, _, rfl, hne⟩

/-- 64-bit task generation gives the exact tasks, and takes the branch for the
    remainder exactly when there is one, if and only if: for a slice that fits
    in the problem, the number of full tiles and the bits of a full tile are
    below `2 ^ 64`; for a larger slice, the bits of the single tile are, and the
    area in the test is no multiple of `2 ^ 64`. -/
theorem createTasks_bits64_iff (problemSize sliceSize : ℕ) (hN : 1 ≤ problemSize)
    (hN64 : problemSize < 2 ^ 64) (hs : 1 ≤ sliceSize) :
    (createTasks (.bits 64) problemSize [sliceSize] =
          createTasks .unbounded problemSize [sliceSize] ∧
        (EmitsRemainder (.bits 64) problemSize sliceSize ↔ problemSize % sliceSize ≠ 0)) ↔
      (sliceSize ≤ problemSize → (problemSize / sliceSize) ^ 2 < 2 ^ 64 ∧
        64 * (2 * sliceSize * problemSize + sliceSize ^ 2) < 2 ^ 64) ∧
      (problemSize < sliceSize → problemSize * sliceSize % 2 ^ 64 ≠ 0 ∧
        192 * problemSize ^ 2 < 2 ^ 64) := by
  have hfits : (Width.bits 64).Fits problemSize := hN64
  have hslices : ∀ s ∈ [sliceSize], 0 < s := List.forall_mem_singleton.mpr hs
  rw [createTasks_eq hfits _ hslices, createTasks_unbounded _ hslices, tasksFrom_singleton,
    tasksFrom_singleton, Option.some_inj, emitsRemainder_iff hs hfits]
  rcases Nat.lt_or_ge problemSize sliceSize with hlt | hle
  · have hbits : tileBits problemSize problemSize problemSize = 192 * problemSize ^ 2 := by
      unfold tileBits
      ring
    rw [playerTasks_eq_iff_of_lt hN hlt, Nat.mod_eq_of_lt hlt, hbits]
    simp only [hlt, hlt.not_ge, false_imp_iff, true_and, true_imp_iff]
    apply and_iff_left_of_imp
    intro h
    exact iff_of_true h.1 (Nat.ne_of_gt hN)
  · have hbits : tileBits problemSize sliceSize sliceSize =
        64 * (2 * sliceSize * problemSize + sliceSize ^ 2) := by
      unfold tileBits
      ring
    rw [playerTasks_eq_iff_of_le hs hle, hbits, ← sq]
    simp only [hle, hle.not_gt, false_imp_iff, and_true, true_imp_iff]
    apply and_iff_left_of_imp
    intro h
    have hbits64 : (Width.bits 64).Fits (tileBits problemSize sliceSize sliceSize) := by
      rw [hbits]
      exact h.2
    rw [mul_remainder_of_fits hs hbits64, mul_ne_zero_iff]
    exact and_iff_left (Nat.ne_of_gt hs)

theorem createTasks_bits64_iff_five_two :
    createTasks (.bits 64) 5 [2] = createTasks .unbounded 5 [2] :=
  ((createTasks_bits64_iff 5 2 (by decide) (by decide) (by decide)).mpr (by decide)).1

/-- A problem of size 2 cut by a slice of `2 ^ 63` is one tile with 4 results. In
    64 bits the area `2 * 2 ^ 63` in the test wraps around to 0, so the tile gets
    no task. -/
theorem createTasks_bits64_drops_remainder :
    createTasks (.bits 64) 2 [2 ^ 63] = some [] ∧
      createTasks .unbounded 2 [2 ^ 63] = some [⟨12, 768, 0⟩] ∧
      ¬(EmitsRemainder (.bits 64) 2 (2 ^ 63) ↔ 2 % 2 ^ 63 ≠ 0) := by
  refine ⟨by decide +kernel, by decide +kernel, ?_⟩
  rw [emitsRemainder_iff (w := .bits 64) (by decide) (show 2 < 2 ^ 64 by decide)]
  decide

end Smpp.Mmsim
