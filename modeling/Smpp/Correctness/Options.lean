-- SUMMARY: What the options lead to: the comparison objects, and the slices a range expands to.
import Smpp.Model.Main
import Smpp.Tiling.Strips

/-!
# Options

The two priorities are checked and become comparison objects. A range of slices is
expanded by a loop whose counter is a `size_t`, and which leaves out the end of the
range.
-/

open Tiling

namespace Smpp.Main

/-! ## Priorities -/

theorem priorityComparator_min {α : Type} (optionName : String) (min max : Comparator α) :
    priorityComparator optionName min max "min" = .ok min := by
  have hlower : "min".toLower = "min" := by decide +kernel
  rw [priorityComparator, if_pos hlower]

/-- An error names the option that was checked. -/
theorem optionName_of_priorityComparator {α : Type} {optionName priority : String}
    {min max : Comparator α} {e : ValidationError}
    (h : priorityComparator optionName min max priority = .error e) :
    e.optionName = optionName := by
  unfold priorityComparator at h
  split at h
  · cases h
  · split at h
    · cases h
    · cases h
      rfl

/-- The default priorities pass their checks. -/
theorem run_default_priorities (w : Width) (fuel : ℕ) (outcomes : ℕ → ℕ → Outcome)
    (write : ℚ → String) {o : Options} (htask : o.taskPriority = "min")
    (hproc : o.procPriority = "min") :
    run w fuel outcomes write o =
      .ok (runAccepted w fuel outcomes write o SimpleTask.smallFirst Processor.slowFirst) := by
  rw [run, htask, hproc, taskComparator, procComparator, priorityComparator_min,
    priorityComparator_min]
  rfl

theorem main_default_priorities {w : Width} {maxSize : ℕ} {o : Options}
    (hreserve : reserveThrows w maxSize o.slices = false) (htask : o.taskPriority = "min")
    (hproc : o.procPriority = "min") {fuel : ℕ} {outcomes : ℕ → ℕ → Outcome} {write : ℚ → String} :
    main w maxSize fuel outcomes write o =
      .ok (runAccepted w fuel outcomes write o SimpleTask.smallFirst Processor.slowFirst) := by
  rw [main_eq_run hreserve, run_default_priorities _ _ _ _ htask hproc]
  rfl

/-- With the priorities in order what is thrown is about the number of slices. -/
theorem main_reserve_throws {w : Width} {maxSize : ℕ} {o : Options}
    {taskComp : Comparator SimpleTask} {procComp : Comparator Processor}
    (htask : taskComparator o.taskPriority = .ok taskComp)
    (hproc : procComparator o.procPriority = .ok procComp)
    (hreserve : reserveThrows w maxSize o.slices = true) {fuel : ℕ} {outcomes : ℕ → ℕ → Outcome}
    {write : ℚ → String} : main w maxSize fuel outcomes write o = .error .lengthError := by
  rw [main, htask, hproc, hreserve]
  rfl

/-! ## The slice loop -/

section SliceLoop

variable {w : Width} {sliceEnd sliceStep : ℕ}

theorem sliceLoop_mono {fuel fuel' : ℕ} (hle : fuel ≤ fuel') {i : ℕ} {slices result : List ℕ}
    (h : sliceLoop w sliceEnd sliceStep fuel i slices = some result) :
    sliceLoop w sliceEnd sliceStep fuel' i slices = some result := by
  induction fuel generalizing fuel' i slices with
  | zero => simp [sliceLoop] at h
  | succ fuel ih =>
    obtain ⟨fuel', rfl⟩ := Nat.exists_eq_add_of_le' ((Nat.succ_pos fuel).trans_le hle)
    unfold sliceLoop at h ⊢
    split
    · rename_i hmore
      rw [if_pos hmore] at h
      exact ih (Nat.le_of_succ_le_succ hle) h
    · rename_i hend
      rwa [if_neg hend] at h

/-- The loop only adds values below the end. -/
theorem sliceLoop_append {fuel i : ℕ} {slices result : List ℕ}
    (h : sliceLoop w sliceEnd sliceStep fuel i slices = some result) :
    ∃ rest, result = slices ++ rest ∧ ∀ x ∈ rest, x < sliceEnd := by
  induction fuel generalizing i slices with
  | zero => simp [sliceLoop] at h
  | succ fuel ih =>
    unfold sliceLoop at h
    split at h
    · rename_i hmore
      obtain ⟨rest, rfl, hrest⟩ := ih h
      refine ⟨i :: rest, List.append_assoc _ _ _, ?_⟩
      intro x hx
      rcases List.mem_cons.mp hx with rfl | hx
      · exact hmore
      · exact hrest x hx
    · cases h
      exact ⟨[], (List.append_nil _).symm, fun x hx => by cases hx⟩

/-- The first `k` rounds, as long as the counter stays below the end and does not
    wrap. -/
theorem sliceLoop_rounds (fuel : ℕ) {i k : ℕ} (slices : List ℕ)
    (hmore : ∀ j < k, i + j * sliceStep < sliceEnd) (hfits : w.Fits (i + k * sliceStep)) :
    sliceLoop w sliceEnd sliceStep (fuel + k) i slices =
      sliceLoop w sliceEnd sliceStep fuel (i + k * sliceStep)
        (slices ++ (List.range k).map (fun j => i + j * sliceStep)) := by
  induction k generalizing fuel with
  | zero => simp
  | succ k ih =>
    have hnext : i + k * sliceStep + sliceStep = i + (k + 1) * sliceStep := by
      rw [Nat.add_mul, one_mul, Nat.add_assoc]
    have hle : i + k * sliceStep ≤ i + (k + 1) * sliceStep := by
      rw [← hnext]
      exact Nat.le_add_right _ _
    have hadd : w.add (i + k * sliceStep) sliceStep = i + (k + 1) * sliceStep := by
      rw [Width.add, hnext]
      exact (w.wrap_eq_self_iff _).mpr hfits
    have hfuel : fuel + (k + 1) = fuel + 1 + k := by omega
    rw [hfuel, ih (fuel + 1) (fun j hj => hmore j (hj.trans (Nat.lt_succ_self k))) (hfits.mono hle),
      sliceLoop, if_pos (hmore k (Nat.lt_succ_self k)), hadd, List.range_succ, List.map_append,
      List.append_assoc]
    rfl

/-- The rounds before the counter reaches the end. -/
theorem lt_of_lt_ceilDiv {sliceStart : ℕ} (hstep : 0 < sliceStep) {j : ℕ}
    (hj : j < (sliceEnd - sliceStart) ⌈/⌉ sliceStep) : sliceStart + j * sliceStep < sliceEnd := by
  have hlt : ¬ sliceEnd - sliceStart ≤ sliceStep * j := by
    rw [← ceilDiv_le_iff_le_mul hstep]
    exact Nat.not_le.mpr hj
  rw [mul_comm] at hlt
  omega

/-- If the first value at or above the end is one of the type, the loop ends
    there. -/
theorem expandSlices_eq (w : Width) (sliceStart sliceEnd : ℕ) {sliceStep : ℕ}
    (hstep : 0 < sliceStep)
    (hfits : w.Fits (sliceStart + (sliceEnd - sliceStart) ⌈/⌉ sliceStep * sliceStep)) :
    expandSlices w ((sliceEnd - sliceStart) ⌈/⌉ sliceStep + 1) [sliceStart, sliceEnd, sliceStep] =
      some ((List.range ((sliceEnd - sliceStart) ⌈/⌉ sliceStep)).map
        (fun j => sliceStart + j * sliceStep)) := by
  have hcover := (ceilDiv_le_iff_le_mul (b := sliceEnd - sliceStart) hstep).mp le_rfl
  rw [mul_comm] at hcover
  have hend : ¬ sliceStart + (sliceEnd - sliceStart) ⌈/⌉ sliceStep * sliceStep < sliceEnd := by
    omega
  simp only [expandSlices, Width.div_of_pos _ _ hstep, Option.bind_eq_bind, Option.bind_some]
  rw [Nat.add_comm _ 1, sliceLoop_rounds 1 [] (fun j hj => lt_of_lt_ceilDiv hstep hj) hfits,
    sliceLoop, if_neg hend]
  rfl

end SliceLoop

/-! ## Ranges -/

/-- The range the three values name: all values from the start on, in steps and in
    increasing order, that are not above the end. -/
structure IsRange (sliceStart sliceEnd sliceStep : ℕ) (slices : List ℕ) : Prop where
  increasing : slices.Pairwise (· < ·)
  mem_iff : ∀ x, x ∈ slices ↔ ∃ k, x = sliceStart + k * sliceStep ∧ x ≤ sliceEnd

section Range

variable {sliceStart sliceEnd sliceStep : ℕ} {slices : List ℕ}

theorem isRange_map (hle : sliceStart ≤ sliceEnd) (hstep : 0 < sliceStep) :
    IsRange sliceStart sliceEnd sliceStep
      ((List.range ((sliceEnd - sliceStart) / sliceStep + 1)).map
        (fun j => sliceStart + j * sliceStep)) := by
  constructor
  · apply List.pairwise_map.mpr
    apply List.pairwise_lt_range.imp
    intro j k hjk
    have hmul : j * sliceStep < k * sliceStep := Nat.mul_lt_mul_of_pos_right hjk hstep
    omega
  · intro x
    have hle_iff : ∀ k, sliceStart + k * sliceStep ≤ sliceEnd ↔
        k < (sliceEnd - sliceStart) / sliceStep + 1 := by
      intro k
      rw [Nat.lt_succ_iff, Nat.le_div_iff_mul_le hstep]
      omega
    simp only [List.mem_map, List.mem_range]
    constructor
    · rintro ⟨k, hk, rfl⟩
      exact ⟨k, rfl, (hle_iff k).mpr hk⟩
    · rintro ⟨k, rfl, hx⟩
      exact ⟨k, (hle_iff k).mp hx, rfl⟩

/-- The end of the range is never expanded. -/
theorem lt_of_mem_expandSlices {w : Width} {fuel : ℕ}
    (h : expandSlices w fuel [sliceStart, sliceEnd, sliceStep] = some slices) :
    ∀ x ∈ slices, x < sliceEnd := by
  simp only [expandSlices, Option.bind_eq_bind, Option.bind_eq_some_iff] at h
  obtain ⟨_, -, hloop⟩ := h
  obtain ⟨rest, rfl, hrest⟩ := sliceLoop_append hloop
  exact hrest

/-- A loop whose counter wraps puts a smaller value behind the last one of the
    range. -/
theorem expandSlices_wrap {n fuel : ℕ} (hle : sliceStart ≤ sliceEnd) (hend : sliceEnd < 2 ^ n)
    (hstep : sliceStep < 2 ^ n) (hrest : (sliceEnd - sliceStart) % sliceStep ≠ 0)
    (hwrap : 2 ^ n ≤ sliceStart + ((sliceEnd - sliceStart) / sliceStep + 1) * sliceStep)
    (h : expandSlices (.bits n) fuel [sliceStart, sliceEnd, sliceStep] = some slices) :
    ∃ before last back rest, slices = before ++ [last] ++ [back] ++ rest ∧ back < last := by
  simp only [expandSlices, Option.bind_eq_bind, Option.bind_eq_some_iff] at h
  obtain ⟨_, -, hloop⟩ := h
  let q := (sliceEnd - sliceStart) / sliceStep
  let last := sliceStart + q * sliceStep
  have hdiv := Nat.div_add_mod (sliceEnd - sliceStart) sliceStep
  have hmul : sliceStep * ((sliceEnd - sliceStart) / sliceStep) = q * sliceStep := mul_comm _ _
  rw [hmul] at hdiv
  have hlast : last < sliceEnd := by omega
  have hmore : ∀ j < q, sliceStart + j * sliceStep < sliceEnd := by
    intro j hj
    have hjq : j * sliceStep ≤ q * sliceStep := Nat.mul_le_mul_right _ hj.le
    omega
  have hsum : sliceStart + (q + 1) * sliceStep = last + sliceStep := by
    rw [Nat.add_mul, one_mul, ← Nat.add_assoc]
  rw [hsum] at hwrap
  have hnext : (Width.bits n).add last sliceStep = last + sliceStep - 2 ^ n := by
    rw [Width.add, Width.wrap, Nat.mod_eq_sub_mod hwrap, Nat.mod_eq_of_lt]
    omega
  have hback : last + sliceStep - 2 ^ n < last := by omega
  have hfits : (Width.bits n).Fits last := hlast.trans hend
  have hrounds : sliceLoop (.bits n) sliceEnd sliceStep (fuel + 2 + q) sliceStart [] =
      sliceLoop (.bits n) sliceEnd sliceStep (fuel + 2) last
        ((List.range q).map (fun j => sliceStart + j * sliceStep)) :=
    sliceLoop_rounds (fuel + 2) [] hmore hfits
  -- the two rounds that add `last` and the value it wraps to
  have hmono := sliceLoop_mono (Nat.le_add_right fuel (2 + q)) hloop
  rw [← Nat.add_assoc, hrounds, sliceLoop, if_pos hlast, hnext, sliceLoop,
    if_pos (hback.trans hlast)] at hmono
  obtain ⟨rest, hslices, -⟩ := sliceLoop_append hmono
  exact ⟨_, last, _, rest, hslices, hback⟩

/-- So the expansion is not increasing any more. -/
theorem not_increasing_of_wrap {n fuel : ℕ} (hle : sliceStart ≤ sliceEnd)
    (hend : sliceEnd < 2 ^ n) (hstep : sliceStep < 2 ^ n)
    (hrest : (sliceEnd - sliceStart) % sliceStep ≠ 0)
    (hwrap : 2 ^ n ≤ sliceStart + ((sliceEnd - sliceStart) / sliceStep + 1) * sliceStep)
    (h : expandSlices (.bits n) fuel [sliceStart, sliceEnd, sliceStep] = some slices) :
    ¬ slices.Pairwise (· < ·) := by
  obtain ⟨before, last, back, rest, rfl, hback⟩ := expandSlices_wrap hle hend hstep hrest hwrap h
  intro hincreasing
  have hpair := (List.pairwise_append.mp (List.pairwise_append.mp hincreasing).1).2.2 last
    (List.mem_append_right _ (List.mem_singleton_self last)) back (List.mem_singleton_self back)
  exact absurd hpair hback.asymm

/-- A range is expanded as its three values say exactly when the steps from the
    start miss the end, and the first value above the end does not wrap. -/
theorem expandSlices_isRange_iff (sliceStart sliceEnd sliceStep : ℕ) (hle : sliceStart ≤ sliceEnd)
    (hend : sliceEnd < 2 ^ 64) (hstep : 1 ≤ sliceStep) (hstep' : sliceStep < 2 ^ 64) :
    (∃ fuel slices, expandSlices (.bits 64) fuel [sliceStart, sliceEnd, sliceStep] = some slices ∧
        IsRange sliceStart sliceEnd sliceStep slices) ↔
      (sliceEnd - sliceStart) % sliceStep ≠ 0 ∧
        sliceStart + ((sliceEnd - sliceStart) / sliceStep + 1) * sliceStep < 2 ^ 64 := by
  constructor
  · rintro ⟨fuel, slices, hexpand, hrange⟩
    have hrest : (sliceEnd - sliceStart) % sliceStep ≠ 0 := by
      intro h0
      have hdiv := Nat.div_mul_cancel (Nat.dvd_of_mod_eq_zero h0)
      have hmem := (hrange.mem_iff sliceEnd).mpr
        ⟨(sliceEnd - sliceStart) / sliceStep, by omega, le_rfl⟩
      exact absurd (lt_of_mem_expandSlices hexpand sliceEnd hmem) (lt_irrefl _)
    refine ⟨hrest, ?_⟩
    by_contra hwrap
    exact not_increasing_of_wrap hle hend hstep' hrest (Nat.not_lt.mp hwrap) hexpand
      hrange.increasing
  · rintro ⟨hrest, hfits⟩
    have hrounds : (sliceEnd - sliceStart) ⌈/⌉ sliceStep =
        (sliceEnd - sliceStart) / sliceStep + 1 := by
      rw [ceilDiv_eq hstep, if_neg hrest]
    have hexpand := expandSlices_eq (.bits 64) sliceStart sliceEnd hstep
      (by rw [hrounds]; exact hfits)
    rw [hrounds] at hexpand
    exact ⟨_, _, hexpand, isRange_map hle hstep⟩

theorem expandSlices_isRange_iff_one_four_two :
    ∃ fuel slices, expandSlices (.bits 64) fuel [1, 4, 2] = some slices ∧ IsRange 1 4 2 slices :=
  (expandSlices_isRange_iff 1 4 2 (by decide) (by decide) (by decide) (by decide)).mpr (by decide)

/-- From 1 to 3 in steps of 1 is 1, 2 and 3, but 3 is left out. -/
theorem expandSlices_drops_maximum :
    expandSlices (.bits 64) 3 [1, 3, 1] = some [1, 2] ∧
      ¬ ∃ fuel slices, expandSlices (.bits 64) fuel [1, 3, 1] = some slices ∧
        IsRange 1 3 1 slices := by
  constructor
  · decide
  · rintro ⟨fuel, slices, hexpand, hrange⟩
    have hmem := (hrange.mem_iff 3).mpr ⟨2, rfl, le_rfl⟩
    exact absurd (lt_of_mem_expandSlices hexpand 3 hmem) (lt_irrefl _)

end Range

end Smpp.Main
