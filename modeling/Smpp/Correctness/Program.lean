-- SUMMARY: Options under which the whole program is defined and simulates non-negative durations.
import Smpp.Correctness.Definedness

/-!
# The whole program

Of its options the program checks the two priorities only. `ValidOptions` is what it
relies on besides: nothing it divides by is zero, no range it writes is empty, and
all times run forward.
-/

open Tiling

namespace Smpp.Main

open TaskProcessorWithTransfer

/-! ## Options the program relies on -/

/-- Three values are a range that holds something and that the counter can pass the
    end of; any other number of values is the slices themselves. No slice is zero. -/
def ValidSlices : List ℕ → Prop
  | [sliceStart, sliceEnd, sliceStep] =>
    1 ≤ sliceStart ∧ sliceStart < sliceEnd ∧ 1 ≤ sliceStep ∧
      sliceStart + (sliceEnd - sliceStart) ⌈/⌉ sliceStep * sliceStep < 2 ^ 64
  | slicesArr => slicesArr ≠ [] ∧ ∀ s ∈ slicesArr, 1 ≤ s

structure ValidOptions (o : Options) : Prop where
  problemSize : o.problemSize < 2 ^ 64
  mips : o.mips ≠ []
  rates : ∀ val ∈ o.mips, 0 < o.nominalMips * val
  bandwidth : 0 < o.bandwidth
  ping : 0 ≤ o.ping
  slices : ValidSlices o.slices

theorem ValidSlices.expandSlices {slicesArr : List ℕ} (h : ValidSlices slicesArr) :
    ∃ fuel slices, expandSlices (.bits 64) fuel slicesArr = some slices ∧ slices ≠ [] ∧
      ∀ s ∈ slices, 1 ≤ s := by
  unfold ValidSlices at h
  split at h
  · rename_i sliceStart sliceEnd sliceStep
    obtain ⟨hstart, hlt, hstep, hfits⟩ := h
    have hrounds : 0 < (sliceEnd - sliceStart) ⌈/⌉ sliceStep :=
      ceilDiv_pos hstep (Nat.sub_pos_of_lt hlt)
    refine ⟨_, _, expandSlices_eq _ _ _ hstep hfits, ?_, ?_⟩
    · simpa using hrounds.ne'
    · intro s hs
      obtain ⟨j, -, rfl⟩ := List.mem_map.mp hs
      exact hstart.trans (Nat.le_add_right _ _)
  · rename_i hshape
    refine ⟨0, slicesArr, ?_, h⟩
    unfold Main.expandSlices
    split
    · exact absurd rfl (hshape _ _ _)
    · rfl

/-- A valid range does not wrap around: the program asks for as much as it means to. -/
theorem ValidSlices.reserveThrows_eq_false {slicesArr : List ℕ} (h : ValidSlices slicesArr)
    {maxSize : ℕ}
    (hmax : ∀ sliceStart sliceEnd sliceStep, slicesArr = [sliceStart, sliceEnd, sliceStep] →
      (sliceEnd - sliceStart + 1) / sliceStep ≤ maxSize) :
    reserveThrows (.bits 64) maxSize slicesArr = false := by
  unfold ValidSlices at h
  split at h
  · rename_i sliceStart sliceEnd sliceStep
    obtain ⟨hstart, hlt, hstep, hfits⟩ := h
    have hcover := (ceilDiv_le_iff_le_mul (b := sliceEnd - sliceStart) hstep).mp le_rfl
    rw [mul_comm] at hcover
    have hend : sliceEnd < 2 ^ 64 := by omega
    have hcapacity : (Width.bits 64).add ((Width.bits 64).sub sliceEnd sliceStart) 1 =
        sliceEnd - sliceStart + 1 := by
      rw [Width.sub_of_le _ hlt.le (show (Width.bits 64).Fits sliceEnd from hend), Width.add]
      exact (Width.wrap_eq_self_iff _ _).mpr (show sliceEnd - sliceStart + 1 < 2 ^ 64 by omega)
    rw [reserveThrows, hcapacity, Width.div_of_pos _ _ hstep]
    exact decide_eq_false (Nat.not_lt.mpr (hmax _ _ _ rfl))
  · rename_i hshape
    unfold reserveThrows
    split
    · exact absurd rfl (hshape _ _ _)
    · rfl

theorem ValidOptions.processors_pos {o : Options} (h : ValidOptions o) :
    ∀ p ∈ processors o.nominalMips o.mips, 0 < p.mips := by
  intro p hp
  obtain ⟨val, hval, rfl⟩ := List.mem_map.mp hp
  exact h.rates val hval

/-! ## The run -/

section ValidOptions

variable {o : Options}

theorem ValidOptions.exists_report (h : ValidOptions o) (taskComp : Comparator SimpleTask)
    (procComp : Comparator Processor) :
    ∃ fuel, ∀ outcomes write, ∃ report,
      runAccepted (.bits 64) fuel outcomes write o taskComp procComp = some report := by
  obtain ⟨fuel, slices, hexpand, hne, hpos⟩ := h.slices.expandSlices
  refine ⟨fuel, fun outcomes write => ?_⟩
  have hN : (Width.bits 64).Fits o.problemSize := h.problemSize
  rw [exists_runAccepted_iff hN]
  exact ⟨h.mips, slices, hexpand, hne, hpos⟩

/-- Whatever `create_tasks` makes of the problem, its tasks take non-negative time
    on all processors. -/
theorem ValidOptions.timeToProcess_nonneg (h : ValidOptions o) {sliceSizes : List ℕ}
    {tasks : List SimpleTask}
    (htasks : Mmsim.createTasks (.bits 64) o.problemSize sliceSizes = some tasks) :
    ∀ t ∈ tasks, ∀ p ∈ processors o.nominalMips o.mips,
      0 ≤ timeToProcess ⟨o.bandwidth, o.ping⟩ p t := by
  intro t ht p hp
  rw [Mmsim.createTasks_eq (w := .bits 64) h.problemSize sliceSizes
    (Mmsim.pos_of_createTasks htasks)] at htasks
  cases htasks
  exact Smpp.timeToProcess_nonneg (h.processors_pos p hp)
    (Mmsim.complexity_nonneg_of_mem_tasksFrom ht) h.bandwidth h.ping

end ValidOptions

/-- With valid options, known priorities and no more slices than a vector may hold the
    program runs to its end: it throws nothing, never divides by zero and writes no
    empty range. All durations it simulates are non-negative. -/
theorem main_defined (maxSize : ℕ) (o : Options) (taskComp : Comparator SimpleTask)
    (procComp : Comparator Processor) (htask : taskComparator o.taskPriority = .ok taskComp)
    (hproc : procComparator o.procPriority = .ok procComp) (hvalid : ValidOptions o)
    (hmax : ∀ sliceStart sliceEnd sliceStep, o.slices = [sliceStart, sliceEnd, sliceStep] →
      (sliceEnd - sliceStart + 1) / sliceStep ≤ maxSize) :
    (∃ fuel, ∀ outcomes write, ∃ report,
        main (.bits 64) maxSize fuel outcomes write o = .ok (some report)) ∧
      (∀ p ∈ processors o.nominalMips o.mips, p.mips ≠ 0) ∧ o.bandwidth ≠ 0 ∧
      ∀ sliceSizes tasks, Mmsim.createTasks (.bits 64) o.problemSize sliceSizes = some tasks →
        ∀ t ∈ tasks, ∀ p ∈ processors o.nominalMips o.mips,
          0 ≤ timeToProcess ⟨o.bandwidth, o.ping⟩ p t := by
  refine ⟨?_, fun p hp => (hvalid.processors_pos p hp).ne', hvalid.bandwidth.ne',
    fun _ _ htasks => hvalid.timeToProcess_nonneg htasks⟩
  obtain ⟨fuel, hreport⟩ := hvalid.exists_report taskComp procComp
  refine ⟨fuel, fun outcomes write => ?_⟩
  obtain ⟨report, hrun⟩ := hreport outcomes write
  refine ⟨report, ?_⟩
  rw [main_eq_run (hvalid.slices.reserveThrows_eq_false hmax), run, htask, hproc, ← hrun]
  rfl

theorem main_defined_five :
    ∃ fuel, ∀ outcomes write, ∃ report, main (.bits 64) (2 ^ 60 - 1) fuel outcomes write
      { problemSize := 5, mips := [1, 2], slices := [1, 4, 2] } = .ok (some report) := by
  refine (main_defined (2 ^ 60 - 1) { problemSize := 5, mips := [1, 2], slices := [1, 4, 2] }
    SimpleTask.smallFirst Processor.slowFirst (priorityComparator_min _ _ _)
    (priorityComparator_min _ _ _) ⟨by decide, by decide, by decide +kernel, by decide +kernel,
      by decide +kernel, ?_⟩ ?_).1
  · unfold ValidSlices
    decide
  · rintro _ _ _ ⟨⟩
    decide

/-- Options the program accepts and that are not valid: a slice of size zero, a step
    of zero and a range without values end in undefined behaviour, reserving room for a
    range that goes down throws, and with a negative ping, rate or bandwidth tasks take
    negative time. -/
theorem accepted_options_undefined :
    (∀ maxSize fuel outcomes write, main (.bits 64) maxSize fuel outcomes write
      { problemSize := 4, mips := [1], slices := [0] } = .ok none) ∧
    (∀ maxSize fuel outcomes write, main (.bits 64) maxSize fuel outcomes write
      { problemSize := 4, mips := [1], slices := [1, 4, 0] } = .ok none) ∧
    (∀ maxSize fuel outcomes write, main (.bits 64) maxSize fuel outcomes write
      { problemSize := 4, mips := [1], slices := [2, 1, 1] } = .ok none) ∧
    (∀ maxSize < 2 ^ 61, ∀ fuel outcomes write, main (.bits 64) maxSize fuel outcomes write
      { problemSize := 4, mips := [1], slices := [5, 1, 1] } = .error .lengthError) ∧
    ∀ o ∈ [({ problemSize := 4, mips := [1], slices := [4], ping := -1 } : Options),
        { problemSize := 4, nominalMips := 1, mips := [-1], slices := [4] },
        { problemSize := 4, mips := [1], slices := [4], bandwidth := -1 }],
      taskComparator o.taskPriority = .ok SimpleTask.smallFirst ∧
      procComparator o.procPriority = .ok Processor.slowFirst ∧
      ∃ tasks, Mmsim.createTasks (.bits 64) o.problemSize [4, 4] = some tasks ∧
        ∃ t ∈ tasks, ∃ p ∈ processors o.nominalMips o.mips,
          timeToProcess ⟨o.bandwidth, o.ping⟩ p t < 0 := by
  have htask : taskComparator "min" = .ok SimpleTask.smallFirst := priorityComparator_min _ _ _
  have hproc : procComparator "min" = .ok Processor.slowFirst := priorityComparator_min _ _ _
  refine ⟨fun maxSize fuel outcomes write => ?_, fun maxSize fuel outcomes write => ?_,
    fun maxSize fuel outcomes write => ?_, fun maxSize hmax fuel outcomes write => ?_,
    fun o ho => ?_⟩
  · have hcreate : Mmsim.createTasks (.bits 64) 4 [0, 0] = none := by decide +kernel
    rw [main_default_priorities rfl rfl rfl]
    simp [runAccepted, expandSlices, writeToStream, twoPlayersRow, hcreate]
  · rw [main_default_priorities rfl rfl rfl]
    simp [runAccepted, expandSlices, Width.div]
  · rw [main_default_priorities rfl rfl rfl]
    cases fuel with
    | zero => simp [runAccepted, expandSlices, sliceLoop]
    | succ fuel => simp [runAccepted, expandSlices, sliceLoop, writeToStream]
  · have hthrows : reserveThrows (.bits 64) maxSize [5, 1, 1] = true := by
      have hcapacity : (Width.bits 64).div
          ((Width.bits 64).add ((Width.bits 64).sub 1 5) 1) 1 = some (2 ^ 64 - 3) := by decide
      rw [reserveThrows, hcapacity]
      exact decide_eq_true (hmax.trans (by decide))
    exact main_reserve_throws htask hproc hthrows
  · have htasks : Mmsim.createTasks (.bits 64) 4 [4, 4] =
        some [⟨112, 3072, 0⟩, ⟨112, 3072, 1⟩] := by decide +kernel
    simp only [List.mem_cons, List.not_mem_nil, or_false] at ho
    rcases ho with rfl | rfl | rfl
    · exact ⟨htask, hproc, _, htasks, by decide +kernel⟩
    · exact ⟨htask, hproc, _, htasks, by decide +kernel⟩
    · exact ⟨htask, hproc, _, htasks, by decide +kernel⟩

end Smpp.Main
