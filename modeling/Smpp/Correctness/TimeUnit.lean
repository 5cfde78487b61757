-- SUMMARY: A run measured in another unit of time is the same run with all its times converted.
import Mathlib.Algebra.Order.Field.Basic
import Smpp.Correctness.Lockstep
import Smpp.Correctness.Schedule

/-!
# The unit of time

In a unit of time `c` times as long as before, all rates are `c` times as high and
the set-up time is divided by `c`. Every duration is then divided by `c` as a whole, so
the queue sees the ends in the same order, ties included, and the two runs go in
lockstep.
-/

namespace Smpp

open TaskProcessorWithTransfer

/-! ## Conversion -/

/-- The same processor in a unit of time `c` times as long. -/
def Processor.rescale (c : ℚ) (p : Processor) : Processor := ⟨c * p.mips⟩

def TaskProcessorWithTransfer.rescale (c : ℚ) (tp : TaskProcessorWithTransfer) :
    TaskProcessorWithTransfer :=
  ⟨c * tp.bandwidth, tp.connectionSetup / c⟩

/-- The same task on the same worker, at converted times. -/
def TaskCompletition.rescale {Task : Type} (c : ℚ) (tk : TaskCompletition Task) :
    TaskCompletition Task :=
  { tk with timeStart := tk.timeStart / c, timeEnd := tk.timeEnd / c }

def LoopState.rescale (c : ℚ) (st : LoopState) : LoopState :=
  { st with
    pQueue := st.pQueue.map (TaskCompletition.rescale c)
    processedTasks := st.processedTasks.map (TaskCompletition.rescale c) }

theorem timeToProcess_rescale (c : ℚ) (tp : TaskProcessorWithTransfer) (proc : Processor)
    (task : SimpleTask) :
    (tp.rescale c).timeToProcess (proc.rescale c) task = tp.timeToProcess proc task / c := by
  simp only [timeToProcess, transferTime, Processor.timeToComplete, Processor.rescale,
    TaskProcessorWithTransfer.rescale, div_mul_eq_div_div_swap]
  rw [add_div, add_div]

theorem laterFirst_rescale {c : ℚ} (hc : 0 < c) (a b : TaskCompletition TaskPtr) :
    TaskCompletition.laterFirst (a.rescale c) (b.rescale c) = TaskCompletition.laterFirst a b := by
  simp only [TaskCompletition.laterFirst, Comparator.greater, TaskCompletition.rescale, gt_iff_lt,
    div_lt_div_iff_of_pos_right hc]

/-! ## Two runs -/

theorem lockstep_rescale {std : StdAlgorithms} (hstd : std.ComparisonBased)
    (tp : TaskProcessorWithTransfer) {c : ℚ} (hc : 0 < c) :
    Lockstep std tp std (tp.rescale c) id (Processor.rescale c) (TaskCompletition.rescale c)
      (LoopState.rescale c) where
  locals st := by simp [LoopState.rescale]
  pushHeap := hstd.pushHeap_map (laterFirst_rescale hc)
  popHeap := hstd.popHeap_map (laterFirst_rescale hc)
  workerIndex _ := rfl
  first proc task i k := by
    simp only [TaskCompletition.rescale, id_eq, timeToProcess_rescale, zero_div]
  next tk proc task k := by
    simp only [TaskCompletition.rescale, id_eq, timeToProcess_rescale, add_div]

/-- With all rates `c` times as high and the set-up time divided by `c`, a call
    returns the same tasks on the same workers in the same order, with every time
    divided by `c`. -/
theorem call_rescale (std : StdAlgorithms) (hstd : std.ComparisonBased)
    (tp : TaskProcessorWithTransfer) (procs : List Processor) (tasks : List SimpleTask) (c : ℚ)
    (hc : 0 < c) :
    ∃ out, call std tp procs tasks = some out ∧
      call std (tp.rescale c) (procs.map (Processor.rescale c)) tasks =
        some (out.map (TaskCompletition.rescale c)) := by
  obtain ⟨out, hout⟩ := exists_call std tp procs tasks
  have hcall := (lockstep_rescale hstd tp hc).call procs tasks
  rw [List.map_id, hout] at hcall
  exact ⟨out, hout, hcall⟩

theorem call_rescale_halved :
    ∃ out, call .reference ⟨4, 1⟩ [⟨2⟩, ⟨1⟩] [⟨4, 8, 0⟩, ⟨2, 4, 1⟩, ⟨2, 0, 0⟩] = some out ∧
      call .reference ⟨2, 2⟩ [⟨1⟩, ⟨1 / 2⟩] [⟨4, 8, 0⟩, ⟨2, 4, 1⟩, ⟨2, 0, 0⟩] =
        some (out.map (TaskCompletition.rescale (1 / 2))) := by
  obtain ⟨out, hout, hcall⟩ := call_rescale .reference StdAlgorithms.reference_comparisonBased
    ⟨4, 1⟩ [⟨2⟩, ⟨1⟩] [⟨4, 8, 0⟩, ⟨2, 4, 1⟩, ⟨2, 0, 0⟩] (1 / 2) (by decide +kernel)
  have htp : TaskProcessorWithTransfer.rescale (1 / 2) ⟨4, 1⟩ = ⟨2, 2⟩ := by
    norm_num [TaskProcessorWithTransfer.rescale]
  have hprocs : [⟨2⟩, ⟨1⟩].map (Processor.rescale (1 / 2)) = [⟨1⟩, ⟨1 / 2⟩] := by
    norm_num [Processor.rescale]
  rw [htp, hprocs] at hcall
  exact ⟨out, hout, hcall⟩

end Smpp
