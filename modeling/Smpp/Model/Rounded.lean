-- SUMMARY: The task processor and `simulate` in the arithmetic of `double`, where every operation rounds.
import Smpp.Base.Rounding
import Smpp.Model.Simulate

/-!
# Rounded arithmetic

The other modules compute with exact times. The program computes with `double`, which
rounds the result of each operation. Here the rounding function is a parameter. The loops
and `simulate` are the same, at another `Timing`.
-/

namespace Smpp.Rounded

variable {u : ℚ} (fl : Rounding ℚ u) (std : StdAlgorithms) (tp : TaskProcessorWithTransfer)

/-- `complexity / mips`. -/
def timeToComplete (proc : Processor) (complexity : ℚ) : ℚ := fl.round (complexity / proc.mips)

/-- `bits_to_transfer / bandwidth + connection_setup`. The bits are an integer and are
    converted first. -/
def transferTime (bitsToTransfer : ℕ) : ℚ :=
  fl.round (fl.round (fl.round bitsToTransfer / tp.bandwidth) + tp.connectionSetup)

/-- The local `time_to_process` of both loops. -/
def timeToProcess (proc : Processor) (task : SimpleTask) : ℚ :=
  fl.round (timeToComplete fl proc task.complexity + transferTime fl tp task.bitsToTransfer)

/-- The ends of tasks are rounded too. -/
def timing : Timing where
  timeToProcess := timeToProcess fl tp
  timeEnd timeStart time := fl.round (timeStart + time)

/-- `simulate`. Sorting compares and the reverse scan copies, so neither rounds. -/
def simulate (g : Shuffle) (procs : List Processor) (procComp : Comparator Processor)
    (tasks : List SimpleTask) (taskComp : Comparator SimpleTask) (nUserHint : UInt8)
    (shuffle : Bool := true) (returnProcessed : Bool := false) : Option SimulateResult :=
  simulateWith ((timing fl tp).run std) std g procs procComp tasks taskComp nUserHint shuffle
    returnProcessed

/-- With the identity as the rounding function this is `simulate` in exact arithmetic. -/
theorem simulate_exact (g : Shuffle) (procs : List Processor) (procComp : Comparator Processor)
    (tasks : List SimpleTask) (taskComp : Comparator SimpleTask) (nUserHint : UInt8)
    (shuffle returnProcessed : Bool) :
    simulate (.exact ℚ) std tp g procs procComp tasks taskComp nUserHint shuffle returnProcessed =
      Smpp.simulate std g procs procComp tasks taskComp tp nUserHint shuffle returnProcessed :=
  rfl

end Smpp.Rounded
