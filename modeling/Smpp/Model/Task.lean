-- SUMMARY: Tasks, processors and completions: the records of the simulator and the orders on them.
import Mathlib.Algebra.Order.Field.Rat
import Smpp.Base.Comparator
import Smpp.Base.Width

/-!
# Records

The `double`s of the source (complexities, rates and times) are exact rationals
here. A `size_t` is a natural number together with the `Width` the computation
runs at, and the 8-bit `userid_type` is `UInt8`.
-/

namespace Smpp

/-! ## Tasks -/

@[ext]
structure SimpleTask where
  complexity : ℚ
  bitsToTransfer : ℕ := 0
  userid : UInt8 := 0
  deriving DecidableEq, Repr

namespace SimpleTask

/-- `sizeof(double)`. -/
def sizeofDouble : ℕ := 8

def create (w : Width) (complexity : ℚ) (nNumbers : ℕ) (userid : UInt8) : SimpleTask :=
  ⟨complexity, w.mul (w.mul 8 sizeofDouble) nNumbers, userid⟩

def smallFirst : Comparator SimpleTask := .less complexity

def largeFirst : Comparator SimpleTask := .greater complexity

end SimpleTask

/-! ## Processors -/

structure Processor where
  mips : ℚ
  deriving DecidableEq, Repr

namespace Processor

def timeToComplete (p : Processor) (complexity : ℚ) : ℚ := complexity / p.mips

def slowFirst : Comparator Processor := .less mips

def fastFirst : Comparator Processor := .greater mips

end Processor

/-! ## Completions -/

/-- `task_completition<Task>`: a task that some worker runs from `timeStart` to
    `timeEnd`. -/
structure TaskCompletition (Task : Type) where
  timeStart : ℚ
  timeEnd : ℚ
  workerIndex : ℕ
  task : Task
  deriving DecidableEq, Repr

/-- A heap ordered by `laterFirst` has the earliest end at its root. -/
def TaskCompletition.laterFirst {Task : Type} : Comparator (TaskCompletition Task) :=
  .greater timeEnd

/-- A `SimpleTask*` into the task vector, as the offset from `tasks.begin()`. -/
abbrev TaskPtr := ℕ

end Smpp
