-- SUMMARY: The program: from parsed options to the rows of times it writes.
import Smpp.Model.Mmsim
import Smpp.Model.Simulate

/-!
# The program

`main` turns its options into processors, comparison objects and slice sizes, and
writes a row of times for every slice size, or for every pair of them. The model
starts behind the parser of the options. As in the other modules `none` stands for
undefined behaviour and for a loop that has used up its fuel.
-/

namespace Smpp.Main

/-! ## Options -/

/-- The parsed options, with the defaults of the parser. -/
structure Options where
  problemSize : ℕ
  nominalMips : ℚ := 10 ^ 10
  mips : List ℚ
  taskPriority : String := "min"
  procPriority : String := "min"
  bandwidth : ℚ := 8 * 10 ^ 8
  ping : ℚ := 1 / 10 ^ 5
  slices : List ℕ
  fixFirst : ℕ := 0
  randomizeCount : ℕ := 1
  singlePlayer : Bool := false
  simLog : Bool := false

/-- `po::validation_error`, which is only ever thrown for an `invalid_option_value`. -/
structure ValidationError where
  optionName : String
  deriving DecidableEq, Repr

/-- Both priorities are given by the same two words, in upper or lower case. -/
def priorityComparator {α : Type} (optionName : String) (min max : Comparator α)
    (priority : String) : Except ValidationError (Comparator α) :=
  if priority.toLower = "min" then .ok min
  else if priority.toLower = "max" then .ok max
  else .error ⟨optionName⟩

def taskComparator (taskPriority : String) : Except ValidationError (Comparator SimpleTask) :=
  priorityComparator "task_priority" SimpleTask.smallFirst SimpleTask.largeFirst taskPriority

def procComparator (procPriority : String) : Except ValidationError (Comparator Processor) :=
  priorityComparator "proc_priority" Processor.slowFirst Processor.fastFirst procPriority

/-- `procs`, from the multiples of the nominal rate. -/
def processors (nominalMips : ℚ) (mips : List ℚ) : List Processor :=
  mips.map fun val => ⟨nominalMips * val⟩

/-! ## Slices -/

/-- `for (size_t i = slice_start; i < slice_end; i += slice_step) slices.push_back(i)`,
    from the counter `i` on. -/
def sliceLoop (w : Width) (sliceEnd sliceStep : ℕ) : ℕ → ℕ → List ℕ → Option (List ℕ)
  | 0, _, _ => none
  | fuel + 1, i, slices =>
    if i < sliceEnd then
      sliceLoop w sliceEnd sliceStep fuel (w.add i sliceStep) (slices ++ [i])
    else some slices

/-- Three values are a range, any other number of values is the list itself. What
    is computed to reserve capacity is not used, but it divides by the step. This is the
    expansion for when `reserve` does not throw, see `reserveThrows`. -/
def expandSlices (w : Width) (fuel : ℕ) : List ℕ → Option (List ℕ)
  | [sliceStart, sliceEnd, sliceStep] => do
    let _capacity ← w.div (w.add (w.sub sliceEnd sliceStart) 1) sliceStep
    sliceLoop w sliceEnd sliceStep fuel sliceStart []
  | slicesArr => some slicesArr

/-- Whether `slices.reserve((slice_end - slice_start + 1) / slice_step)` throws: the vector
    is asked for more than `maxSize` elements. Below zero the argument wraps around. -/
def reserveThrows (w : Width) (maxSize : ℕ) : List ℕ → Bool
  | [sliceStart, sliceEnd, sliceStep] =>
    match w.div (w.add (w.sub sliceEnd sliceStart) 1) sliceStep with
    | some capacity => maxSize < capacity
    | none => false
  | _ => false

/-! ## Output -/

/-- `write_to_stream`. An empty range has no `*begin`. -/
def writeToStream {α : Type} (write : α → String) (range : List α) (separator : String := "-") :
    Option String :=
  match range with
  | [] => none
  | x :: rest => some (rest.foldl (fun stream y => stream ++ separator ++ write y) (write x))

/-- A row of the result file. -/
inductive Row where
  | single (slice : ℕ) (time : ℚ)
  | pair (sliceFirst sliceSecond : ℕ) (timeFirst timeSecond : ℚ)
  deriving DecidableEq, Repr

structure Report where
  slicesLine : String
  mipsMultipliersLine : String
  rows : List Row
  deriving DecidableEq, Repr

/-! ## Rows -/

/-- What one call of `simulate` may differ in from another on the same arguments:
    the order in which the sort leaves equal elements, and the shuffle. -/
structure Outcome where
  std : StdAlgorithms
  g : Shuffle

section Rows

variable (w : Width) (procs : List Processor) (procComp : Comparator Processor)
  (taskComp : Comparator SimpleTask) (tp : TaskProcessorWithTransfer) (problemSize : ℕ)
  (simLog : Bool)

/-- The body of the loop over `slices` for a single player. -/
def singlePlayerRow (outcome : Outcome) (i : ℕ) : Option Row := do
  let tasks ← Mmsim.createTasks w problemSize [i]
  let result ← simulate outcome.std outcome.g procs procComp tasks taskComp tp 1 false simLog
  let time ← result.times[0]?
  some (.single i time)

/-- `for (size_t times = 1; times < randomize_count; ++times)` with as many rounds
    left as the first argument says. -/
def timesLoop (outcomes : ℕ → Outcome) (i j : ℕ) (doShuffle : Bool) :
    ℕ → ℕ → List ℚ → Option (List ℚ)
  | 0, _, timesArray => some timesArray
  | rounds + 1, times, timesArray => do
    let tasks ← Mmsim.createTasks w problemSize [i, j]
    let result ← simulate (outcomes times).std (outcomes times).g procs procComp tasks taskComp tp 2
      doShuffle
    timesLoop outcomes i j doShuffle rounds (times + 1)
      (List.zipWith (· + ·) timesArray result.times)

/-- The body of the loops over `f_s` and `slices` for two players. The first
    simulation stands before the loop over the others. -/
def twoPlayersRow (randomizeCount : ℕ) (outcomes : ℕ → Outcome) (i j : ℕ) : Option Row := do
  let doShuffle : Bool := randomizeCount ≠ 0
  let tasksMain ← Mmsim.createTasks w problemSize [i, j]
  let result ← simulate (outcomes 0).std (outcomes 0).g procs procComp tasksMain taskComp tp 2
    doShuffle simLog
  let timesArray ← timesLoop w procs procComp taskComp tp problemSize outcomes i j doShuffle
    (randomizeCount - 1) 1 result.times
  let timesArray :=
    if randomizeCount ≠ 0 then timesArray.map (· / (randomizeCount : ℚ)) else timesArray
  let timeFirst ← timesArray[0]?
  let timeSecond ← timesArray[1]?
  some (.pair i j timeFirst timeSecond)

end Rows

/-! ## The run -/

/-- What `main` does with accepted options. Row `k` sees the outcomes `outcomes k`;
    `write` is how the stream formats a `double`. -/
def runAccepted (w : Width) (fuel : ℕ) (outcomes : ℕ → ℕ → Outcome) (write : ℚ → String)
    (o : Options) (taskComp : Comparator SimpleTask) (procComp : Comparator Processor) :
    Option Report := do
  let procs := processors o.nominalMips o.mips
  let tp : TaskProcessorWithTransfer := ⟨o.bandwidth, o.ping⟩
  let slices ← expandSlices w fuel o.slices
  let slicesLine ← writeToStream toString slices
  let mipsMultipliersLine ← writeToStream write o.mips
  let rows ←
    if o.singlePlayer then
      slices.zipIdx.mapM fun (i, k) =>
        singlePlayerRow w procs procComp taskComp tp o.problemSize o.simLog (outcomes k 0) i
    else
      let fS := if o.fixFirst = 0 then slices else [o.fixFirst]
      (fS.flatMap fun i => slices.map fun j => (i, j)).zipIdx.mapM fun ((i, j), k) =>
        twoPlayersRow w procs procComp taskComp tp o.problemSize o.simLog o.randomizeCount
          (outcomes k) i j
  some { slicesLine, mipsMultipliersLine, rows }

/-- `main`, where `reserve` does not throw. The two priorities are the only options it
    checks. -/
def run (w : Width) (fuel : ℕ) (outcomes : ℕ → ℕ → Outcome) (write : ℚ → String) (o : Options) :
    Except ValidationError (Option Report) := do
  let taskComp ← taskComparator o.taskPriority
  let procComp ← procComparator o.procPriority
  return runAccepted w fuel outcomes write o taskComp procComp

/-- What `main` catches, to print a message and return. -/
inductive Exception where
  | validationError (e : ValidationError)
  | lengthError
  deriving DecidableEq, Repr

/-- `main`, with the `max_size()` of the vector of slices. It reserves before it opens a
    file. -/
def main (w : Width) (maxSize fuel : ℕ) (outcomes : ℕ → ℕ → Outcome) (write : ℚ → String)
    (o : Options) : Except Exception (Option Report) := do
  let taskComp ← (taskComparator o.taskPriority).mapError .validationError
  let procComp ← (procComparator o.procPriority).mapError .validationError
  if reserveThrows w maxSize o.slices then throw .lengthError
  return runAccepted w fuel outcomes write o taskComp procComp

/-- Where `reserve` does not throw, the priorities are all that can stop `main`. -/
theorem main_eq_run {w : Width} {maxSize : ℕ} {o : Options}
    (hreserve : reserveThrows w maxSize o.slices = false) (fuel : ℕ) (outcomes : ℕ → ℕ → Outcome)
    (write : ℚ → String) :
    main w maxSize fuel outcomes write o =
      (run w fuel outcomes write o).mapError .validationError := by
  unfold main run
  cases taskComparator o.taskPriority with
  | error e => rfl
  | ok taskComp =>
    cases procComparator o.procPriority with
    | error e => rfl
    | ok procComp =>
      simp only [hreserve]
      rfl

end Smpp.Main
