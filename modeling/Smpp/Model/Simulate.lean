-- SUMMARY: `simulate`: shuffle, sort, run the task processor, and read off each user's finishing time.
import Mathlib.Data.Finset.Card
import Smpp.Model.TaskProcessor

namespace Smpp

/-- What `simulate` returns, and the caller's task vector as the call leaves it:
    `simulate` takes the tasks by reference and rearranges them. -/
structure SimulateResult where
  times : List ℚ
  processedTasks : List (TaskCompletition TaskPtr)
  tasks : List SimpleTask
  deriving DecidableEq, Repr

/-- `times[idx] = time`; out of range the behaviour is undefined. -/
def assignTime (times : List ℚ) (idx : UInt8) (time : ℚ) : Option (List ℚ) :=
  if idx.toNat < times.length then some (times.set idx.toNat time) else none

/-- The loop over the completions from the last one to the first. The first
    completion met of a user sets that user's time, and the loop breaks once
    `nUserHint` users have one. -/
def collectTimes (tasks : List SimpleTask) (nUserHint : UInt8) :
    List (TaskCompletition TaskPtr) → Finset UInt8 → List ℚ → Option (List ℚ)
  | [], _, times => some times
  | curr :: rest, idx, times => do
    let task ← tasks[curr.task]?
    let currIdx := task.userid
    if currIdx ∈ idx then collectTimes tasks nUserHint rest idx times
    else
      let times ← assignTime times currIdx curr.timeEnd
      if (insert currIdx idx).card = nUserHint.toNat then some times
      else collectTimes tasks nUserHint rest (insert currIdx idx) times

/-- `simulate`. It calls the task processor through a virtual `operator()`, of which this
    is any implementation. The `Shuffle` is the outcome of the random device, should the
    call shuffle at all. -/
def simulateWith (operator : List Processor → List SimpleTask → Option LoopState)
    (std : StdAlgorithms) (g : Shuffle) (procs : List Processor)
    (procComp : Comparator Processor) (tasks : List SimpleTask) (taskComp : Comparator SimpleTask)
    (nUserHint : UInt8) (shuffle returnProcessed : Bool) : Option SimulateResult := do
  let tasksToProcess := if shuffle then g.shuffle tasks else tasks
  let tasksToProcess := std.sort taskComp tasksToProcess
  let procs := std.sort procComp procs
  let st ← operator procs tasksToProcess
  let times ← collectTimes st.tasks nUserHint st.processedTasks.reverse ∅
    (List.replicate nUserHint.toNat 0)
  some
    { times
      processedTasks := if returnProcessed then st.processedTasks else []
      tasks := st.tasks }

/-- `simulate` with the task processor that `main` makes. -/
def simulate (std : StdAlgorithms) (g : Shuffle) (procs : List Processor)
    (procComp : Comparator Processor) (tasks : List SimpleTask) (taskComp : Comparator SimpleTask)
    (tprocessor : TaskProcessorWithTransfer) (nUserHint : UInt8) (shuffle : Bool := true)
    (returnProcessed : Bool := false) : Option SimulateResult :=
  simulateWith (tprocessor.run std) std g procs procComp tasks taskComp nUserHint shuffle
    returnProcessed

end Smpp
