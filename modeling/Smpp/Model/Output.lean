-- SUMMARY: What the program writes: the text of the result file and of the log, as its two output streams receive it.
import Smpp.Model.Main

/-!
# Output

`main` writes its result file while it computes: a header, then each row as soon as it is
known. With `sim_log` it also writes the completions of the first simulation of each row
to a second file. The streams are passed along as the text written to them so far.
`write` is how a stream formats a `double`.
-/

namespace Smpp

/-! ## Records -/

/-- `operator<<` of a task. -/
def SimpleTask.text (write : ℚ → String) (task : SimpleTask) : String :=
  write task.complexity ++ "," ++ toString task.bitsToTransfer ++ "," ++
    toString task.userid.toNat

/-- `operator<<` of a completion, where `get_ref` follows the pointer into the tasks. -/
def TaskCompletition.text (write : ℚ → String) (tasks : List SimpleTask)
    (tc : TaskCompletition TaskPtr) : Option String := do
  let task ← tasks[tc.task]?
  some (write tc.timeStart ++ "," ++ write tc.timeEnd ++ "," ++ toString tc.workerIndex ++ "," ++
    task.text write)

namespace Main

/-! ## Streams -/

/-- `file` and `sim_log_file`, with what has been written to them. -/
structure Streams where
  file : String := ""
  simLogFile : String := ""

namespace Streams

def write (st : Streams) (text : String) : Streams := { st with file := st.file ++ text }

def log (st : Streams) (text : String) : Streams := { st with simLogFile := st.simLogFile ++ text }

end Streams

/-- The `for_each` over the processed tasks, which are written to the log. -/
def logProcessed (write : ℚ → String) (tasks : List SimpleTask)
    (processed : List (TaskCompletition TaskPtr)) (st : Streams) : Option Streams :=
  processed.foldlM
    (fun st val => do
      let text ← val.text write tasks
      some (st.log (text ++ "\n")))
    st

/-! ## Rows -/

section Rows

variable (w : Width) (procs : List Processor) (procComp : Comparator Processor)
  (taskComp : Comparator SimpleTask) (tp : TaskProcessorWithTransfer) (problemSize : ℕ)
  (simLog : Bool) (write : ℚ → String)

/-- The body of the loop over `slices` for a single player, with its output. -/
def writeSinglePlayerRow (outcome : Outcome) (i : ℕ) (st : Streams) : Option Streams := do
  let st := st.write (toString i ++ ",")
  let tasks ← Mmsim.createTasks w problemSize [i]
  let result ← simulate outcome.std outcome.g procs procComp tasks taskComp tp 1 false simLog
  let st ←
    if simLog then
      logProcessed write result.tasks result.processedTasks
        (st.log ("Log for slice=" ++ toString i ++ "\n"))
    else some st
  let time ← result.times[0]?
  some ((st.write (write time)).write "\n")

/-- The body of the loops over `f_s` and `slices` for two players, with its output. -/
def writeTwoPlayersRow (randomizeCount : ℕ) (outcomes : ℕ → Outcome) (i j : ℕ) (st : Streams) :
    Option Streams := do
  let doShuffle : Bool := randomizeCount ≠ 0
  let st := st.write (toString i ++ "," ++ toString j ++ ",")
  let tasksMain ← Mmsim.createTasks w problemSize [i, j]
  let result ← simulate (outcomes 0).std (outcomes 0).g procs procComp tasksMain taskComp tp 2
    doShuffle simLog
  let st ←
    if simLog then
      logProcessed write result.tasks result.processedTasks
        (st.log ("Log for slice1=" ++ toString i ++ "|slice2=" ++ toString j ++ "\n"))
    else some st
  let timesArray ← timesLoop w procs procComp taskComp tp problemSize outcomes i j doShuffle
    (randomizeCount - 1) 1 result.times
  let timesArray :=
    if randomizeCount ≠ 0 then timesArray.map (· / (randomizeCount : ℚ)) else timesArray
  let timeFirst ← timesArray[0]?
  let timeSecond ← timesArray[1]?
  some ((st.write (write timeFirst ++ "," ++ write timeSecond)).write "\n")

end Rows

/-! ## The files -/

/-- The first line of the result file. -/
def headerLine (write : ℚ → String) (o : Options) : String :=
  "ProblemSize=" ++ toString o.problemSize ++ "|||NominalMips=" ++ write o.nominalMips ++
    "|||Bandwidth=" ++ write o.bandwidth ++ "|||Ping=" ++ write o.ping

/-- What `main` does with accepted options, from the opened files on. -/
def writeAccepted (w : Width) (fuel : ℕ) (outcomes : ℕ → ℕ → Outcome) (write : ℚ → String)
    (o : Options) (taskComp : Comparator SimpleTask) (procComp : Comparator Processor) :
    Option Streams := do
  let procs := processors o.nominalMips o.mips
  let tp : TaskProcessorWithTransfer := ⟨o.bandwidth, o.ping⟩
  let slices ← expandSlices w fuel o.slices
  let st := (({} : Streams).write (headerLine write o)).write "\n"
  let slicesText ← writeToStream toString slices
  let st := ((st.write "Slices=").write slicesText).write "\n"
  let mipsText ← writeToStream write o.mips
  let st := ((st.write "MipsMultipliers=").write mipsText).write "\n"
  if o.singlePlayer then
    slices.zipIdx.foldlM
      (fun st (i, k) =>
        writeSinglePlayerRow w procs procComp taskComp tp o.problemSize o.simLog write
          (outcomes k 0) i st)
      ((st.write "Slice,Time").write "\n")
  else
    let fS := if o.fixFirst = 0 then slices else [o.fixFirst]
    (fS.flatMap fun i => slices.map fun j => (i, j)).zipIdx.foldlM
      (fun st ((i, j), k) =>
        writeTwoPlayersRow w procs procComp taskComp tp o.problemSize o.simLog write
          o.randomizeCount (outcomes k) i j st)
      ((st.write "Slice First,Slice Second,Time First,Time Second").write "\n")

/-- `main` up to its return, with the text of both files, where `reserve` does not throw. -/
def writeFiles (w : Width) (fuel : ℕ) (outcomes : ℕ → ℕ → Outcome) (write : ℚ → String)
    (o : Options) : Except ValidationError (Option Streams) := do
  let taskComp ← taskComparator o.taskPriority
  let procComp ← procComparator o.procPriority
  return writeAccepted w fuel outcomes write o taskComp procComp

/-! ## Names -/

/-- `fname`, where `writeScientific` formats a `double` with three digits. The priorities
    have been made lower case before. -/
def fname (writeScientific : ℚ → String) (o : Options) (output : String) : String :=
  if output = "auto" then
    "sim_" ++ o.procPriority.toLower ++ "_" ++ o.taskPriority.toLower ++
      "_n_" ++ toString o.problemSize ++
      "_m_" ++ writeScientific o.nominalMips ++
      "_bw_" ++ writeScientific o.bandwidth ++
      "_p_" ++ writeScientific o.ping ++
      "_rd_" ++ toString o.randomizeCount ++
      (if o.singlePlayer then "single" else "") ++ ".txt"
  else output

/-- The name of the log file. -/
def simLogName (writeScientific : ℚ → String) (o : Options) (output : String) : String :=
  fname writeScientific o output ++ ".log"

end Main

end Smpp
