-- SUMMARY: The texts of the two files: one line for each row, and a block of lines for each row in the log.
import Smpp.Base.Text
import Smpp.Correctness.Report
import Smpp.Model.Output

/-!
# The written files

What the streams have received when `main` returns is a function of the rows and of the
completions behind them. The rows are those of `run`, which has no streams.
-/

namespace Smpp

open TaskProcessorWithTransfer

/-! ## Records -/

/-- What a line of the log says of a completion. -/
structure LogLine where
  timeStart : ℚ
  timeEnd : ℚ
  workerIndex : ℕ
  complexity : ℚ
  bitsToTransfer : ℕ
  userid : ℕ
  deriving DecidableEq, Repr

/-- The six fields of the line. -/
def LogLine.fields (write : ℚ → String) (line : LogLine) : List String :=
  [write line.timeStart, write line.timeEnd, toString line.workerIndex, write line.complexity,
    toString line.bitsToTransfer, toString line.userid]

/-- Those of the fields that the stream formats as a `double`. -/
def LogLine.numbers (line : LogLine) : List ℚ := [line.timeStart, line.timeEnd, line.complexity]

def LogLine.text (write : ℚ → String) (line : LogLine) : String :=
  String.intercalate "," (line.fields write)

/-- The line for a completion of one of the tasks. -/
def logLine (tasks : List SimpleTask) (c : TaskCompletition TaskPtr) : Option LogLine :=
  (tasks[c.task]?).map fun task =>
    ⟨c.timeStart, c.timeEnd, c.workerIndex, task.complexity, task.bitsToTransfer,
      task.userid.toNat⟩

theorem text_eq_logLine (write : ℚ → String) (tasks : List SimpleTask)
    (c : TaskCompletition TaskPtr) :
    c.text write tasks = (logLine tasks c).map (LogLine.text write) := by
  unfold TaskCompletition.text logLine
  cases tasks[c.task]? with
  | none => rfl
  | some task =>
    simp [LogLine.text, LogLine.fields, SimpleTask.text, String.intercalate_cons_cons,
      String.append_assoc]

namespace Main

/-- The fields of a row. -/
def Row.fields (write : ℚ → String) : Row → List String
  | .single i time => [toString i, write time]
  | .pair i j timeFirst timeSecond => [toString i, toString j, write timeFirst, write timeSecond]

/-- Its times. -/
def Row.numbers : Row → List ℚ
  | .single _ time => [time]
  | .pair _ _ timeFirst timeSecond => [timeFirst, timeSecond]

def Row.text (write : ℚ → String) (row : Row) : String := String.intercalate "," (row.fields write)

/-- The line of the log before the completions of a row. -/
def Row.logHeader : Row → String
  | .single i _ => "Log for slice=" ++ toString i
  | .pair i j _ _ => "Log for slice1=" ++ toString i ++ "|slice2=" ++ toString j

theorem logHeader_single (i : ℕ) (time : ℚ) :
    (Row.single i time).logHeader = "Log for slice=" ++ toString i := rfl

theorem logHeader_pair (i j : ℕ) (timeFirst timeSecond : ℚ) :
    (Row.pair i j timeFirst timeSecond).logHeader =
      "Log for slice1=" ++ toString i ++ "|slice2=" ++ toString j := rfl

/-- A row and the log of its first simulation. -/
structure Entry where
  row : Row
  log : List LogLine

/-- The numbers of the row and of its log. -/
def Entry.numbers (e : Entry) : List ℚ := e.row.numbers ++ e.log.flatMap LogLine.numbers

/-- The lines of the log that belong to a row. -/
def Entry.logLines (write : ℚ → String) (e : Entry) : List String :=
  e.row.logHeader :: e.log.map (LogLine.text write)

/-- The streams after one more row. -/
def Streams.add (write : ℚ → String) (simLog : Bool) (st : Streams) (e : Entry) : Streams where
  file := st.file ++ e.row.text write ++ "\n"
  simLogFile := if simLog then st.simLogFile ++ Text.unlines (e.logLines write) else st.simLogFile

theorem logProcessed_eq (write : ℚ → String) (tasks : List SimpleTask)
    (processed : List (TaskCompletition TaskPtr)) (st : Streams) :
    logProcessed write tasks processed st = (processed.mapM (logLine tasks)).map fun log =>
      st.log (Text.unlines (log.map (LogLine.text write))) := by
  have hround : ∀ (st : Streams) (c : TaskCompletition TaskPtr),
      (do let text ← c.text write tasks; some (st.log (text ++ "\n"))) =
        (logLine tasks c).map fun line => st.log (line.text write ++ "\n") := by
    intro st c
    rw [text_eq_logLine]
    cases logLine tasks c <;> rfl
  have hfold : ∀ (log : List LogLine) (st : Streams),
      log.foldl (fun st line => st.log (line.text write ++ "\n")) st =
        st.log (Text.unlines (log.map (LogLine.text write))) := by
    intro log
    induction log with
    | nil =>
      intro st
      rw [List.foldl_nil, List.map_nil, Text.unlines_nil, Streams.log, String.append_empty]
    | cons line rest ih =>
      intro st
      rw [List.foldl_cons, ih, List.map_cons, Text.unlines_cons, Streams.log, Streams.log,
        Streams.log, String.append_assoc]
  simp only [logProcessed, hround, foldlM_map_some (fun st line => Streams.log st _), hfold]

/-! ## Rows -/

section Rows

variable (w : Width) (procs : List Processor) (procComp : Comparator Processor)
  (taskComp : Comparator SimpleTask) (tp : TaskProcessorWithTransfer) (problemSize : ℕ)
  (simLog : Bool)

/-- What a row logs of its first simulation. -/
def logged (simLog : Bool) (result : SimulateResult) : Option (List LogLine) :=
  if simLog then result.processedTasks.mapM (logLine result.tasks) else some []

/-- The entry of a single player, without streams. -/
def singleEntry (outcome : Outcome) (i : ℕ) : Option Entry := do
  let tasks ← Mmsim.createTasks w problemSize [i]
  let result ← simulate outcome.std outcome.g procs procComp tasks taskComp tp 1 false simLog
  let log ← logged simLog result
  let time ← result.times[0]?
  some ⟨.single i time, log⟩

/-- The entry of two players, without streams. -/
def pairEntry (randomizeCount : ℕ) (outcomes : ℕ → Outcome) (i j : ℕ) : Option Entry := do
  let doShuffle : Bool := randomizeCount ≠ 0
  let tasksMain ← Mmsim.createTasks w problemSize [i, j]
  let result ← simulate (outcomes 0).std (outcomes 0).g procs procComp tasksMain taskComp tp 2
    doShuffle simLog
  let log ← logged simLog result
  let timesArray ← timesLoop w procs procComp taskComp tp problemSize outcomes i j doShuffle
    (randomizeCount - 1) 1 result.times
  let timesArray :=
    if randomizeCount ≠ 0 then timesArray.map (· / (randomizeCount : ℚ)) else timesArray
  let timeFirst ← timesArray[0]?
  let timeSecond ← timesArray[1]?
  some ⟨.pair i j timeFirst timeSecond, log⟩

variable {w procs procComp taskComp tp problemSize simLog}

/-- The header and the completions of a row. -/
theorem log_logProcessed_eq (write : ℚ → String) (header : String) (result : SimulateResult)
    (st : Streams) :
    logProcessed write result.tasks result.processedTasks (st.log (header ++ "\n")) =
      (logged true result).map fun log =>
        st.log (Text.unlines (header :: log.map (LogLine.text write))) := by
  simp only [logged, if_true, logProcessed_eq, Text.unlines_cons, Streams.log, String.append_assoc]

theorem writeSinglePlayerRow_eq (write : ℚ → String) (outcome : Outcome) (i : ℕ) (st : Streams) :
    writeSinglePlayerRow w procs procComp taskComp tp problemSize simLog write outcome i st =
      (singleEntry w procs procComp taskComp tp problemSize simLog outcome i).map
        (st.add write simLog) := by
  have hrow : ∀ time : ℚ, Row.text write (.single i time) = toString i ++ "," ++ write time := by
    intro time
    rw [Row.text, Row.fields, String.intercalate_cons_cons, String.intercalate_singleton]
  unfold writeSinglePlayerRow singleEntry
  simp only [Option.bind_eq_bind]
  cases Mmsim.createTasks w problemSize [i] with
  | none => rfl
  | some tasks =>
    simp only [Option.bind_some]
    cases simulate outcome.std outcome.g procs procComp tasks taskComp tp 1 false simLog with
    | none => rfl
    | some result =>
      cases htime : result.times[0]? with
      | none => cases simLog <;> simp [htime]
      | some time =>
        simp only [Option.bind_some, htime, log_logProcessed_eq]
        cases simLog with
        | false =>
          simp only [logged, Bool.false_eq_true, if_false, Option.bind_some, Option.map_some,
            Streams.add, Streams.write, hrow, String.append_assoc]
        | true =>
          cases logged true result with
          | none => rfl
          | some log =>
            simp only [Option.bind_some, Option.map_some, Streams.add, Streams.write, Streams.log,
              Entry.logLines, logHeader_single, hrow, String.append_assoc, if_true]

theorem writeTwoPlayersRow_eq (write : ℚ → String) (randomizeCount : ℕ) (outcomes : ℕ → Outcome)
    (i j : ℕ) (st : Streams) :
    writeTwoPlayersRow w procs procComp taskComp tp problemSize simLog write randomizeCount outcomes
        i j st =
      (pairEntry w procs procComp taskComp tp problemSize simLog randomizeCount outcomes i j).map
        (st.add write simLog) := by
  have hrow : ∀ timeFirst timeSecond : ℚ, Row.text write (.pair i j timeFirst timeSecond) =
      toString i ++ "," ++ toString j ++ "," ++ (write timeFirst ++ "," ++ write timeSecond) := by
    intro timeFirst timeSecond
    rw [Row.text, Row.fields, String.intercalate_cons_cons, String.intercalate_cons_cons,
      String.intercalate_cons_cons, String.intercalate_singleton]
    simp only [String.append_assoc]
  unfold writeTwoPlayersRow pairEntry
  simp only [Option.bind_eq_bind]
  cases Mmsim.createTasks w problemSize [i, j] with
  | none => rfl
  | some tasks =>
    simp only [Option.bind_some]
    cases simulate (outcomes 0).std (outcomes 0).g procs procComp tasks taskComp tp 2
        (decide (randomizeCount ≠ 0)) simLog with
    | none => rfl
    | some result =>
      simp only [Option.bind_some]
      cases timesLoop w procs procComp taskComp tp problemSize outcomes i j
          (decide (randomizeCount ≠ 0)) (randomizeCount - 1) 1 result.times with
      | none => cases simLog <;> simp
      | some timesArray =>
        simp only [Option.bind_some]
        generalize (if randomizeCount ≠ 0 then timesArray.map (· / (randomizeCount : ℚ))
          else timesArray) = timesArray
        cases htimeFirst : timesArray[0]? with
        | none => cases simLog <;> simp
        | some timeFirst =>
          cases htimeSecond : timesArray[1]? with
          | none => cases simLog <;> simp
          | some timeSecond =>
            simp only [Option.bind_some, log_logProcessed_eq]
            cases simLog with
            | false =>
              simp only [logged, Bool.false_eq_true, if_false, Option.bind_some, Option.map_some,
                Streams.add, Streams.write, hrow, String.append_assoc]
            | true =>
              cases logged true result with
              | none => rfl
              | some log =>
                simp only [Option.bind_some, Option.map_some, Streams.add, Streams.write,
                  Streams.log, Entry.logLines, logHeader_pair, hrow, String.append_assoc, if_true]

/-- Every completion that `simulate` hands out has a line. -/
theorem exists_logged {std : StdAlgorithms} {g : Shuffle} {tasks : List SimpleTask}
    {nUserHint : UInt8} {shuffle : Bool} {r : SimulateResult}
    (hr : simulate std g procs procComp tasks taskComp tp nUserHint shuffle simLog = some r) :
    ∃ log, logged simLog r = some log := by
  cases simLog with
  | false => exact ⟨[], rfl⟩
  | true =>
    obtain ⟨out, hcall, hsim, -⟩ := simulate_log std g procs procComp tasks taskComp tp shuffle
    have hlog := simulate_log_task_lt std g procs procComp tasks taskComp tp shuffle hcall
    rw [hsim] at hr
    obtain ⟨hprocessed, htasks⟩ := processed_of_reported hr
    rw [logged, if_pos rfl, hprocessed, htasks, exists_mapM_iff]
    intro c hc
    simp [logLine, hlog c hc]

theorem singleEntry_row (outcome : Outcome) (i : ℕ) :
    (singleEntry w procs procComp taskComp tp problemSize simLog outcome i).map (·.row) =
      singlePlayerRow w procs procComp taskComp tp problemSize simLog outcome i := by
  unfold singleEntry singlePlayerRow
  simp only [Option.bind_eq_bind]
  cases Mmsim.createTasks w problemSize [i] with
  | none => rfl
  | some tasks =>
    simp only [Option.bind_some]
    cases hsim : simulate outcome.std outcome.g procs procComp tasks taskComp tp 1 false simLog with
    | none => rfl
    | some result =>
      obtain ⟨log, hlog⟩ := exists_logged hsim
      simp only [Option.bind_some, hlog]
      cases result.times[0]? <;> rfl

theorem pairEntry_row (randomizeCount : ℕ) (outcomes : ℕ → Outcome) (i j : ℕ) :
    (pairEntry w procs procComp taskComp tp problemSize simLog randomizeCount outcomes i j).map
        (·.row) =
      twoPlayersRow w procs procComp taskComp tp problemSize simLog randomizeCount outcomes i
        j := by
  unfold pairEntry twoPlayersRow
  simp only [Option.bind_eq_bind]
  cases Mmsim.createTasks w problemSize [i, j] with
  | none => rfl
  | some tasks =>
    simp only [Option.bind_some]
    cases hsim : simulate (outcomes 0).std (outcomes 0).g procs procComp tasks taskComp tp 2
        (decide (randomizeCount ≠ 0)) simLog with
    | none => rfl
    | some result =>
      obtain ⟨log, hlog⟩ := exists_logged hsim
      simp only [Option.bind_some, hlog]
      cases timesLoop w procs procComp taskComp tp problemSize outcomes i j
          (decide (randomizeCount ≠ 0)) (randomizeCount - 1) 1 result.times with
      | none => rfl
      | some timesArray =>
        simp only [Option.bind_some]
        generalize (if randomizeCount ≠ 0 then timesArray.map (· / (randomizeCount : ℚ))
          else timesArray) = timesArray
        cases timesArray[0]? with
        | none => rfl
        | some timeFirst => cases timesArray[1]? <;> rfl

end Rows

/-! ## Files -/

section Files

variable (w : Width) (fuel : ℕ) (outcomes : ℕ → ℕ → Outcome) (write : ℚ → String) (o : Options)
  (taskComp : Comparator SimpleTask) (procComp : Comparator Processor)

/-- The entries of a run with these slices. -/
def entries (slices : List ℕ) : Option (List Entry) :=
  if o.singlePlayer then
    slices.zipIdx.mapM fun x =>
      singleEntry w (processors o.nominalMips o.mips) procComp taskComp ⟨o.bandwidth, o.ping⟩
        o.problemSize o.simLog (outcomes x.2 0) x.1
  else
    (pairs o.fixFirst slices).zipIdx.mapM fun x =>
      pairEntry w (processors o.nominalMips o.mips) procComp taskComp ⟨o.bandwidth, o.ping⟩
        o.problemSize o.simLog o.randomizeCount (outcomes x.2) x.1.1 x.1.2

/-- The names of the columns. -/
def columnsLine (o : Options) : String :=
  if o.singlePlayer then "Slice,Time" else "Slice First,Slice Second,Time First,Time Second"

/-- The lines of the result file. -/
def reportLines (report : Report) : List String :=
  [headerLine write o, "Slices=" ++ report.slicesLine,
    "MipsMultipliers=" ++ report.mipsMultipliersLine, columnsLine o] ++
    report.rows.map (Row.text write)

theorem reportLines_congr (b : Bool) (report : Report) :
    reportLines write { o with simLog := b } report = reportLines write o report := rfl

/-- The lines of the log. -/
def logLines (es : List Entry) : List String :=
  if o.simLog then es.flatMap (Entry.logLines write) else []

theorem entries_rows (slices : List ℕ) :
    (entries w outcomes o taskComp procComp slices).map (List.map (·.row)) =
      rows w outcomes o taskComp procComp slices := by
  unfold entries rows
  split
  · rw [← mapM_map_some]
    apply mapM_congr
    intro x _
    exact singleEntry_row _ _
  · rw [← mapM_map_some]
    apply mapM_congr
    intro x _
    exact pairEntry_row _ _ _ _

theorem foldl_add (simLog : Bool) (es : List Entry) (st : Streams) :
    es.foldl (Streams.add write simLog) st =
      ⟨st.file ++ Text.unlines (es.map fun e => e.row.text write),
        st.simLogFile ++
          Text.unlines (if simLog then es.flatMap (Entry.logLines write) else [])⟩ := by
  induction es generalizing st with
  | nil => cases simLog <;> simp
  | cons e rest ih =>
    rw [List.foldl_cons, ih]
    cases simLog <;> simp [Streams.add, Text.unlines_append, String.append_assoc]

/-- The streams of a run with these slices, from the ones with the header on. -/
theorem foldlM_write_eq (slices : List ℕ) (st : Streams) :
    (if o.singlePlayer then
      slices.zipIdx.foldlM
        (fun st (i, k) =>
          writeSinglePlayerRow w (processors o.nominalMips o.mips) procComp taskComp
            ⟨o.bandwidth, o.ping⟩ o.problemSize o.simLog write (outcomes k 0) i st) st
    else
      (pairs o.fixFirst slices).zipIdx.foldlM
        (fun st ((i, j), k) =>
          writeTwoPlayersRow w (processors o.nominalMips o.mips) procComp taskComp
            ⟨o.bandwidth, o.ping⟩ o.problemSize o.simLog write o.randomizeCount (outcomes k) i j st)
        st) =
      (entries w outcomes o taskComp procComp slices).map fun es =>
        es.foldl (Streams.add write o.simLog) st := by
  unfold entries
  split
  · rw [← foldlM_map_some]
    congr 1
    funext st x
    exact writeSinglePlayerRow_eq write _ _ st
  · rw [← foldlM_map_some]
    congr 1
    funext st x
    exact writeTwoPlayersRow_eq write _ _ _ _ st

/-- The streams with the header on. -/
theorem write_header (slicesLine mipsMultipliersLine columns : String) :
    ((((((((((({} : Streams).write (headerLine write o)).write "\n").write "Slices=").write
      slicesLine).write "\n").write "MipsMultipliers=").write mipsMultipliersLine).write "\n").write
        columns).write "\n") =
      ⟨Text.unlines [headerLine write o, "Slices=" ++ slicesLine,
        "MipsMultipliers=" ++ mipsMultipliersLine, columns], ""⟩ := by
  simp only [Streams.write, Text.unlines_cons, Text.unlines_nil, String.append_assoc,
    String.empty_append, String.append_empty]

/-- The rows complete the files. -/
theorem foldl_add_header (slicesLine mipsMultipliersLine : String) (es : List Entry) :
    es.foldl (Streams.add write o.simLog) ⟨Text.unlines [headerLine write o,
        "Slices=" ++ slicesLine, "MipsMultipliers=" ++ mipsMultipliersLine, columnsLine o], ""⟩ =
      ⟨Text.unlines (reportLines write o ⟨slicesLine, mipsMultipliersLine, es.map (·.row)⟩),
        Text.unlines (logLines write o es)⟩ := by
  rw [foldl_add, reportLines, Text.unlines_append, String.empty_append, List.map_map]
  rfl

/-- Both files, put together from the parts of the report and the log. -/
theorem writeAccepted_eq :
    writeAccepted w fuel outcomes write o taskComp procComp = (do
      let slices ← expandSlices w fuel o.slices
      let slicesLine ← writeToStream toString slices
      let mipsMultipliersLine ← writeToStream write o.mips
      let es ← entries w outcomes o taskComp procComp slices
      some ⟨Text.unlines (reportLines write o ⟨slicesLine, mipsMultipliersLine, es.map (·.row)⟩),
        Text.unlines (logLines write o es)⟩) := by
  unfold writeAccepted
  simp only [Option.bind_eq_bind]
  cases expandSlices w fuel o.slices with
  | none => rfl
  | some slices =>
    simp only [Option.bind_some]
    cases writeToStream toString slices with
    | none => rfl
    | some slicesLine =>
      simp only [Option.bind_some]
      cases writeToStream write o.mips with
      | none => rfl
      | some mipsMultipliersLine =>
        have hrows := foldlM_write_eq w outcomes write o taskComp procComp slices
          ⟨Text.unlines [headerLine write o, "Slices=" ++ slicesLine,
            "MipsMultipliers=" ++ mipsMultipliersLine, columnsLine o], ""⟩
        simp only [foldl_add_header, Option.map_eq_bind] at hrows
        simp only [Option.bind_some, write_header]
        refine Eq.trans ?_ hrows
        unfold columnsLine
        split <;> rfl

end Files

section Report

variable {w : Width} {fuel : ℕ} {outcomes : ℕ → ℕ → Outcome} {write : ℚ → String} {o : Options}
  {taskComp : Comparator SimpleTask} {procComp : Comparator Processor}

theorem writeAccepted_eq_some_iff {st : Streams} :
    writeAccepted w fuel outcomes write o taskComp procComp = some st ↔
      ∃ slices report es, expandSlices w fuel o.slices = some slices ∧
        writeToStream toString slices = some report.slicesLine ∧
        runAccepted w fuel outcomes write o taskComp procComp = some report ∧
        entries w outcomes o taskComp procComp slices = some es ∧ report.rows = es.map (·.row) ∧
        st = ⟨Text.unlines (reportLines write o report), Text.unlines (logLines write o es)⟩ := by
  simp only [writeAccepted_eq, runAccepted_eq_some_iff, ← entries_rows, Option.bind_eq_bind,
    Option.bind_eq_some_iff, Option.some.injEq]
  constructor
  · rintro ⟨slices, hslices, slicesLine, hline, mipsMultipliersLine, hmips, es, hes, rfl⟩
    exact ⟨slices, ⟨slicesLine, mipsMultipliersLine, es.map (·.row)⟩, es, hslices, hline,
      ⟨slices, hslices, hline, hmips, by rw [hes]; rfl⟩, hes, rfl, rfl⟩
  · rintro ⟨slices, report, es, hslices, hline, ⟨-, -, -, hmips, -⟩, hes, hrows, rfl⟩
    refine ⟨slices, hslices, _, hline, _, hmips, es, hes, ?_⟩
    rw [← hrows]

variable (w fuel outcomes write o taskComp procComp) in
/-- The files are written if and only if there is a report, and say what it says. -/
theorem writeAccepted_files :
    ∃ es, writeAccepted w fuel outcomes write o taskComp procComp =
      (runAccepted w fuel outcomes write o taskComp procComp).map fun report =>
        ⟨Text.unlines (reportLines write o report), Text.unlines (logLines write o es)⟩ := by
  cases hwrite : writeAccepted w fuel outcomes write o taskComp procComp with
  | some st =>
    obtain ⟨_, report, es, -, -, hrun, -, -, rfl⟩ := writeAccepted_eq_some_iff.mp hwrite
    refine ⟨es, ?_⟩
    simp only [hrun, Option.map_some]
  | none =>
    refine ⟨[], ?_⟩
    cases hrun : runAccepted w fuel outcomes write o taskComp procComp with
    | none => rfl
    | some report =>
      obtain ⟨slices, hslices, hline, -, hrows⟩ := runAccepted_eq_some_iff.mp hrun
      rw [← entries_rows] at hrows
      obtain ⟨es, hes, hmap⟩ := Option.map_eq_some_iff.mp hrows
      have hsome := writeAccepted_eq_some_iff.mpr
        ⟨slices, report, es, hslices, hline, hrun, hes, hmap.symm, rfl⟩
      rw [hwrite] at hsome
      cases hsome

end Report

/-! ## The log changes nothing -/

section SimLog

/-- What `simulate` reports does not depend on whether it hands out its log. -/
theorem simulate_times_congr (std : StdAlgorithms) (g : Shuffle) (procs : List Processor)
    (procComp : Comparator Processor) (tasks : List SimpleTask) (taskComp : Comparator SimpleTask)
    (tp : TaskProcessorWithTransfer) (nUserHint : UInt8) (shuffle b b' : Bool) :
    (simulate std g procs procComp tasks taskComp tp nUserHint shuffle b).map (·.times) =
      (simulate std g procs procComp tasks taskComp tp nUserHint shuffle b').map (·.times) := by
  obtain ⟨out, -, hsim, -⟩ := simulate_log std g procs procComp tasks taskComp tp shuffle
  rw [hsim, hsim, reported, reported, Option.map_map, Option.map_map]
  rfl

variable {w : Width} {procs : List Processor} {procComp : Comparator Processor}
  {taskComp : Comparator SimpleTask} {tp : TaskProcessorWithTransfer} {problemSize : ℕ}

theorem singlePlayerRow_congr (b b' : Bool) (outcome : Outcome) (i : ℕ) :
    singlePlayerRow w procs procComp taskComp tp problemSize b outcome i =
      singlePlayerRow w procs procComp taskComp tp problemSize b' outcome i := by
  have htimes := fun tasks => simulate_times_congr outcome.std outcome.g procs procComp tasks
    taskComp tp 1 false b b'
  have hrow : ∀ b, singlePlayerRow w procs procComp taskComp tp problemSize b outcome i = (do
      let tasks ← Mmsim.createTasks w problemSize [i]
      let times ← (simulate outcome.std outcome.g procs procComp tasks taskComp tp 1 false b).map
        (·.times)
      let time ← times[0]?
      some (.single i time)) := by
    intro b
    simp only [singlePlayerRow, Option.bind_eq_bind, Option.bind_map]
    rfl
  rw [hrow, hrow]
  simp only [htimes]

theorem twoPlayersRow_congr (b b' : Bool) (randomizeCount : ℕ) (outcomes : ℕ → Outcome) (i j : ℕ) :
    twoPlayersRow w procs procComp taskComp tp problemSize b randomizeCount outcomes i j =
      twoPlayersRow w procs procComp taskComp tp problemSize b' randomizeCount outcomes i j := by
  have htimes := fun tasks => simulate_times_congr (outcomes 0).std (outcomes 0).g procs procComp
    tasks taskComp tp 2 (decide (randomizeCount ≠ 0)) b b'
  have hrow : ∀ b, twoPlayersRow w procs procComp taskComp tp problemSize b randomizeCount outcomes
      i j = (do
        let tasksMain ← Mmsim.createTasks w problemSize [i, j]
        let times ← (simulate (outcomes 0).std (outcomes 0).g procs procComp tasksMain taskComp tp 2
          (decide (randomizeCount ≠ 0)) b).map (·.times)
        let timesArray ← timesLoop w procs procComp taskComp tp problemSize outcomes i j
          (decide (randomizeCount ≠ 0)) (randomizeCount - 1) 1 times
        let timesArray :=
          if randomizeCount ≠ 0 then timesArray.map (· / (randomizeCount : ℚ)) else timesArray
        let timeFirst ← timesArray[0]?
        let timeSecond ← timesArray[1]?
        some (.pair i j timeFirst timeSecond)) := by
    intro b
    simp only [twoPlayersRow, Option.bind_eq_bind, Option.bind_map]
    rfl
  rw [hrow, hrow]
  simp only [htimes]

theorem runAccepted_congr (fuel : ℕ) (outcomes : ℕ → ℕ → Outcome) (write : ℚ → String)
    (o : Options) (b : Bool) :
    runAccepted w fuel outcomes write { o with simLog := b } taskComp procComp =
      runAccepted w fuel outcomes write o taskComp procComp := by
  unfold runAccepted
  simp only [singlePlayerRow_congr b o.simLog, twoPlayersRow_congr b o.simLog]

end SimLog

/-- The result file is the text of the report that `run` returns, line by line, and
    `sim_log` changes nothing in it. Without `sim_log` nothing is written to the log. -/
theorem writeFiles_file (w : Width) (fuel : ℕ) (outcomes : ℕ → ℕ → Outcome) (write : ℚ → String)
    (o : Options) (simLog : Bool) :
    (writeFiles w fuel outcomes write { o with simLog := simLog }).map (Option.map (·.file)) =
        (run w fuel outcomes write o).map (Option.map fun report =>
          Text.unlines (reportLines write o report)) ∧
      (writeFiles w fuel outcomes write { o with simLog := false }).map
          (Option.map (·.simLogFile)) =
        (run w fuel outcomes write o).map (Option.map fun _ => "") := by
  unfold writeFiles run
  cases htask : taskComparator o.taskPriority with
  | error e => exact ⟨rfl, rfl⟩
  | ok taskComp =>
    cases hproc : procComparator o.procPriority with
    | error e => exact ⟨rfl, rfl⟩
    | ok procComp =>
      obtain ⟨es, hfiles⟩ := writeAccepted_files w fuel outcomes write { o with simLog := simLog }
        taskComp procComp
      obtain ⟨es', hfiles'⟩ := writeAccepted_files w fuel outcomes write { o with simLog := false }
        taskComp procComp
      rw [runAccepted_congr] at hfiles hfiles'
      constructor
      · apply congrArg Except.ok
        simp only [hfiles, Option.map_map, Function.comp_def, reportLines_congr]
      · apply congrArg Except.ok
        simp only [hfiles', Option.map_map, Function.comp_def, logLines, Bool.false_eq_true,
          if_false, Text.unlines_nil]

end Main

end Smpp
