-- SUMMARY: Reading the written files back: the result file gives the slices and the rows, and the log explains the rows.
import Smpp.Correctness.Output

/-!
# Reading the files

The text of the result file determines the slices and the rows, and the text of the log
the completions of the first simulation of each row. With one simulation for each row the
rows can be computed from the log alone.
-/

namespace Smpp.Main

/-! ## Readers -/

/-- What a reader needs to know of how some numbers are written: they come back, and
    contain neither the separator of the fields nor that of the lines. -/
structure Readable (numbers : Set ℚ) (write : ℚ → String) (read : String → Option ℚ) : Prop where
  read_write : ∀ t ∈ numbers, read (write t) = some t
  comma : ∀ t ∈ numbers, ',' ∉ (write t).toList
  newline : ∀ t ∈ numbers, '\n' ∉ (write t).toList

/-- The numbers in the header of the result file. -/
def Options.numbers (o : Options) : List ℚ := o.nominalMips :: o.bandwidth :: o.ping :: o.mips

/-- The numbers that a run writes to its files: those of the options, and those of the
    rows and of their logs. -/
def writtenNumbers (w : Width) (fuel : ℕ) (outcomes : ℕ → ℕ → Outcome) (o : Options) : Set ℚ :=
  {t | t ∈ o.numbers ∨ ∃ taskComp procComp slices es,
    taskComparator o.taskPriority = .ok taskComp ∧ procComparator o.procPriority = .ok procComp ∧
      expandSlices w fuel o.slices = some slices ∧
      entries w outcomes o taskComp procComp slices = some es ∧ ∃ e ∈ es, t ∈ e.numbers}

/-- The slices and the rows of a result file. -/
structure Table where
  slices : List ℕ
  rows : List Row
  deriving DecidableEq, Repr

/-- The part of the log that belongs to one row. -/
structure Block where
  slices : List ℕ
  log : List LogLine
  deriving DecidableEq, Repr

section Readers

variable (read : String → Option ℚ)

def readRow (line : String) : Option Row :=
  match Text.split ',' line with
  | [i, time] => do
    some (.single (← i.toNat?) (← read time))
  | [i, j, timeFirst, timeSecond] => do
    some (.pair (← i.toNat?) (← j.toNat?) (← read timeFirst) (← read timeSecond))
  | _ => none

def readSlices (line : String) : Option (List ℕ) :=
  match Text.split '=' line with
  | [_, slices] => (Text.split '-' slices).mapM String.toNat?
  | _ => none

/-- The rates in the third line are left alone: a number may contain the separator. -/
def readTable (file : String) : Option Table :=
  match Text.lines file with
  | _ :: slicesLine :: _ :: _ :: rowLines => do
    some ⟨← readSlices slicesLine, ← rowLines.mapM (readRow read)⟩
  | _ => none

def readLogLine (line : String) : Option LogLine :=
  match Text.split ',' line with
  | [timeStart, timeEnd, workerIndex, complexity, bitsToTransfer, userid] => do
    some ⟨← read timeStart, ← read timeEnd, ← workerIndex.toNat?, ← read complexity,
      ← bitsToTransfer.toNat?, ← userid.toNat?⟩
  | _ => none

def readLogHeader (line : String) : Option (List ℕ) :=
  match Text.split '=' line with
  | [_, i] => do
    some [← i.toNat?]
  | [_, middle, j] =>
    match Text.split '|' middle with
    | [i, _] => do
      some [← i.toNat?, ← j.toNat?]
    | _ => none
  | _ => none

/-- The blocks of the lines, and the completions in front of them. -/
def readBlocks : List String → Option (List LogLine × List Block)
  | [] => some ([], [])
  | line :: rest => do
    let (log, blocks) ← readBlocks rest
    match readLogLine read line with
    | some c => some (c :: log, blocks)
    | none => do
      some ([], ⟨← readLogHeader line, log⟩ :: blocks)

/-- The log starts with a header. -/
def readLog (file : String) : Option (List Block) := do
  match ← readBlocks read (Text.lines file) with
  | ([], blocks) => some blocks
  | _ => none

end Readers

/-- The end of the last completion of a user in the log. -/
def lastEnd (log : List LogLine) (userid : ℕ) : Option ℚ :=
  (log.reverse.find? (·.userid = userid)).map (·.timeEnd)

/-- The row that a block of the log leads to. -/
def Block.row (block : Block) : Option Row :=
  match block.slices with
  | [i] => some (.single i ((lastEnd block.log 0).getD 0))
  | [i, j] => some (.pair i j ((lastEnd block.log 0).getD 0) ((lastEnd block.log 1).getD 0))
  | _ => none

/-! ## Lines -/

section Lines

variable {numbers : Set ℚ} {write : ℚ → String} {read : String → Option ℚ} {c : Char}

/-- Other characters than digits are in the fields only if the numbers have them. -/
theorem notMem_rowFields (hc : c.isDigit = false) {row : Row}
    (hwrite : ∀ t ∈ row.numbers, c ∉ (write t).toList) : ∀ s ∈ row.fields write, c ∉ s.toList := by
  have hnat := Text.notMem_toString hc
  cases row with
  | single i time =>
    simp only [Row.numbers, List.forall_mem_cons] at hwrite
    simp only [Row.fields, List.forall_mem_cons]
    exact ⟨hnat i, hwrite.1, List.forall_mem_nil _⟩
  | pair i j timeFirst timeSecond =>
    simp only [Row.numbers, List.forall_mem_cons] at hwrite
    simp only [Row.fields, List.forall_mem_cons]
    exact ⟨hnat i, hnat j, hwrite.1, hwrite.2.1, List.forall_mem_nil _⟩

theorem notMem_logFields (hc : c.isDigit = false) {line : LogLine}
    (hwrite : ∀ t ∈ line.numbers, c ∉ (write t).toList) :
    ∀ s ∈ line.fields write, c ∉ s.toList := by
  have hnat := Text.notMem_toString hc
  simp only [LogLine.numbers, List.forall_mem_cons] at hwrite
  obtain ⟨hstart, hend, hcomplexity, -⟩ := hwrite
  simp only [LogLine.fields, List.forall_mem_cons]
  exact ⟨hstart, hend, hnat _, hcomplexity, hnat _, hnat _, List.forall_mem_nil _⟩

theorem notMem_logHeader (hc : c.isDigit = false) (hsingle : c ∉ ("Log for slice=").toList)
    (hfirst : c ∉ ("Log for slice1=").toList) (hsecond : c ∉ ("|slice2=").toList) (row : Row) :
    c ∉ row.logHeader.toList := by
  have hnat := Text.notMem_toString hc
  cases row with
  | single i time =>
    rw [logHeader_single]
    exact Text.notMem_append hsingle (hnat i)
  | pair i j timeFirst timeSecond =>
    rw [logHeader_pair]
    exact Text.notMem_append (Text.notMem_append (Text.notMem_append hfirst (hnat i)) hsecond)
      (hnat j)

theorem readRow_text (h : Readable numbers write read) {row : Row}
    (hrow : ∀ t ∈ row.numbers, t ∈ numbers) : readRow read (row.text write) = some row := by
  have hfields := notMem_rowFields rfl fun t ht => h.comma t (hrow t ht)
  have hsplit : Text.split ',' (row.text write) = row.fields write := by
    apply Text.split_intercalate _ hfields
    cases row <;> exact List.cons_ne_nil _ _
  have hread : ∀ t ∈ row.numbers, read (write t) = some t :=
    fun t ht => h.read_write t (hrow t ht)
  unfold readRow
  rw [hsplit]
  cases row with
  | single i time =>
    have htime := hread time List.mem_cons_self
    simp [Row.fields, htime]
  | pair i j timeFirst timeSecond =>
    have hfirst := hread timeFirst List.mem_cons_self
    have hsecond := hread timeSecond (List.mem_cons_of_mem _ List.mem_cons_self)
    simp [Row.fields, hfirst, hsecond]

theorem readLogLine_text (h : Readable numbers write read) {line : LogLine}
    (hline : ∀ t ∈ line.numbers, t ∈ numbers) :
    readLogLine read (line.text write) = some line := by
  have hfields := notMem_logFields rfl fun t ht => h.comma t (hline t ht)
  have hsplit : Text.split ',' (line.text write) = line.fields write :=
    Text.split_intercalate (List.cons_ne_nil _ _) hfields
  have hread : ∀ t ∈ line.numbers, read (write t) = some t :=
    fun t ht => h.read_write t (hline t ht)
  simp only [LogLine.numbers, List.forall_mem_cons] at hread
  obtain ⟨hstart, hend, hcomplexity, -⟩ := hread
  unfold readLogLine
  rw [hsplit]
  simp [LogLine.fields, hstart, hend, hcomplexity]

theorem readLogHeader_logHeader (row : Row) : readLogHeader row.logHeader = some row.slices := by
  have hequals : ∀ n : ℕ, '=' ∉ (toString n).toList := Text.notMem_toString rfl
  have hbar : ∀ n : ℕ, '|' ∉ (toString n).toList := Text.notMem_toString rfl
  cases row with
  | single i time =>
    have hsplit : Text.split '=' (Row.single i time).logHeader = ["Log for slice", toString i] := by
      rw [← Text.split_of_notMem (hequals i), ← Text.split_append (by decide)]
      rfl
    unfold readLogHeader
    rw [hsplit]
    simp [Row.slices]
  | pair i j timeFirst timeSecond =>
    have hmiddle : Text.split '|' (toString i ++ "|slice2") = [toString i, "slice2"] := by
      rw [← Text.split_of_notMem (show '|' ∉ ("slice2").toList by decide),
        ← Text.split_append (hbar i)]
      rfl
    have hmem : '=' ∉ (toString i ++ "|slice2").toList :=
      Text.notMem_append (hequals i) (by decide)
    have hsplit : Text.split '=' (Row.pair i j timeFirst timeSecond).logHeader =
        ["Log for slice1", toString i ++ "|slice2", toString j] := by
      rw [← Text.split_of_notMem (hequals j), ← Text.split_append hmem,
        ← Text.split_append (by decide), logHeader_pair]
      have hfirst : "Log for slice1=" = "Log for slice1" ++ String.singleton '=' := rfl
      have hsecond : "|slice2=" = "|slice2" ++ String.singleton '=' := rfl
      rw [hfirst, hsecond]
      simp only [String.append_assoc]
    unfold readLogHeader
    rw [hsplit]
    simp only [hmiddle, Text.toNat?_toString, Option.bind_eq_bind, Option.bind_some, Row.slices]

/-- A header is no completion: it is a single field. -/
theorem readLogLine_logHeader (row : Row) : readLogLine read row.logHeader = none := by
  have hsplit : Text.split ',' row.logHeader = [row.logHeader] :=
    Text.split_of_notMem (notMem_logHeader rfl (by decide) (by decide) (by decide) row)
  unfold readLogLine
  rw [hsplit]

end Lines

/-! ## Files -/

section Files

variable {numbers : Set ℚ} {write : ℚ → String} {read : String → Option ℚ} {o : Options}

theorem writeToStream_eq {α : Type} {f : α → String} {range : List α} {text : String}
    (h : writeToStream f range = some text) :
    range ≠ [] ∧ text = String.intercalate "-" (range.map f) := by
  cases range with
  | nil => cases h
  | cons x rest =>
    refine ⟨List.cons_ne_nil _ _, ?_⟩
    rw [← Option.some.inj h, Text.foldl_append_intercalate, List.map_cons]

theorem notMem_writeToStream {α : Type} {f : α → String} {range : List α} {text : String} {c : Char}
    (hc : c ∉ ("-").toList) (hf : ∀ x ∈ range, c ∉ (f x).toList)
    (h : writeToStream f range = some text) : c ∉ text.toList := by
  obtain ⟨-, rfl⟩ := writeToStream_eq h
  apply Text.notMem_intercalate hc
  intro s hs
  obtain ⟨x, hx, rfl⟩ := List.mem_map.mp hs
  exact hf x hx

theorem readSlices_line {slices : List ℕ} {slicesLine : String}
    (h : writeToStream toString slices = some slicesLine) :
    readSlices ("Slices=" ++ slicesLine) = some slices := by
  have hequals := notMem_writeToStream (c := '=') (by decide)
    (fun n _ => Text.notMem_toString rfl n) h
  obtain ⟨hne, rfl⟩ := writeToStream_eq h
  have hsplit : Text.split '=' ("Slices=" ++ String.intercalate "-" (slices.map toString)) =
      ["Slices", String.intercalate "-" (slices.map toString)] := by
    rw [← Text.split_of_notMem hequals, ← Text.split_append (by decide)]
    rfl
  have hfields : Text.split '-' (String.intercalate "-" (slices.map toString)) =
      slices.map toString := by
    apply Text.split_intercalate (by simpa using hne)
    intro s hs
    obtain ⟨n, -, rfl⟩ := List.mem_map.mp hs
    exact Text.notMem_toString rfl n
  unfold readSlices
  rw [hsplit]
  simp only [hfields]
  rw [List.mapM_map, mapM_eq_some_iff, List.forall₂_same]
  intro n _
  exact Text.toNat?_toString n

/-- No line of the result file contains a newline. -/
theorem notMem_reportLines {slices : List ℕ} {report : Report}
    (hoptions : ∀ t ∈ o.numbers, '\n' ∉ (write t).toList)
    (hrows : ∀ row ∈ report.rows, ∀ t ∈ row.numbers, '\n' ∉ (write t).toList)
    (hslices : writeToStream toString slices = some report.slicesLine)
    (hmips : writeToStream write o.mips = some report.mipsMultipliersLine) :
    ∀ l ∈ reportLines write o report, '\n' ∉ l.toList := by
  have hnat : ∀ n : ℕ, '\n' ∉ (toString n).toList := Text.notMem_toString rfl
  simp only [Options.numbers, List.forall_mem_cons] at hoptions
  obtain ⟨hnominalMips, hbandwidth, hping, hrates⟩ := hoptions
  have hsize : '\n' ∉ ("ProblemSize=" ++ toString o.problemSize).toList :=
    Text.notMem_append (by decide) (hnat _)
  have hnominal := Text.notMem_append
    (Text.notMem_append hsize (show '\n' ∉ ("|||NominalMips=").toList by decide))
    hnominalMips
  have htransfer := Text.notMem_append
    (Text.notMem_append hnominal (show '\n' ∉ ("|||Bandwidth=").toList by decide)) hbandwidth
  have hheader : '\n' ∉ (headerLine write o).toList :=
    Text.notMem_append (Text.notMem_append htransfer (show '\n' ∉ ("|||Ping=").toList by decide))
      hping
  have hslicesLine : '\n' ∉ ("Slices=" ++ report.slicesLine).toList :=
    Text.notMem_append (by decide) (notMem_writeToStream (by decide) (fun n _ => hnat n) hslices)
  have hmipsLine : '\n' ∉ ("MipsMultipliers=" ++ report.mipsMultipliersLine).toList :=
    Text.notMem_append (by decide) (notMem_writeToStream (by decide) hrates hmips)
  have hcolumns : '\n' ∉ (columnsLine o).toList := by
    unfold columnsLine
    split <;> decide
  simp only [reportLines, List.forall_mem_append, List.forall_mem_cons, List.forall_mem_map]
  refine ⟨⟨hheader, hslicesLine, hmipsLine, hcolumns, List.forall_mem_nil _⟩, fun row hrow => ?_⟩
  exact Text.notMem_intercalate (by decide) (notMem_rowFields rfl (hrows row hrow))

/-- The slices and the rows of a report come back. -/
theorem readTable_reportLines (h : Readable numbers write read) {slices : List ℕ} {report : Report}
    (hoptions : ∀ t ∈ o.numbers, t ∈ numbers)
    (hreport : ∀ row ∈ report.rows, ∀ t ∈ row.numbers, t ∈ numbers)
    (hslices : writeToStream toString slices = some report.slicesLine)
    (hmips : writeToStream write o.mips = some report.mipsMultipliersLine) :
    readTable read (Text.unlines (reportLines write o report)) = some ⟨slices, report.rows⟩ := by
  have hrows : (report.rows.map (Row.text write)).mapM (readRow read) = some report.rows := by
    rw [List.mapM_map, mapM_eq_some_iff, List.forall₂_same]
    intro row hrow
    exact readRow_text h (hreport row hrow)
  have hlines := notMem_reportLines (fun t ht => h.newline t (hoptions t ht))
    (fun row hrow t ht => h.newline t (hreport row hrow t ht)) hslices hmips
  unfold readTable
  rw [Text.lines_unlines hlines]
  simp only [reportLines, List.cons_append, List.nil_append, readSlices_line hslices, hrows,
    Option.bind_eq_bind, Option.bind_some]

theorem Entry.mem_numbers_of_mem_log {e : Entry} {line : LogLine} (hline : line ∈ e.log) {t : ℚ}
    (ht : t ∈ line.numbers) : t ∈ e.numbers :=
  List.mem_append_right _ (List.mem_flatMap.mpr ⟨line, hline, ht⟩)

/-- No line of the log contains a newline. -/
theorem notMem_logLines {es : List Entry}
    (hwrite : ∀ e ∈ es, ∀ t ∈ e.numbers, '\n' ∉ (write t).toList) :
    ∀ l ∈ es.flatMap (Entry.logLines write), '\n' ∉ l.toList := by
  intro l hl
  obtain ⟨e, he, hl⟩ := List.mem_flatMap.mp hl
  rw [Entry.logLines, List.mem_cons] at hl
  rcases hl with rfl | hl
  · exact notMem_logHeader rfl (by decide) (by decide) (by decide) e.row
  · obtain ⟨line, hline, rfl⟩ := List.mem_map.mp hl
    have hnumbers : ∀ t ∈ line.numbers, '\n' ∉ (write t).toList :=
      fun t ht => hwrite e he t (Entry.mem_numbers_of_mem_log hline ht)
    exact Text.notMem_intercalate (by decide) (notMem_logFields rfl hnumbers)

/-- The block of an entry. -/
def Entry.block (e : Entry) : Block := ⟨e.row.slices, e.log⟩

/-- Completions go to the block that follows. -/
theorem readBlocks_completions (h : Readable numbers write read) {log : List LogLine}
    (hlog : ∀ line ∈ log, ∀ t ∈ line.numbers, t ∈ numbers) (rest : List String) :
    readBlocks read (log.map (LogLine.text write) ++ rest) =
      (readBlocks read rest).map fun x => (log ++ x.1, x.2) := by
  induction log with
  | nil => simp
  | cons line log ih =>
    rw [List.forall_mem_cons] at hlog
    rw [List.map_cons, List.cons_append, readBlocks, ih hlog.2]
    cases readBlocks read rest with
    | none => rfl
    | some x => simp [readLogLine_text h hlog.1]

theorem readBlocks_logLines (h : Readable numbers write read) {es : List Entry}
    (hes : ∀ e ∈ es, ∀ t ∈ e.numbers, t ∈ numbers) :
    readBlocks read (es.flatMap (Entry.logLines write)) = some ([], es.map Entry.block) := by
  induction es with
  | nil => rfl
  | cons e es ih =>
    rw [List.forall_mem_cons] at hes
    have hlog : ∀ line ∈ e.log, ∀ t ∈ line.numbers, t ∈ numbers :=
      fun line hline t ht => hes.1 t (Entry.mem_numbers_of_mem_log hline ht)
    rw [List.flatMap_cons, Entry.logLines, List.cons_append, readBlocks,
      readBlocks_completions h hlog, ih hes.2]
    simp [readLogLine_logHeader, readLogHeader_logHeader, Entry.block]

/-- The blocks of the log come back. -/
theorem readLog_logLines (h : Readable numbers write read) {es : List Entry}
    (hes : ∀ e ∈ es, ∀ t ∈ e.numbers, t ∈ numbers) :
    readLog read (Text.unlines (es.flatMap (Entry.logLines write))) =
      some (es.map Entry.block) := by
  have hlines := notMem_logLines fun e he t ht => h.newline t (hes e he t ht)
  rw [readLog, Text.lines_unlines hlines, readBlocks_logLines h hes]
  rfl

end Files

/-! ## What the log explains -/

section Explained

variable {w : Width} {procs : List Processor} {procComp : Comparator Processor}
  {taskComp : Comparator SimpleTask} {tp : TaskProcessorWithTransfer} {problemSize : ℕ}
  {tasks : List SimpleTask} {log : List LogLine}

/-- Among the lines of some completions the first of a user is that of the user's first
    completion. -/
theorem find?_logLines {cs : List (TaskCompletition TaskPtr)}
    (h : cs.mapM (logLine tasks) = some log) (u : UInt8) :
    (log.find? (·.userid = u.toNat)).map (·.timeEnd) = firstEnd tasks cs u := by
  rw [mapM_eq_some_iff] at h
  induction h with
  | nil => rfl
  | @cons c line cs log hc _ ih =>
    obtain ⟨task, htask, rfl⟩ := Option.map_eq_some_iff.mp hc
    have huser : userOf tasks c = some task.userid := by rw [userOf, htask]; rfl
    by_cases hu : task.userid = u
    · rw [firstEnd_cons_of_eq (huser.trans (congrArg some hu))]
      simp [hu]
    · have hne : userOf tasks c ≠ some u := by
        rw [huser]
        exact fun h => hu (Option.some.inj h)
      have hne' : task.userid.toNat ≠ u.toNat := fun h => hu (UInt8.toNat_inj.mp h)
      rw [firstEnd_cons_of_ne hne, ← ih, List.find?_cons_of_neg (by simpa using hne')]

/-- The log gives the times that `simulate` reports. -/
theorem times_eq_lastEnd {std : StdAlgorithms} {g : Shuffle} {nUserHint : UInt8} {shuffle : Bool}
    {r : SimulateResult} (husers : ∀ t ∈ tasks, t.userid < nUserHint)
    (hr : simulate std g procs procComp tasks taskComp tp nUserHint shuffle true = some r)
    (hlog : logged true r = some log) :
    r.times.length = nUserHint.toNat ∧
      ∀ u < nUserHint, r.times[u.toNat]? = some ((lastEnd log u.toNat).getD 0) := by
  obtain ⟨out, hcall, hsim, -⟩ := simulate_log std g procs procComp tasks taskComp tp shuffle
  have htask := simulate_log_task_lt std g procs procComp tasks taskComp tp shuffle hcall
  have hperm := sortedTasks_perm std g tasks taskComp shuffle
  obtain ⟨times, hcollect, hlen, htimes⟩ := collectTimes_log
    (fun t ht => husers t (hperm.mem_iff.mp ht)) htask
  rw [hsim, reported, hcollect] at hr
  cases hr
  refine ⟨hlen, fun u hu => ?_⟩
  have hreverse : out.reverse.mapM (logLine (sortedTasks std g tasks taskComp shuffle)) =
      some log.reverse :=
    mapM_eq_some_iff.mpr (List.rel_reverse (mapM_eq_some_iff.mp hlog))
  rw [htimes u hu, lastEnd, find?_logLines hreverse]

theorem singleEntry_block (hN : w.Fits problemSize) {outcome : Outcome} {i : ℕ} {e : Entry}
    (h : singleEntry w procs procComp taskComp tp problemSize true outcome i = some e) :
    e.block.row = some e.row := by
  simp only [singleEntry, Option.bind_eq_bind, Option.bind_eq_some_iff, Option.some.injEq] at h
  obtain ⟨tasks, hcreate, r, hr, log, hlog, time, htime, rfl⟩ := h
  have hi : ∀ s ∈ [i], 0 < s := Mmsim.pos_of_createTasks hcreate
  rw [Mmsim.createTasks_eq hN [i] hi] at hcreate
  cases hcreate
  have hfinishing := (times_eq_lastEnd (Mmsim.userid_lt_of_mem_tasksFrom Nat.one_le_ofNat) hr
    hlog).2 0 Nat.zero_lt_one
  rw [show (0 : UInt8).toNat = 0 from rfl, htime] at hfinishing
  simp only [Entry.block, Row.slices, Block.row, ← Option.some.inj hfinishing]

theorem pairEntry_block (hN : w.Fits problemSize) {randomizeCount : ℕ} (hcount : randomizeCount ≤ 1)
    {outcomes : ℕ → Outcome} {i j : ℕ} {e : Entry}
    (h : pairEntry w procs procComp taskComp tp problemSize true randomizeCount outcomes i j =
      some e) : e.block.row = some e.row := by
  simp only [pairEntry, Option.bind_eq_bind, Option.bind_eq_some_iff, Option.some.injEq] at h
  obtain ⟨tasks, hcreate, r, hr, log, hlog, timesArray, hloop, timeFirst, hfirst, timeSecond,
    hsecond, rfl⟩ := h
  have hs : ∀ s ∈ [i, j], 0 < s := Mmsim.pos_of_createTasks hcreate
  rw [Mmsim.createTasks_eq hN [i, j] hs] at hcreate
  cases hcreate
  -- one simulation, so there is nothing to add and nothing to divide by
  have htimes : timesArray = r.times := by
    rw [Nat.sub_eq_zero_of_le hcount] at hloop
    exact (Option.some.inj hloop).symm
  have hdivide : (if randomizeCount ≠ 0 then timesArray.map (· / (randomizeCount : ℚ))
      else timesArray) = r.times := by
    rcases Nat.le_one_iff_eq_zero_or_eq_one.mp hcount with rfl | rfl <;> simp [htimes]
  rw [hdivide] at hfirst hsecond
  have hfinishing := (times_eq_lastEnd
    (Mmsim.userid_lt_of_mem_tasksFrom (Nat.le_of_ble_eq_true rfl)) hr hlog).2
  have hzero := hfinishing 0 Nat.zero_lt_two
  have hone := hfinishing 1 Nat.one_lt_two
  rw [show (0 : UInt8).toNat = 0 from rfl, hfirst] at hzero
  rw [show (1 : UInt8).toNat = 1 from rfl, hsecond] at hone
  simp only [Entry.block, Row.slices, Block.row, ← Option.some.inj hzero, ← Option.some.inj hone]

end Explained

/-! ## A format -/

/-- Whole numbers as a stream writes them, other numbers as fractions. -/
def exactText (q : ℚ) : String :=
  if q.den = 1 then toString q.num else toString q.num ++ "/" ++ toString q.den

def readExact (text : String) : Option ℚ :=
  match Text.split '/' text with
  | [num] => num.toInt?.map Int.cast
  | [num, den] => do
    some (mkRat (← num.toInt?) (← den.toNat?))
  | _ => none

theorem notMem_exactText {c : Char} (hc : c.isDigit = false) (hminus : c ≠ '-')
    (hslash : c ∉ ("/").toList) (q : ℚ) : c ∉ (exactText q).toList := by
  have hnum := Text.notMem_toString_int hc hminus q.num
  unfold exactText
  split
  · exact hnum
  · exact Text.notMem_append (Text.notMem_append hnum hslash) (Text.notMem_toString hc q.den)

theorem exactText_readable (numbers : Set ℚ) : Readable numbers exactText readExact where
  read_write q _ := by
    have hnum := Text.notMem_toString_int (c := '/') rfl (by decide) q.num
    have hden := Text.notMem_toString (c := '/') rfl q.den
    rcases eq_or_ne q.den 1 with hone | hone
    · rw [exactText, if_pos hone, readExact, Text.split_of_notMem hnum]
      simp only [Text.toInt?_toString, Option.map_some, Rat.coe_int_num_of_den_eq_one hone]
    · have hsplit : Text.split '/' (toString q.num ++ "/" ++ toString q.den) =
          [toString q.num, toString q.den] := by
        rw [← Text.split_of_notMem hden, ← Text.split_append hnum, String.append_assoc]
        rfl
      rw [exactText, if_neg hone, readExact, hsplit]
      simp only [Text.toInt?_toString, Text.toNat?_toString, Option.bind_eq_bind, Option.bind_some,
        Rat.mkRat_self]
  comma q _ := notMem_exactText rfl (by decide) (by decide) q
  newline q _ := notMem_exactText rfl (by decide) (by decide) q

/-! ## Runs -/

/-- The blocks of a run with at most one simulation for each row lead to its rows. -/
theorem entries_blocks {w : Width} {outcomes : ℕ → ℕ → Outcome} {o : Options}
    {taskComp : Comparator SimpleTask} {procComp : Comparator Processor} {slices : List ℕ}
    {es : List Entry} (hN : w.Fits o.problemSize) (hlog : o.simLog = true)
    (hcount : o.singlePlayer = true ∨ o.randomizeCount ≤ 1)
    (h : entries w outcomes o taskComp procComp slices = some es) :
    (es.map Entry.block).mapM Block.row = some (es.map (·.row)) := by
  have hall : ∀ e ∈ es, e.block.row = some e.row := by
    unfold entries at h
    rw [hlog] at h
    intro e he
    split at h
    · obtain ⟨x, -, hx⟩ := exists_of_mem_mapM h he
      exact singleEntry_block hN hx
    · rename_i hpair
      obtain ⟨x, -, hx⟩ := exists_of_mem_mapM h he
      exact pairEntry_block hN (hcount.resolve_left hpair) hx
  rw [List.mapM_map, mapM_eq_some_iff, List.forall₂_map_right_iff, List.forall₂_same]
  exact hall

section Runs

variable {w : Width} {fuel : ℕ} {outcomes : ℕ → ℕ → Outcome} {write : ℚ → String}
  {read : String → Option ℚ} {o : Options} {st : Streams}

/-- A run that wrote its files has a report, and the files are those of this report. The
    numbers in them are the ones that count as written. -/
theorem exists_report_of_writeFiles (h : writeFiles w fuel outcomes write o = .ok (some st)) :
    ∃ taskComp procComp slices report es, expandSlices w fuel o.slices = some slices ∧
      writeToStream toString slices = some report.slicesLine ∧
      writeToStream write o.mips = some report.mipsMultipliersLine ∧
      run w fuel outcomes write o = .ok (some report) ∧
      entries w outcomes o taskComp procComp slices = some es ∧ report.rows = es.map (·.row) ∧
      st.file = Text.unlines (reportLines write o report) ∧
      st.simLogFile = Text.unlines (logLines write o es) ∧
      ∀ e ∈ es, ∀ t ∈ e.numbers, t ∈ writtenNumbers w fuel outcomes o := by
  unfold writeFiles at h
  unfold run
  cases htask : taskComparator o.taskPriority with
  | error e => rw [htask] at h; cases h
  | ok taskComp =>
    cases hproc : procComparator o.procPriority with
    | error e => rw [htask, hproc] at h; cases h
    | ok procComp =>
      rw [htask, hproc] at h
      obtain ⟨slices, report, es, hslices, hline, hrun, hes, hrows, hst⟩ :=
        writeAccepted_eq_some_iff.mp (Except.ok.inj h)
      obtain ⟨_, -, -, hmips, -⟩ := runAccepted_eq_some_iff.mp hrun
      refine ⟨taskComp, procComp, slices, report, es, hslices, hline, hmips,
        congrArg Except.ok hrun, hes, hrows, ?_, ?_, fun e he t ht => ?_⟩
      · rw [hst]
      · rw [hst]
      · exact .inr ⟨taskComp, procComp, slices, es, htask, hproc, hslices, hes, e, he, ht⟩

/-- The times in the rows of a report are numbers of its entries. -/
theorem forall_mem_rows_numbers {numbers : Set ℚ} {report : Report} {es : List Entry}
    (hrows : report.rows = es.map (·.row)) (hes : ∀ e ∈ es, ∀ t ∈ e.numbers, t ∈ numbers) :
    ∀ row ∈ report.rows, ∀ t ∈ row.numbers, t ∈ numbers := by
  rw [hrows, List.forall_mem_map]
  intro e he t ht
  exact hes e he t (List.mem_append_left _ ht)

end Runs

/-- Reading the result file gives the slices of the run and the rows of its report, if the
    numbers in it are written in a format that can be read. -/
theorem result_file_reads_back (w : Width) (fuel : ℕ) (outcomes : ℕ → ℕ → Outcome)
    (write : ℚ → String) (read : String → Option ℚ) (o : Options)
    (hformat : Readable (writtenNumbers w fuel outcomes o) write read) (st : Streams)
    (hwrite : writeFiles w fuel outcomes write o = .ok (some st)) :
    ∃ slices report, expandSlices w fuel o.slices = some slices ∧
      run w fuel outcomes write o = .ok (some report) ∧
      readTable read st.file = some ⟨slices, report.rows⟩ := by
  obtain ⟨_, _, slices, report, es, hslices, hline, hmips, hrun, -, hrows, hfile, -, hnumbers⟩ :=
    exists_report_of_writeFiles hwrite
  refine ⟨slices, report, hslices, hrun, ?_⟩
  rw [hfile]
  exact readTable_reportLines hformat (fun t ht => .inl ht) (forall_mem_rows_numbers hrows hnumbers)
    hline hmips

/-- The options of the examples: all times are whole numbers. -/
def wholeTimes : Options where
  problemSize := 5
  nominalMips := 1
  mips := [1]
  bandwidth := 64
  ping := 1
  slices := [2, 3]
  simLog := true

theorem exists_writeFiles_wholeTimes : ∃ st, writeFiles (.bits 64) 1
    (fun _ _ => ⟨.reference, .identity⟩) exactText wholeTimes = .ok (some st) := by
  have hN : (Width.bits 64).Fits 5 := by
    change 5 < 2 ^ 64
    decide
  have hexpand : expandSlices (.bits 64) 1 [2, 3] = some [2, 3] := rfl
  obtain ⟨report, hreport⟩ := (exists_runAccepted_iff (o := wholeTimes) hN 1
    (fun _ _ => ⟨.reference, .identity⟩) exactText SimpleTask.smallFirst Processor.slowFirst).mpr
    ⟨by decide, _, hexpand, by decide, by decide⟩
  obtain ⟨es, hfiles⟩ := writeAccepted_files (.bits 64) 1 (fun _ _ => ⟨.reference, .identity⟩)
    exactText wholeTimes SimpleTask.smallFirst Processor.slowFirst
  rw [hreport, Option.map_some] at hfiles
  have htask : taskComparator wholeTimes.taskPriority = .ok SimpleTask.smallFirst :=
    priorityComparator_min _ _ _
  have hproc : procComparator wholeTimes.procPriority = .ok Processor.slowFirst :=
    priorityComparator_min _ _ _
  obtain ⟨st, hst⟩ : ∃ st, writeAccepted (.bits 64) 1 (fun _ _ => ⟨.reference, .identity⟩) exactText
      wholeTimes SimpleTask.smallFirst Processor.slowFirst = some st := ⟨_, hfiles⟩
  refine ⟨st, ?_⟩
  rw [writeFiles, htask, hproc, ← hst]
  rfl

theorem result_file_reads_back_whole_times :
    ∃ st slices report, writeFiles (.bits 64) 1 (fun _ _ => ⟨.reference, .identity⟩) exactText
        wholeTimes = .ok (some st) ∧
      run (.bits 64) 1 (fun _ _ => ⟨.reference, .identity⟩) exactText wholeTimes =
        .ok (some report) ∧
      readTable readExact st.file = some ⟨slices, report.rows⟩ := by
  obtain ⟨st, hwrite⟩ := exists_writeFiles_wholeTimes
  obtain ⟨slices, report, -, hrun, hread⟩ := result_file_reads_back (.bits 64) 1
    (fun _ _ => ⟨.reference, .identity⟩) exactText readExact wholeTimes (exactText_readable _) st
    hwrite
  exact ⟨st, slices, report, hwrite, hrun, hread⟩

/-- With `sim_log` and at most one simulation for each row, the rows of the result file can be
    computed from the log: each time is the end of the last completion that the row's block
    of the log has of the player. As before the numbers have to be readable. -/
theorem log_explains_result_file (w : Width) (fuel : ℕ) (outcomes : ℕ → ℕ → Outcome)
    (write : ℚ → String) (read : String → Option ℚ) (o : Options)
    (hformat : Readable (writtenNumbers w fuel outcomes o) write read) (hN : w.Fits o.problemSize)
    (hlog : o.simLog = true) (hcount : o.singlePlayer = true ∨ o.randomizeCount ≤ 1) (st : Streams)
    (hwrite : writeFiles w fuel outcomes write o = .ok (some st)) :
    ∃ table blocks, readTable read st.file = some table ∧
      readLog read st.simLogFile = some blocks ∧ blocks.mapM Block.row = some table.rows := by
  obtain ⟨_, _, slices, report, es, -, hline, hmips, -, hes, hrows, hfile, hlogFile, hnumbers⟩ :=
    exists_report_of_writeFiles hwrite
  refine ⟨⟨slices, report.rows⟩, es.map Entry.block, ?_, ?_, ?_⟩
  · rw [hfile]
    exact readTable_reportLines hformat (fun t ht => .inl ht)
      (forall_mem_rows_numbers hrows hnumbers) hline hmips
  · rw [hlogFile, logLines, if_pos hlog]
    exact readLog_logLines hformat hnumbers
  · rw [hrows]
    exact entries_blocks hN hlog hcount hes

theorem log_explains_result_file_whole_times :
    ∃ st table blocks, writeFiles (.bits 64) 1 (fun _ _ => ⟨.reference, .identity⟩) exactText
        wholeTimes = .ok (some st) ∧
      readTable readExact st.file = some table ∧
      readLog readExact st.simLogFile = some blocks ∧
      blocks.mapM Block.row = some table.rows := by
  obtain ⟨st, hwrite⟩ := exists_writeFiles_wholeTimes
  obtain ⟨table, blocks, htable, hblocks, hrows⟩ := log_explains_result_file (.bits 64) 1
    (fun _ _ => ⟨.reference, .identity⟩) exactText readExact wholeTimes (exactText_readable _)
    (show 5 < 2 ^ 64 by decide) rfl (.inr le_rfl) st hwrite
  exact ⟨st, table, blocks, hwrite, htable, hblocks, hrows⟩

end Smpp.Main
