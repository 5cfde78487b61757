-- SUMMARY: Exactly when `simulate` and the whole program are defined.
import Smpp.Correctness.RunRows

/-!
# Definedness

The loops of a simulation never fail, whatever the durations. What may fail is the scan
of the log, when a task belongs to a user beyond the hint, and what the program does
around its simulations: expand a range, divide by a slice, write a range.
-/

namespace Smpp

open TaskProcessorWithTransfer

/-! ## The scan -/

section Scan

variable {tasks : List SimpleTask} {nUserHint : UInt8}

section ScanPasses

variable {idx : Finset UInt8} {curr : TaskCompletition TaskPtr}
  {log : List (TaskCompletition TaskPtr)} {v : UInt8}

end ScanPasses

end Scan

/-! ## `simulate` -/

namespace Main

section Rows

variable {w : Width} {procs : List Processor} {procComp : Comparator Processor}
  {taskComp : Comparator SimpleTask} {tp : TaskProcessorWithTransfer} {problemSize : ℕ}
  {simLog : Bool}

/-- Users within the hint are all that `simulate` asks for. -/
theorem exists_simulate_of_users (std : StdAlgorithms) (g : Shuffle) (procs : List Processor)
    (procComp : Comparator Processor) (tasks : List SimpleTask) (taskComp : Comparator SimpleTask)
    (tp : TaskProcessorWithTransfer) (nUserHint : UInt8) (shuffle returnProcessed : Bool)
    (husers : ∀ t ∈ tasks, t.userid < nUserHint) :
    ∃ r, simulate std g procs procComp tasks taskComp tp nUserHint shuffle returnProcessed =
      some r ∧ r.times.length = nUserHint.toNat := by
  obtain ⟨out, hcall, hsim, -⟩ := simulate_log std g procs procComp tasks taskComp tp shuffle
  have hlog := simulate_log_task_lt std g procs procComp tasks taskComp tp shuffle hcall
  have husers' : ∀ t ∈ sortedTasks std g tasks taskComp shuffle, t.userid < nUserHint :=
    fun t ht => husers t ((sortedTasks_perm std g tasks taskComp shuffle).mem_iff.mp ht)
  obtain ⟨times, hcollect, hlen, -⟩ := collectTimes_log husers' hlog
  exact ⟨_, by rw [hsim, reported, hcollect]; rfl, hlen⟩

/-- A row for a single player is defined unless its slice is zero. -/
theorem exists_singlePlayerRow_iff (hN : w.Fits problemSize) (outcome : Outcome) (i : ℕ) :
    (∃ row, singlePlayerRow w procs procComp taskComp tp problemSize simLog outcome i = some row) ↔
      1 ≤ i := by
  constructor
  · rintro ⟨row, hrow⟩
    simp only [singlePlayerRow, Option.bind_eq_bind, Option.bind_eq_some_iff] at hrow
    obtain ⟨tasks, htasks, -⟩ := hrow
    exact Mmsim.pos_of_createTasks htasks i List.mem_cons_self
  · intro hi
    have hcreate := Mmsim.createTasks_eq hN [i] (List.forall_mem_singleton.mpr hi)
    have husers : ∀ t ∈ Mmsim.tasksFrom w problemSize [i] 0, t.userid < 1 :=
      Mmsim.userid_lt_of_mem_tasksFrom Nat.one_le_ofNat
    obtain ⟨r, hr, hlen⟩ := exists_simulate_of_users outcome.std outcome.g procs procComp _ taskComp
      tp 1 false simLog husers
    obtain ⟨x, hx⟩ := List.length_eq_one_iff.mp hlen
    exact ⟨.single i x, by simp [singlePlayerRow, hcreate, hr, hx]⟩

/-- A row has the averages of two times `a k` and `b k` for each simulation `k`, of which
    holds what holds of the times of every defined simulation. -/
theorem exists_twoPlayersRow_of_simulations {tasks : List SimpleTask} {randomizeCount : ℕ}
    {outcomes : ℕ → Outcome} {i j : ℕ} {P : ℕ → ℚ → ℚ → Prop}
    (hcreate : Mmsim.createTasks w problemSize [i, j] = some tasks)
    (hsim : ∀ k returnProcessed, ∃ x y r, P k x y ∧
      simulate (outcomes k).std (outcomes k).g procs procComp tasks taskComp tp 2
        (decide (randomizeCount ≠ 0)) returnProcessed = some r ∧ r.times = [x, y]) :
    ∃ a b : ℕ → ℚ, (∀ k, P k (a k) (b k)) ∧
      twoPlayersRow w procs procComp taskComp tp problemSize simLog randomizeCount outcomes i j =
        some (.pair i j (average randomizeCount a) (average randomizeCount b)) := by
  -- only the first simulation may be asked for its log
  choose a b r hP hr using fun k => hsim k (decide (k = 0) && simLog)
  refine ⟨a, b, hP, twoPlayersRow_eq randomizeCount hcreate ⟨r 0, hr 0⟩ fun k hk => ?_⟩
  have hk0 : (decide (k = 0) && simLog) = false := by simp [Nat.one_le_iff_ne_zero.mp hk]
  have hrest := hr k
  rw [hk0] at hrest
  exact ⟨r k, hrest⟩

/-- A row for two players is defined unless one of the slices is zero. -/
theorem exists_twoPlayersRow_iff (hN : w.Fits problemSize) (randomizeCount : ℕ)
    (outcomes : ℕ → Outcome) (i j : ℕ) :
    (∃ row, twoPlayersRow w procs procComp taskComp tp problemSize simLog randomizeCount outcomes i
      j = some row) ↔ 1 ≤ i ∧ 1 ≤ j := by
  constructor
  · rintro ⟨row, hrow⟩
    simp only [twoPlayersRow, Option.bind_eq_bind, Option.bind_eq_some_iff] at hrow
    obtain ⟨tasks, htasks, -⟩ := hrow
    have hpos := Mmsim.pos_of_createTasks htasks
    exact ⟨hpos i List.mem_cons_self, hpos j (List.mem_cons_of_mem _ List.mem_cons_self)⟩
  · rintro ⟨hi, hj⟩
    have hcreate := Mmsim.createTasks_eq hN [i, j]
      (List.forall_mem_cons.mpr ⟨hi, List.forall_mem_singleton.mpr hj⟩)
    have husers : ∀ t ∈ Mmsim.tasksFrom w problemSize [i, j] 0, t.userid < 2 :=
      Mmsim.userid_lt_of_mem_tasksFrom (Nat.le_of_ble_eq_true rfl)
    obtain ⟨a, b, -, hrow⟩ := exists_twoPlayersRow_of_simulations (P := fun _ _ _ => True) hcreate
      fun k returnProcessed => by
        obtain ⟨r, hr, hlen⟩ := exists_simulate_of_users (outcomes k).std (outcomes k).g procs
          procComp _ taskComp tp 2 (decide (randomizeCount ≠ 0)) returnProcessed husers
        obtain ⟨x, y, htimes⟩ := List.length_eq_two.mp hlen
        exact ⟨x, y, r, trivial, hr, htimes⟩
    exact ⟨_, hrow⟩

end Rows

/-- What is written as a range has to have something in it. -/
theorem exists_writeToStream_iff {α : Type} (write : α → String) {range : List α} :
    (∃ text, writeToStream write range = some text) ↔ range ≠ [] := by
  constructor
  · rintro ⟨text, htext⟩ rfl
    cases htext
  · intro hne
    obtain ⟨x, rest, rfl⟩ := List.exists_cons_of_ne_nil hne
    exact ⟨_, rfl⟩

/-- No pair has a zero if no slice is one: a fixed slice is not. -/
theorem forall_mem_pairs_iff {fixFirst : ℕ} {slices : List ℕ} (hne : slices ≠ []) :
    (∀ x ∈ pairs fixFirst slices, 1 ≤ x.1 ∧ 1 ≤ x.2) ↔ ∀ s ∈ slices, 1 ≤ s := by
  constructor
  · intro h s hs
    have hfirst : ∃ i, i ∈ (if fixFirst = 0 then slices else [fixFirst]) := by
      apply List.exists_mem_of_ne_nil
      split
      · exact hne
      · exact List.cons_ne_nil _ _
    obtain ⟨i, hi⟩ := hfirst
    exact (h (i, s) (mem_pairs.mpr ⟨hi, hs⟩)).2
  · intro h x hx
    obtain ⟨hi, hj⟩ := mem_pairs.mp hx
    refine ⟨?_, h _ hj⟩
    split at hi
    · exact h _ hi
    · rename_i hfix
      rw [List.mem_singleton.mp hi]
      exact Nat.one_le_iff_ne_zero.mpr hfix

/-- Accepted options lead to a report if and only if there are processors and the slices
    expand, within the fuel, to a range that is not empty and has no zero. -/
theorem exists_runAccepted_iff {w : Width} {o : Options} (hN : w.Fits o.problemSize) (fuel : ℕ)
    (outcomes : ℕ → ℕ → Outcome) (write : ℚ → String) (taskComp : Comparator SimpleTask)
    (procComp : Comparator Processor) :
    (∃ report, runAccepted w fuel outcomes write o taskComp procComp = some report) ↔
      o.mips ≠ [] ∧ ∃ slices, expandSlices w fuel o.slices = some slices ∧ slices ≠ [] ∧
        ∀ s ∈ slices, 1 ≤ s := by
  have hrows : ∀ slices : List ℕ, slices ≠ [] →
      ((∃ rows, Main.rows w outcomes o taskComp procComp slices = some rows) ↔
        ∀ s ∈ slices, 1 ≤ s) := by
    intro slices hne
    rw [Main.rows]
    split
    · simp only [exists_mapM_iff, singleRow, exists_singlePlayerRow_iff hN]
      exact forall_mem_zipIdx_iff (P := (1 ≤ ·))
    · simp only [exists_mapM_iff, pairRow, exists_twoPlayersRow_iff hN]
      exact (forall_mem_zipIdx_iff (P := fun x : ℕ × ℕ => 1 ≤ x.1 ∧ 1 ≤ x.2)).trans
        (forall_mem_pairs_iff hne)
  constructor
  · rintro ⟨report, hreport⟩
    obtain ⟨slices, hslices, hline, hmips, hreportRows⟩ := runAccepted_eq_some_iff.mp hreport
    have hne := (exists_writeToStream_iff toString).mp ⟨_, hline⟩
    exact ⟨(exists_writeToStream_iff write).mp ⟨_, hmips⟩, slices, hslices, hne,
      (hrows slices hne).mp ⟨_, hreportRows⟩⟩
  · rintro ⟨hmips, slices, hslices, hne, hpos⟩
    obtain ⟨slicesLine, hline⟩ := (exists_writeToStream_iff toString).mpr hne
    obtain ⟨mipsMultipliersLine, hmipsLine⟩ := (exists_writeToStream_iff write).mpr hmips
    obtain ⟨reportRows, hreportRows⟩ := (hrows slices hne).mpr hpos
    exact ⟨⟨slicesLine, mipsMultipliersLine, reportRows⟩,
      runAccepted_eq_some_iff.mpr ⟨slices, hslices, hline, hmipsLine, hreportRows⟩⟩

/-- Of its options the program checks the two priorities. With these in order it writes
    its report if and only if there are processors and the slices expand, within the
    fuel, to a range that is not empty and has no zero. Nothing else is needed, of the
    rates and times not even that they are positive. -/
theorem run_defined_iff (w : Width) (fuel : ℕ) (outcomes : ℕ → ℕ → Outcome) (write : ℚ → String)
    (o : Options) (taskComp : Comparator SimpleTask) (procComp : Comparator Processor)
    (htask : taskComparator o.taskPriority = .ok taskComp)
    (hproc : procComparator o.procPriority = .ok procComp) (hN : w.Fits o.problemSize) :
    (∃ report, run w fuel outcomes write o = .ok (some report)) ↔
      o.mips ≠ [] ∧ ∃ slices, expandSlices w fuel o.slices = some slices ∧ slices ≠ [] ∧
        ∀ s ∈ slices, 1 ≤ s := by
  rw [← exists_runAccepted_iff hN fuel outcomes write taskComp procComp]
  have hrun : run w fuel outcomes write o =
      .ok (runAccepted w fuel outcomes write o taskComp procComp) := by
    rw [run, htask, hproc]
    rfl
  simp only [hrun, Except.ok.injEq]

theorem run_defined_iff_five :
    (∃ report, run (.bits 64) 3 (fun _ _ => ⟨.reference, .identity⟩) (fun _ => "")
      { problemSize := 5, mips := [1, 2], slices := [1, 4, 2] } = .ok (some report)) ↔
      [(1 : ℚ), 2] ≠ [] ∧ ∃ slices, expandSlices (.bits 64) 3 [1, 4, 2] = some slices ∧
        slices ≠ [] ∧ ∀ s ∈ slices, 1 ≤ s :=
  run_defined_iff (.bits 64) 3 _ _ { problemSize := 5, mips := [1, 2], slices := [1, 4, 2] }
    SimpleTask.smallFirst Processor.slowFirst (priorityComparator_min _ _ _)
    (priorityComparator_min _ _ _) (show 5 < 2 ^ 64 by decide)

end Main

end Smpp
