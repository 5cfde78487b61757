-- SUMMARY: What the program reports: which slices each row is about, and the true finishing times its numbers are the means of.
import Smpp.Correctness.Program

/-!
# The report

Every number in the report is the mean, over the simulations of its row, of the time at
which the player's last task ended. Rows stand in the order of the slices, and fixing
the first player's slice selects the rows of the full table that have it.
-/

namespace Smpp.Main

open TaskProcessorWithTransfer

/-! ## Simulations -/

section Simulations

variable (w : Width) (procs : List Processor) (procComp : Comparator Processor)
  (taskComp : Comparator SimpleTask) (tp : TaskProcessorWithTransfer) (problemSize : ℕ)

/-- The slices a row is about. -/
def Row.slices : Row → List ℕ
  | .single i _ => [i]
  | .pair i j _ _ => [i, j]

variable {w procs procComp taskComp tp problemSize}

variable {simLog : Bool} {outcomes : ℕ → Outcome} {i j : ℕ} {row : Row}

end Simulations

/-! ## The report of a run -/

section Run

variable {o : Options} {taskComp : Comparator SimpleTask} {procComp : Comparator Processor}

end Run

/-! ## A fixed first player -/

section FixFirst

variable {w : Width} {outcomes : ℕ → ℕ → Outcome} {o : Options} {taskComp : Comparator SimpleTask}
  {procComp : Comparator Processor} {before after : List ℕ} {f : ℕ}

/-- The pairs with a fixed first slice stand together among all pairs. -/
theorem pairs_zero_drop_take (hf : f ≠ 0) {slices : List ℕ}
    (hslices : slices = before ++ f :: after) :
    ((pairs 0 slices).zipIdx.drop (before.length * slices.length)).take slices.length =
      (pairs f slices).zipIdx.map fun x => (x.1, before.length * slices.length + x.2) := by
  have hfixed : pairs f slices = slices.map fun j => (f, j) := by
    simp only [pairs, if_neg hf, List.flatMap_singleton]
  have hall : pairs 0 slices = before.flatMap (fun i => slices.map fun j => (i, j)) ++
      pairs f slices ++ after.flatMap (fun i => slices.map fun j => (i, j)) := by
    rw [hfixed, pairs, if_pos rfl]
    conv_lhs => rw [hslices, List.flatMap_append, List.flatMap_cons, ← hslices]
    rw [List.append_assoc]
  have hbefore : (before.flatMap fun i => slices.map fun j => (i, j)).length =
      before.length * slices.length := by
    simp only [List.length_flatMap, List.length_map, List.map_const', List.sum_replicate,
      smul_eq_mul]
  have hlength : (pairs f slices).length = slices.length := by rw [hfixed, List.length_map]
  rw [hall, ← hbefore, ← hlength]
  exact zipIdx_append_drop_take _ _ _

theorem rows_fixFirst (hpair : o.singlePlayer = false) (hall : o.fixFirst = 0) (hf : f ≠ 0)
    {slices : List ℕ} (hslices : slices = before ++ f :: after) {reported : List Row}
    (hrows : rows w outcomes o taskComp procComp slices = some reported) :
    rows w (fun k => outcomes (before.length * slices.length + k)) { o with fixFirst := f } taskComp
        procComp slices =
      some ((reported.drop (before.length * slices.length)).take slices.length) := by
  have hfull : (pairs 0 slices).zipIdx.mapM (pairRow w outcomes o taskComp procComp) =
      some reported := by
    rw [← hrows, rows, hpair, hall]
    rfl
  have hpart := mapM_drop_take hfull (before.length * slices.length) slices.length
  rw [pairs_zero_drop_take hf hslices, List.mapM_map] at hpart
  rw [rows, hpair, ← hpart]
  rfl

/-- Fixing the first player's slice to one of the slices selects the block of rows that
    the full table has for one occurrence of it: the report is the same but for the other
    rows, if the rows that stay see the same outcomes. -/
theorem run_fix_first (w : Width) (fuel : ℕ) (outcomes : ℕ → ℕ → Outcome) (write : ℚ → String)
    (o : Options) (report : Report) (before after : List ℕ) (f : ℕ) (hpair : o.singlePlayer = false)
    (hall : o.fixFirst = 0) (hf : f ≠ 0)
    (hexpand : expandSlices w fuel o.slices = some (before ++ f :: after))
    (hrun : run w fuel outcomes write o = .ok (some report)) :
    let rowsEach := (before ++ f :: after).length
    run w fuel (fun k => outcomes (before.length * rowsEach + k)) write { o with fixFirst := f } =
      .ok (some { report with
        rows := (report.rows.drop (before.length * rowsEach)).take rowsEach }) := by
  intro rowsEach
  unfold run at hrun ⊢
  cases htask : taskComparator o.taskPriority with
  | error e => rw [htask] at hrun; cases hrun
  | ok taskComp =>
    cases hproc : procComparator o.procPriority with
    | error e => rw [htask, hproc] at hrun; cases hrun
    | ok procComp =>
      rw [htask, hproc] at hrun
      have hreport : runAccepted w fuel outcomes write o taskComp procComp = some report :=
        Except.ok.inj hrun
      obtain ⟨slices, hslices, hline, hmips, hrows⟩ := runAccepted_eq_some_iff.mp hreport
      rw [hexpand] at hslices
      have hpart := rows_fixFirst hpair hall hf (Option.some.inj hslices).symm hrows
      rw [← Option.some.inj hslices] at hline hpart
      have hfixed : runAccepted w fuel (fun k => outcomes (before.length * rowsEach + k)) write
          { o with fixFirst := f } taskComp procComp = some { report with
            rows := (report.rows.drop (before.length * rowsEach)).take rowsEach } :=
        runAccepted_eq_some_iff.mpr ⟨_, hexpand, hline, hmips, hpart⟩
      rw [← hfixed]
      rfl

theorem run_fix_first_three :
    ∃ report, run (.bits 64) 3 (fun _ _ => ⟨.reference, .identity⟩) (fun _ => "")
        { problemSize := 5, mips := [1, 2], slices := [1, 4, 2] } = .ok (some report) ∧
      run (.bits 64) 3 (fun k => (fun _ _ => ⟨.reference, .identity⟩) (1 * 2 + k)) (fun _ => "")
        { problemSize := 5, mips := [1, 2], slices := [1, 4, 2], fixFirst := 3 } =
          .ok (some { report with rows := (report.rows.drop (1 * 2)).take 2 }) := by
  have hN : (Width.bits 64).Fits 5 := by
    change 5 < 2 ^ 64
    decide
  have hexpand : expandSlices (.bits 64) 3 [1, 4, 2] = some ([1] ++ 3 :: []) := by decide
  obtain ⟨report, hreport⟩ := (exists_runAccepted_iff
    (o := { problemSize := 5, mips := [1, 2], slices := [1, 4, 2] }) hN 3
    (fun _ _ => ⟨.reference, .identity⟩) (fun _ => "") SimpleTask.smallFirst
    Processor.slowFirst).mpr ⟨by decide, _, hexpand, by decide, by decide⟩
  have hrun : run (.bits 64) 3 (fun _ _ => ⟨.reference, .identity⟩) (fun _ => "")
      { problemSize := 5, mips := [1, 2], slices := [1, 4, 2] } = .ok (some report) := by
    rw [run_default_priorities _ _ _ _ rfl rfl, ← hreport]
  exact ⟨report, hrun, run_fix_first (.bits 64) 3 (fun _ _ => ⟨.reference, .identity⟩) (fun _ => "")
    { problemSize := 5, mips := [1, 2], slices := [1, 4, 2] } report [1] [] 3 rfl rfl (by decide)
    hexpand hrun⟩

end FixFirst

end Smpp.Main
