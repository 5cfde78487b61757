-- SUMMARY: What a run of the program consists of: the expanded slices, the two header lines and a loop over the rows.
import Smpp.Base.Loop
import Smpp.Correctness.Options
import Smpp.Correctness.Rows

/-!
# The rows of a run

A run expands the slices, writes them and the rates, and then computes one row after
another. Row `k` depends on its slices and on the outcomes it sees, and on no other
row.
-/

namespace Smpp.Main

/-- The pairs of slices that rows for two players are computed for, row by row. -/
def pairs (fixFirst : ℕ) (slices : List ℕ) : List (ℕ × ℕ) :=
  (if fixFirst = 0 then slices else [fixFirst]).flatMap fun i => slices.map fun j => (i, j)

/-- The row of a single player … -/
def singleRow (w : Width) (outcomes : ℕ → ℕ → Outcome) (o : Options)
    (taskComp : Comparator SimpleTask) (procComp : Comparator Processor) (x : ℕ × ℕ) : Option Row :=
  singlePlayerRow w (processors o.nominalMips o.mips) procComp taskComp ⟨o.bandwidth, o.ping⟩
    o.problemSize o.simLog (outcomes x.2 0) x.1

/-- … and that of two players, with its number. -/
def pairRow (w : Width) (outcomes : ℕ → ℕ → Outcome) (o : Options)
    (taskComp : Comparator SimpleTask) (procComp : Comparator Processor) (x : (ℕ × ℕ) × ℕ) :
    Option Row :=
  twoPlayersRow w (processors o.nominalMips o.mips) procComp taskComp ⟨o.bandwidth, o.ping⟩
    o.problemSize o.simLog o.randomizeCount (outcomes x.2) x.1.1 x.1.2

/-- The rows of a run with these slices. -/
def rows (w : Width) (outcomes : ℕ → ℕ → Outcome) (o : Options) (taskComp : Comparator SimpleTask)
    (procComp : Comparator Processor) (slices : List ℕ) : Option (List Row) :=
  if o.singlePlayer then slices.zipIdx.mapM (singleRow w outcomes o taskComp procComp)
  else (pairs o.fixFirst slices).zipIdx.mapM (pairRow w outcomes o taskComp procComp)

section Rows

variable {w : Width} {fuel : ℕ} {outcomes : ℕ → ℕ → Outcome} {write : ℚ → String} {o : Options}
  {taskComp : Comparator SimpleTask} {procComp : Comparator Processor}

/-- A report puts together what the run computes. -/
theorem runAccepted_eq_some_iff {report : Report} :
    runAccepted w fuel outcomes write o taskComp procComp = some report ↔
      ∃ slices, expandSlices w fuel o.slices = some slices ∧
        writeToStream toString slices = some report.slicesLine ∧
        writeToStream write o.mips = some report.mipsMultipliersLine ∧
        rows w outcomes o taskComp procComp slices = some report.rows := by
  obtain ⟨slicesLine, mipsMultipliersLine, reportRows⟩ := report
  have hdef : runAccepted w fuel outcomes write o taskComp procComp = (do
      let slices ← expandSlices w fuel o.slices
      let slicesLine ← writeToStream toString slices
      let mipsMultipliersLine ← writeToStream write o.mips
      let rows ← rows w outcomes o taskComp procComp slices
      some { slicesLine, mipsMultipliersLine, rows }) := by
    unfold runAccepted rows
    split <;> rfl
  rw [hdef]
  simp only [Option.bind_eq_bind, Option.bind_eq_some_iff, Option.some.injEq, Report.mk.injEq]
  constructor
  · rintro ⟨slices, hslices, _, hline, _, hmips, _, hrows, rfl, rfl, rfl⟩
    exact ⟨slices, hslices, hline, hmips, hrows⟩
  · rintro ⟨slices, hslices, hline, hmips, hrows⟩
    exact ⟨slices, hslices, _, hline, _, hmips, _, hrows, rfl, rfl, rfl⟩

theorem fst_mem_of_mem_zipIdx {α : Type} {l : List α} {x : α × ℕ} (h : x ∈ l.zipIdx) : x.1 ∈ l :=
  List.mem_of_getElem? (List.mk_mem_zipIdx_iff_getElem?.mp h)

/-- What holds of the entries of a list holds of the entries with their numbers. -/
theorem forall_mem_zipIdx_iff {α : Type} {P : α → Prop} {l : List α} :
    (∀ x ∈ l.zipIdx, P x.1) ↔ ∀ a ∈ l, P a := by
  constructor
  · intro h a ha
    rw [← List.zipIdx_map_fst 0 l] at ha
    obtain ⟨x, hx, rfl⟩ := List.mem_map.mp ha
    exact h x hx
  · intro h x hx
    exact h _ (fst_mem_of_mem_zipIdx hx)

/-- The slices of a pair are those of the run, or the fixed one. -/
theorem mem_pairs {fixFirst : ℕ} {slices : List ℕ} {x : ℕ × ℕ} :
    x ∈ pairs fixFirst slices ↔
      x.1 ∈ (if fixFirst = 0 then slices else [fixFirst]) ∧ x.2 ∈ slices := by
  obtain ⟨i, j⟩ := x
  simp only [pairs, List.mem_flatMap, List.mem_map, Prod.mk.injEq]
  constructor
  · rintro ⟨_, hi, _, hj, rfl, rfl⟩
    exact ⟨hi, hj⟩
  · rintro ⟨hi, hj⟩
    exact ⟨i, hi, j, hj, rfl, rfl⟩

end Rows

end Smpp.Main
