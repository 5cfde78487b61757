-- SUMMARY: The names that the program makes up for its files tell runs with different options apart.
import Smpp.Base.Text
import Smpp.Correctness.Options
import Smpp.Model.Output

/-!
# File names

With `auto` as its output the program puts its main options into the name of the result
file. The rates, the slices and the fixed first slice are not among them.
-/

namespace Smpp.Main

/-! ## The parts of a name -/

/-- The last part of a name. -/
def nameEnd (o : Options) : String :=
  toString o.randomizeCount ++ (if o.singlePlayer then "single" else "") ++ ".txt"

/-- The parts of a name between the underscores. -/
def nameParts (writeScientific : ℚ → String) (o : Options) : List String :=
  ["sim", o.procPriority.toLower, o.taskPriority.toLower, "n", toString o.problemSize, "m",
    writeScientific o.nominalMips, "bw", writeScientific o.bandwidth, "p", writeScientific o.ping,
    "rd", nameEnd o]

theorem fname_auto (writeScientific : ℚ → String) (o : Options) :
    fname writeScientific o "auto" = String.intercalate "_" (nameParts writeScientific o) := by
  have hjoin : ∀ a b c d e f g s : String,
      "sim_" ++ a ++ "_" ++ b ++ "_n_" ++ c ++ "_m_" ++ d ++ "_bw_" ++ e ++ "_p_" ++ f ++ "_rd_" ++
        g ++ s ++ ".txt" =
      String.intercalate "_" ["sim", a, b, "n", c, "m", d, "bw", e, "p", f, "rd",
        g ++ s ++ ".txt"] := by
    intro a b c d e f g s
    rw [← String.toList_inj]
    simp
  rw [fname, if_pos rfl]
  exact hjoin _ _ _ _ _ _ _ _

/-- The last part starts with the number and goes on with something else. -/
theorem nameEnd_inj {o o' : Options} :
    nameEnd o = nameEnd o' ↔
      o.randomizeCount = o'.randomizeCount ∧ o.singlePlayer = o'.singlePlayer := by
  constructor
  · intro h
    have hend : ∀ o : Options, ∃ c rest, c.isDigit = false ∧
        (nameEnd o).toList = (toString o.randomizeCount).toList ++ c :: rest ∧
        (c = 's' ↔ o.singlePlayer = true) := by
      intro o
      cases hsingle : o.singlePlayer with
      | false => exact ⟨'.', ['t', 'x', 't'], rfl, by simp [nameEnd, hsingle], by decide⟩
      | true =>
        exact ⟨'s', ['i', 'n', 'g', 'l', 'e', '.', 't', 'x', 't'], rfl, by simp [nameEnd, hsingle],
          by decide⟩
    obtain ⟨c, rest, hc, hchars, hsingle⟩ := hend o
    obtain ⟨c', rest', hc', hchars', hsingle'⟩ := hend o'
    rw [← String.toList_inj, hchars, hchars'] at h
    obtain ⟨hcount, hrest⟩ := Text.toString_append_inj hc hc' h
    refine ⟨hcount, ?_⟩
    rw [Bool.eq_iff_iff, ← hsingle, ← hsingle', (List.cons.inj hrest).1]
  · rintro ⟨hcount, hsingle⟩
    rw [nameEnd, nameEnd, hcount, hsingle]

/-- The words for the priorities have no underscore. -/
theorem notMem_priority {α : Type} {optionName : String} {min max cmp : Comparator α}
    {priority : String} (h : priorityComparator optionName min max priority = .ok cmp) :
    '_' ∉ priority.toLower.toList := by
  unfold priorityComparator at h
  split at h
  · rename_i hmin
    rw [hmin]
    decide
  · split at h
    · rename_i hmax
      rw [hmax]
      decide
    · cases h

theorem notMem_nameParts {writeScientific : ℚ → String}
    (hformat : ∀ t, '_' ∉ (writeScientific t).toList) {o : Options}
    {taskComp : Comparator SimpleTask} {procComp : Comparator Processor}
    (htask : taskComparator o.taskPriority = .ok taskComp)
    (hproc : procComparator o.procPriority = .ok procComp) :
    ∀ s ∈ nameParts writeScientific o, '_' ∉ s.toList := by
  have hnat := Text.notMem_toString (c := '_') rfl
  have hend : '_' ∉ (nameEnd o).toList := by
    apply Text.notMem_append (Text.notMem_append (hnat _) _) (by decide)
    split <;> decide
  simp only [nameParts, List.forall_mem_cons]
  exact ⟨by decide, notMem_priority hproc, notMem_priority htask, by decide, hnat _, by decide,
    hformat _, by decide, hformat _, by decide, hformat _, by decide, hend, List.forall_mem_nil _⟩

/-- Two runs with accepted priorities make up the same name if and only if they agree in the
    priorities, the problem size, the number of simulations, the number of players, and
    the nominal rate, the bandwidth and the ping as they are formatted. -/
theorem fname_auto_eq_iff (writeScientific : ℚ → String)
    (hformat : ∀ t, '_' ∉ (writeScientific t).toList) (o o' : Options)
    (taskComp taskComp' : Comparator SimpleTask) (procComp procComp' : Comparator Processor)
    (htask : taskComparator o.taskPriority = .ok taskComp)
    (hproc : procComparator o.procPriority = .ok procComp)
    (htask' : taskComparator o'.taskPriority = .ok taskComp')
    (hproc' : procComparator o'.procPriority = .ok procComp') :
    fname writeScientific o "auto" = fname writeScientific o' "auto" ↔
      o.procPriority.toLower = o'.procPriority.toLower ∧
      o.taskPriority.toLower = o'.taskPriority.toLower ∧ o.problemSize = o'.problemSize ∧
      writeScientific o.nominalMips = writeScientific o'.nominalMips ∧
      writeScientific o.bandwidth = writeScientific o'.bandwidth ∧
      writeScientific o.ping = writeScientific o'.ping ∧
      o.randomizeCount = o'.randomizeCount ∧ o.singlePlayer = o'.singlePlayer := by
  have hparts : fname writeScientific o "auto" = fname writeScientific o' "auto" ↔
      nameParts writeScientific o = nameParts writeScientific o' := by
    rw [fname_auto, fname_auto]
    constructor
    · intro h
      have hne : ∀ o, nameParts writeScientific o ≠ [] := fun o => List.cons_ne_nil _ _
      rw [← Text.split_intercalate (hne o) (notMem_nameParts hformat htask hproc),
        ← Text.split_intercalate (hne o') (notMem_nameParts hformat htask' hproc')]
      exact congrArg (Text.split '_') h
    · intro h
      rw [h]
  have hnumber : toString o.problemSize = toString o'.problemSize ↔
      o.problemSize = o'.problemSize := by
    constructor
    · intro h
      apply Option.some.inj
      rw [← Text.toNat?_toString, ← Text.toNat?_toString, h]
    · intro h
      rw [h]
  rw [hparts, ← nameEnd_inj, ← hnumber]
  simp only [nameParts, List.cons.injEq, true_and, and_true]

/-- The numbers of the default options, with three digits. -/
def defaultNumbers (t : ℚ) : String :=
  if t = 10 ^ 10 then "1.000e+10" else if t = 8 * 10 ^ 8 then "8.000e+08" else "1.000e-05"

theorem fname_auto_eq_iff_defaults :
    fname defaultNumbers { problemSize := 5, mips := [1], slices := [2] } "auto" =
        fname defaultNumbers { problemSize := 5, mips := [1, 2], slices := [3, 4] } "auto" ∧
      fname defaultNumbers { problemSize := 5, mips := [1], slices := [2] } "auto" ≠
        fname defaultNumbers { problemSize := 5, mips := [1], slices := [2], randomizeCount := 12 }
          "auto" := by
  have hformat : ∀ t, '_' ∉ (defaultNumbers t).toList := by
    intro t
    unfold defaultNumbers
    split
    · decide
    · split <;> decide
  have htask : taskComparator "min" = .ok SimpleTask.smallFirst := priorityComparator_min _ _ _
  have hproc : procComparator "min" = .ok Processor.slowFirst := priorityComparator_min _ _ _
  constructor
  · exact (fname_auto_eq_iff defaultNumbers hformat
      { problemSize := 5, mips := [1], slices := [2] }
      { problemSize := 5, mips := [1, 2], slices := [3, 4] } _ _ _ _ htask hproc htask hproc).mpr
      ⟨rfl, rfl, rfl, rfl, rfl, rfl, rfl, rfl⟩
  · intro h
    have hcount := ((fname_auto_eq_iff defaultNumbers hformat
      { problemSize := 5, mips := [1], slices := [2] }
      { problemSize := 5, mips := [1], slices := [2], randomizeCount := 12 }
      _ _ _ _ htask hproc htask hproc).mp h).2.2.2.2.2.2.1
    cases hcount

end Smpp.Main
