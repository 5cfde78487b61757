-- SUMMARY: The program in 64-bit arithmetic is the program in exact arithmetic as long as its sizes are exact.
import Smpp.Correctness.RunRows
import Smpp.Correctness.TaskWidth

/-!
# The program at a width

Only the expansion of the slices and the generation of tasks compute with `size_t`.
Where neither wraps around, the whole program refines the one over the natural numbers:
it is defined for the same outcomes and writes the same report.
-/

namespace Smpp

variable {w : Width} {problemSize : ℕ}

/-! ## Tasks -/

namespace Mmsim

/-- The conditions under which the tasks of a player with this slice are exact. -/
structure ExactSlice (w : Width) (problemSize sliceSize : ℕ) : Prop where
  fits : sliceSize ≤ problemSize → w.Fits (problemSize / sliceSize * (problemSize / sliceSize)) ∧
    w.Fits (tileBits problemSize sliceSize sliceSize)
  single : problemSize < sliceSize → w.mul problemSize sliceSize ≠ 0 ∧
    w.Fits (tileBits problemSize problemSize problemSize)

/-- For slices that are no larger than the problem the bits of the whole product
    decide. -/
theorem ExactSlice.of_le {sliceSize : ℕ} (hle : sliceSize ≤ problemSize)
    (hfits : w.Fits (tileBits problemSize problemSize problemSize)) :
    ExactSlice w problemSize sliceSize where
  fits _ := by
    refine ⟨hfits.mono ?_, hfits.mono (tileBits_mono hle hle)⟩
    calc problemSize / sliceSize * (problemSize / sliceSize)
        ≤ problemSize * problemSize := Nat.mul_le_mul (Nat.div_le_self _ _) (Nat.div_le_self _ _)
      _ ≤ tileBits problemSize problemSize problemSize := area_le_tileBits _ _
  single hlt := absurd hle (Nat.not_le.mpr hlt)

theorem playerTasks_eq_of_exact {sliceSize : ℕ} {userId : UInt8} (hs : 0 < sliceSize)
    (h : 0 < problemSize → ExactSlice w problemSize sliceSize) :
    playerTasks w problemSize sliceSize userId =
      playerTasks .unbounded problemSize sliceSize userId := by
  rcases Nat.eq_zero_or_pos problemSize with rfl | hN
  · simp [playerTasks, Width.mul]
  · rcases Nat.lt_or_ge problemSize sliceSize with hlt | hle
    · exact (playerTasks_eq_iff_of_lt hN hlt).mpr ((h hN).single hlt)
    · exact (playerTasks_eq_iff_of_le hs hle).mpr ((h hN).fits hle)

/-- A zero slice is undefined at every width; otherwise the tasks are exact if those of
    every player are. -/
theorem createTasks_width (hN : w.Fits problemSize) {slices : List ℕ}
    (h : ∀ s ∈ slices, 0 < s → 0 < problemSize → ExactSlice w problemSize s) :
    createTasks w problemSize slices = createTasks .unbounded problemSize slices := by
  by_cases hs : ∀ s ∈ slices, 0 < s
  · have htasks : ∀ u, tasksFrom w problemSize slices u =
        tasksFrom .unbounded problemSize slices u := by
      induction slices with
      | nil => exact fun _ => rfl
      | cons s rest ih =>
        intro u
        have hs' := List.forall_mem_cons.mp hs
        have h' := List.forall_mem_cons.mp h
        rw [tasksFrom, tasksFrom, ih h'.2 hs'.2, playerTasks_eq_of_exact hs'.1 (h'.1 hs'.1)]
    rw [createTasks_eq hN slices hs, createTasks_unbounded problemSize hs, htasks]
  · have hnone : ∀ v : Width, createTasks v problemSize slices = none := by
      intro v
      apply Option.eq_none_iff_forall_ne_some.mpr
      intro tasks htasks
      exact hs (pos_of_createTasks htasks)
    rw [hnone, hnone]

end Mmsim

namespace Main

/-! ## Slices -/

theorem sliceLoop_width {sliceEnd sliceStep : ℕ} (hfits : ∀ i < sliceEnd, w.Fits (i + sliceStep))
    (fuel i : ℕ) (slices : List ℕ) :
    sliceLoop w sliceEnd sliceStep fuel i slices =
      sliceLoop .unbounded sliceEnd sliceStep fuel i slices := by
  induction fuel generalizing i slices with
  | zero => rfl
  | succ fuel ih =>
    unfold sliceLoop
    split
    · rename_i hmore
      have hadd : w.add i sliceStep = Width.unbounded.add i sliceStep :=
        (w.wrap_eq_self_iff _).mpr (hfits i hmore)
      rw [hadd]
      exact ih _ _
    · rfl

/-- A range whose counter cannot wrap around expands to the exact slices. -/
theorem expandSlices_width {slicesArr : List ℕ}
    (hrange : ∀ sliceStart sliceEnd sliceStep, slicesArr = [sliceStart, sliceEnd, sliceStep] →
      ∀ i < sliceEnd, w.Fits (i + sliceStep)) (fuel : ℕ) :
    expandSlices w fuel slicesArr = expandSlices .unbounded fuel slicesArr := by
  unfold expandSlices
  split
  · rename_i sliceStart sliceEnd sliceStep
    have hloop := sliceLoop_width (hrange _ _ _ rfl) fuel sliceStart []
    rcases Nat.eq_zero_or_pos sliceStep with rfl | hstep
    · simp [Width.div]
    · simp only [Width.div_of_pos _ _ hstep, Option.bind_eq_bind, Option.bind_some, hloop]
  · rfl

/-! ## Rows -/

section Rows

variable {procs : List Processor} {procComp : Comparator Processor}
  {taskComp : Comparator SimpleTask} {tp : TaskProcessorWithTransfer} {simLog : Bool} {i j : ℕ}

theorem singlePlayerRow_width (outcome : Outcome)
    (h : Mmsim.createTasks w problemSize [i] = Mmsim.createTasks .unbounded problemSize [i]) :
    singlePlayerRow w procs procComp taskComp tp problemSize simLog outcome i =
      singlePlayerRow .unbounded procs procComp taskComp tp problemSize simLog outcome i := by
  rw [singlePlayerRow, h, ← singlePlayerRow]

theorem timesLoop_width (outcomes : ℕ → Outcome) (doShuffle : Bool)
    (h : Mmsim.createTasks w problemSize [i, j] = Mmsim.createTasks .unbounded problemSize [i, j])
    (rounds times : ℕ) (timesArray : List ℚ) :
    timesLoop w procs procComp taskComp tp problemSize outcomes i j doShuffle rounds times
        timesArray =
      timesLoop .unbounded procs procComp taskComp tp problemSize outcomes i j doShuffle rounds
        times timesArray := by
  induction rounds generalizing times timesArray with
  | zero => rfl
  | succ rounds ih => simp only [timesLoop, h, ih]

theorem twoPlayersRow_width (randomizeCount : ℕ) (outcomes : ℕ → Outcome)
    (h : Mmsim.createTasks w problemSize [i, j] = Mmsim.createTasks .unbounded problemSize [i, j]) :
    twoPlayersRow w procs procComp taskComp tp problemSize simLog randomizeCount outcomes i j =
      twoPlayersRow .unbounded procs procComp taskComp tp problemSize simLog randomizeCount outcomes
        i j := by
  simp only [twoPlayersRow, h, timesLoop_width outcomes _ h]

end Rows

/-! ## The run -/

/-- The sizes the program computes with are exact: the counter of a range does not wrap
    around, and neither do the sizes of the tasks for any slice it comes to. -/
structure ExactSizes (o : Options) (fuel : ℕ) : Prop where
  problemSize : o.problemSize < 2 ^ 64
  range : ∀ sliceStart sliceEnd sliceStep, o.slices = [sliceStart, sliceEnd, sliceStep] →
    sliceEnd + sliceStep ≤ 2 ^ 64
  slices : ∀ slices, expandSlices .unbounded fuel o.slices = some slices →
    ∀ s ∈ o.fixFirst :: slices, 0 < s → 0 < o.problemSize →
      Mmsim.ExactSlice (.bits 64) o.problemSize s

theorem ExactSizes.expandSlices {o : Options} {fuel : ℕ} (h : ExactSizes o fuel) :
    expandSlices (.bits 64) fuel o.slices = expandSlices .unbounded fuel o.slices := by
  apply expandSlices_width
  intro sliceStart sliceEnd sliceStep heq i hi
  have hle := h.range _ _ _ heq
  exact (Nat.add_lt_add_right hi sliceStep).trans_le hle

/-- Sizes are exact for every list of the slices the program comes to. -/
theorem ExactSizes.createTasks {o : Options} {fuel : ℕ} (h : ExactSizes o fuel) {slices : List ℕ}
    (hexpand : Main.expandSlices .unbounded fuel o.slices = some slices) {sliceSizes : List ℕ}
    (hsub : ∀ s ∈ sliceSizes, s ∈ o.fixFirst :: slices) :
    Mmsim.createTasks (.bits 64) o.problemSize sliceSizes =
      Mmsim.createTasks .unbounded o.problemSize sliceSizes := by
  have hN : (Width.bits 64).Fits o.problemSize := h.problemSize
  apply Mmsim.createTasks_width hN
  intro s hs
  exact h.slices slices hexpand s (hsub s hs)

/-- Row by row, the run computes the exact rows. -/
theorem ExactSizes.rows {o : Options} {fuel : ℕ} (h : ExactSizes o fuel) {slices : List ℕ}
    (hexpand : Main.expandSlices .unbounded fuel o.slices = some slices)
    (outcomes : ℕ → ℕ → Outcome) (taskComp : Comparator SimpleTask)
    (procComp : Comparator Processor) :
    rows (.bits 64) outcomes o taskComp procComp slices =
      rows .unbounded outcomes o taskComp procComp slices := by
  unfold Main.rows
  split
  · apply mapM_congr
    intro x hx
    apply singlePlayerRow_width
    apply h.createTasks hexpand
    intro s hs
    rw [List.mem_singleton.mp hs]
    exact List.mem_cons_of_mem _ (fst_mem_of_mem_zipIdx hx)
  · apply mapM_congr
    intro x hx
    apply twoPlayersRow_width
    apply h.createTasks hexpand
    obtain ⟨hfirst, hsecond⟩ := mem_pairs.mp (fst_mem_of_mem_zipIdx hx)
    intro s hs
    rcases List.mem_cons.mp hs with rfl | hs
    · split at hfirst
      · exact List.mem_cons_of_mem _ hfirst
      · rw [List.mem_singleton.mp hfirst]
        exact List.mem_cons_self
    · rw [List.mem_singleton.mp hs]
      exact List.mem_cons_of_mem _ hsecond

theorem ExactSizes.runAccepted {o : Options} {fuel : ℕ} (h : ExactSizes o fuel)
    (outcomes : ℕ → ℕ → Outcome) (write : ℚ → String) (taskComp : Comparator SimpleTask)
    (procComp : Comparator Processor) :
    runAccepted (.bits 64) fuel outcomes write o taskComp procComp =
      runAccepted .unbounded fuel outcomes write o taskComp procComp := by
  apply Option.ext
  intro report
  simp only [runAccepted_eq_some_iff, h.expandSlices]
  constructor
  · rintro ⟨slices, hexpand, hline, hmips, hrows⟩
    rw [h.rows hexpand] at hrows
    exact ⟨slices, hexpand, hline, hmips, hrows⟩
  · rintro ⟨slices, hexpand, hline, hmips, hrows⟩
    rw [← h.rows hexpand] at hrows
    exact ⟨slices, hexpand, hline, hmips, hrows⟩

/-- With exact sizes the program in 64-bit arithmetic does what the program over the
    natural numbers does: it accepts the same options, is defined for the same outcomes
    of sorts and shuffles, and writes the same report. -/
theorem run_bits64_refines_exact (o : Options) (fuel : ℕ) (hexact : ExactSizes o fuel)
    (outcomes : ℕ → ℕ → Outcome) (write : ℚ → String) :
    run (.bits 64) fuel outcomes write o = run .unbounded fuel outcomes write o := by
  simp only [run, hexact.runAccepted]

theorem run_bits64_refines_exact_five :
    run (.bits 64) 3 (fun _ _ => ⟨.reference, .identity⟩) (fun _ => "")
        { problemSize := 5, mips := [1, 2], slices := [1, 4, 2] } =
      run .unbounded 3 (fun _ _ => ⟨.reference, .identity⟩) (fun _ => "")
        { problemSize := 5, mips := [1, 2], slices := [1, 4, 2] } := by
  have hexpand : expandSlices .unbounded 3 [1, 4, 2] = some [1, 3] := by decide
  have hfits : (Width.bits 64).Fits (Mmsim.tileBits 5 5 5) := by
    unfold Width.Fits Mmsim.tileBits
    decide
  have hle : ∀ s ∈ [0, 1, 3], s ≤ 5 := by decide
  refine run_bits64_refines_exact _ 3 ⟨by decide, ?_, ?_⟩ _ _
  · rintro sliceStart sliceEnd sliceStep ⟨⟩
    decide
  · intro slices hslices s hs _ _
    rw [hexpand] at hslices
    cases hslices
    exact Mmsim.ExactSlice.of_le (hle s hs) hfits

end Main

end Smpp
