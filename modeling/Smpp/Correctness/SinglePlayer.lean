-- SUMMARY: On equal processors a single player's report depends on the options only.
import Smpp.Correctness.EqualProcessors
import Smpp.Correctness.ProgramWidth
import Smpp.Scheduling.Rounds

/-!
# Single player

A simulation depends on how the sorts leave equal elements, on the shuffle, and on which
of the tasks that end at the same time the heap returns first. The tasks of a single
player that the order cannot tell apart are all the same, and on equal processors it does
not matter who is free first. So nothing of this gets into the report.
-/

open ListScheduling

namespace Smpp

open TaskProcessorWithTransfer

/-! ## Two runs on the same tasks -/

section TwoRuns

variable {tp : TaskProcessorWithTransfer} {procs procs' : List Processor} {tasks : List SimpleTask}
  {mips : ℚ} {w w' : ℕ → ℕ} {out out' : List (TaskCompletition TaskPtr)}

/-- Task `k` ends at the same time, whoever runs it. -/
theorem Schedule.finish_unique (h : Schedule tp procs tasks w out)
    (h' : Schedule tp procs' tasks w' out') (hequal : ∀ p ∈ procs, p.mips = mips)
    (hequal' : ∀ p ∈ procs', p.mips = mips) (hlength : procs.length = procs'.length)
    (hd : DurationsNonneg tp procs tasks) (hd' : DurationsNonneg tp procs' tasks) {k : ℕ}
    (hk : k < tasks.length) :
    finish (tp.duration procs tasks) w k = finish (tp.duration procs' tasks) w' k := by
  have hjob : ∀ j < tasks.length, 0 ≤ jobTime tp mips tasks j := by
    intro j hj
    rw [← duration_eq_jobTime hequal (h.worker_lt j hj)]
    exact h.duration_nonneg hd hj
  apply (h.greedy hd).finish_unique (h'.greedy hd') _ _ hjob _ hk
  · exact fun v hv j _ => duration_eq_jobTime hequal (Finset.mem_range.mp hv) j
  · exact fun v hv j _ => duration_eq_jobTime hequal' (Finset.mem_range.mp hv) j
  · rw [hlength]

/-- A user's tasks end at the same times in both runs. -/
theorem Schedule.ends_unique (h : Schedule tp procs tasks w out)
    (h' : Schedule tp procs' tasks w' out') (hequal : ∀ p ∈ procs, p.mips = mips)
    (hequal' : ∀ p ∈ procs', p.mips = mips) (hlength : procs.length = procs'.length)
    (hd : DurationsNonneg tp procs tasks) (hd' : DurationsNonneg tp procs' tasks) (u : UInt8) :
    {x | ∃ c ∈ out, userOf tasks c = some u ∧ c.timeEnd = x} =
      {x | ∃ c ∈ out', userOf tasks c = some u ∧ c.timeEnd = x} := by
  have hends : ∀ {procs : List Processor} {w : ℕ → ℕ} {out : List (TaskCompletition TaskPtr)},
      Schedule tp procs tasks w out → ∀ x,
        (∃ c ∈ out, userOf tasks c = some u ∧ c.timeEnd = x) ↔
          ∃ (k : ℕ) (hk : k < tasks.length), tasks[k].userid = u ∧
            finish (tp.duration procs tasks) w k = x := by
    intro procs w out h x
    constructor
    · rintro ⟨c, hc, hcu, rfl⟩
      obtain ⟨k, hk, rfl⟩ := h.mem_iff.mp hc
      rw [userOf_completion hk] at hcu
      exact ⟨k, hk, Option.some.inj hcu, rfl⟩
    · rintro ⟨k, hk, rfl, rfl⟩
      exact ⟨_, h.completion_mem hk, userOf_completion hk, rfl⟩
  ext x
  simp only [Set.mem_ofPred_eq, hends h, hends h']
  constructor
  · rintro ⟨k, hk, hu, rfl⟩
    exact ⟨k, hk, hu, (h.finish_unique h' hequal hequal' hlength hd hd' hk).symm⟩
  · rintro ⟨k, hk, hu, rfl⟩
    exact ⟨k, hk, hu, h.finish_unique h' hequal hequal' hlength hd hd' hk⟩

theorem IsFinishingTime.unique {u : UInt8} {t t' : ℚ} (h : IsFinishingTime tasks out u t)
    (h' : IsFinishingTime tasks out' u t')
    (hends : {x | ∃ c ∈ out, userOf tasks c = some u ∧ c.timeEnd = x} =
      {x | ∃ c ∈ out', userOf tasks c = some u ∧ c.timeEnd = x}) : t = t' := by
  by_cases huser : ∃ task ∈ tasks, task.userid = u
  · have hgreatest := h.1 huser
    rw [hends] at hgreatest
    exact hgreatest.unique (h'.1 huser)
  · push Not at huser
    rw [h.2 huser, h'.2 huser]

/-- With the tasks sorted in the same way, two calls on equal processors report the same
    times. -/
theorem Simulated.times_unique {all all' : List SimpleTask} {taskComp : Comparator SimpleTask}
    {nUserHint : UInt8} {r r' : SimulateResult}
    (h : Simulated tp procs all taskComp nUserHint r w out)
    (h' : Simulated tp procs' all' taskComp nUserHint r' w' out')
    (hequal : ∀ p ∈ procs, p.mips = mips) (hequal' : ∀ p ∈ procs', p.mips = mips)
    (hlength : procs.length = procs'.length) (htasks : r.tasks = r'.tasks) :
    r.times = r'.times := by
  apply List.ext_getElem (h.length.trans h'.length.symm)
  intro k hk hk'
  have hhint : k < nUserHint.toNat := h.length ▸ hk
  have huid : (UInt8.ofNat k).toNat = k := Mmsim.toNat_userId (hhint.trans nUserHint.toNat_lt)
  have hlt : UInt8.ofNat k < nUserHint := by
    rw [UInt8.lt_iff_toNat_lt, huid]
    exact hhint
  obtain ⟨t, ht, hfinishing⟩ := h.times _ hlt
  obtain ⟨t', ht', hfinishing'⟩ := h'.times _ hlt
  rw [huid, List.getElem?_eq_getElem hk] at ht
  rw [huid, List.getElem?_eq_getElem hk'] at ht'
  cases ht
  cases ht'
  have hsched := h'.schedule
  have hnonneg := h'.nonneg
  rw [← htasks] at hfinishing' hsched hnonneg
  exact hfinishing.unique hfinishing'
    (h.schedule.ends_unique hsched hequal hequal' hlength h.nonneg hnonneg _)

end TwoRuns

/-! ## Rows of a single player -/

namespace Main

section SinglePlayer

variable {procs : List Processor} {mips : ℚ} {taskComp : Comparator SimpleTask}
  {tp : TaskProcessorWithTransfer} {problemSize : ℕ}

theorem singlePlayerRow_unique (hequal : ∀ p ∈ procs, p.mips = mips) (hmips : 0 < mips)
    (hcomp : ByComplexity taskComp) (hbandwidth : 0 < tp.bandwidth)
    (hsetup : 0 ≤ tp.connectionSetup) (hprocs : procs ≠ []) (procComp : Comparator Processor)
    (simLog : Bool) (outcome outcome' : Outcome) (i : ℕ) :
    singlePlayerRow .unbounded procs procComp taskComp tp problemSize simLog outcome i =
      singlePlayerRow .unbounded procs procComp taskComp tp problemSize simLog outcome' i := by
  rcases Nat.eq_zero_or_pos i with rfl | hi
  · have hcreate : Mmsim.createTasks .unbounded problemSize [0] = none := by
      cases hcreate : Mmsim.createTasks .unbounded problemSize [0] with
      | none => rfl
      | some tasks =>
        exact absurd (Mmsim.pos_of_createTasks hcreate 0 List.mem_cons_self) (lt_irrefl 0)
    simp only [singlePlayerRow, hcreate]
    rfl
  have hcreate := Mmsim.createTasks_unbounded problemSize (List.forall_mem_singleton.mpr hi)
  have hpos : ∀ p ∈ procs, 0 < p.mips := fun p hp => by rwa [hequal p hp]
  obtain ⟨r, out, w, t, hr, h, ht, -⟩ := Mmsim.exists_simulated_single outcome.std outcome.g
    procComp taskComp false simLog .unbounded problemSize i hprocs hpos hbandwidth hsetup
  obtain ⟨r', out', w', t', hr', h', ht', -⟩ := Mmsim.exists_simulated_single outcome'.std
    outcome'.g procComp taskComp false simLog .unbounded problemSize i hprocs hpos hbandwidth hsetup
  have hperm := outcome.std.sort_perm procComp procs
  have hperm' := outcome'.std.sort_perm procComp procs
  -- there is one way to sort tasks that the order tells apart
  have htasks : r.tasks = r'.tasks := by
    apply h.sorted.eq_of_perm h'.sorted (h.perm.trans h'.perm.symm)
    intro a ha b hb hab hba
    have ha' := h.perm.mem_iff.mp ha
    have hb' := h.perm.mem_iff.mp hb
    rw [Mmsim.tasksFrom_singleton] at ha' hb'
    exact Mmsim.eq_of_complexity_eq hi ha' hb' (hcomp.complexity_eq hab hba)
  have htimes := h.times_unique h' (fun p hp => hequal p (hperm.mem_iff.mp hp))
    (fun p hp => hequal p (hperm'.mem_iff.mp hp)) (hperm.trans hperm'.symm).length_eq htasks
  rw [ht, ht'] at htimes
  cases htimes
  simp [singlePlayerRow, hcreate, hr, hr', ht, ht']

end SinglePlayer

/-! ## The run -/

/-- Both words of the command line name an order by complexity. -/
theorem byComplexity_of_taskComparator {taskPriority : String} {taskComp : Comparator SimpleTask}
    (h : taskComparator taskPriority = .ok taskComp) : ByComplexity taskComp := by
  unfold taskComparator priorityComparator at h
  split at h
  · cases h
    exact .inl rfl
  · split at h
    · cases h
      exact .inr rfl
    · cases h

section SinglePlayer

variable {o : Options} {fuel : ℕ} {val : ℚ} {taskComp : Comparator SimpleTask}

theorem runAccepted_unique (hsingle : o.singlePlayer = true) (hequal : ∀ x ∈ o.mips, x = val)
    (hmips : 0 < o.nominalMips * val) (hbandwidth : 0 < o.bandwidth) (hping : 0 ≤ o.ping)
    (hcomp : ByComplexity taskComp) (procComp : Comparator Processor)
    (outcomes outcomes' : ℕ → ℕ → Outcome) (write : ℚ → String) :
    runAccepted .unbounded fuel outcomes write o taskComp procComp =
      runAccepted .unbounded fuel outcomes' write o taskComp procComp := by
  have hprocs : ∀ p ∈ processors o.nominalMips o.mips, p.mips = o.nominalMips * val := by
    intro p hp
    obtain ⟨x, hx, rfl⟩ := List.mem_map.mp hp
    rw [hequal x hx]
  apply Option.ext
  intro report
  simp only [runAccepted_eq_some_iff]
  -- the line of the rates needs a processor
  by_cases hnone : o.mips = []
  · simp [hnone, writeToStream]
  have hne : processors o.nominalMips o.mips ≠ [] := by simpa [processors] using hnone
  have hrows : ∀ slices, rows .unbounded outcomes o taskComp procComp slices =
      rows .unbounded outcomes' o taskComp procComp slices := by
    intro slices
    rw [rows, rows, if_pos hsingle, if_pos hsingle]
    apply mapM_congr
    intro x _
    exact singlePlayerRow_unique hprocs hmips hcomp hbandwidth hping hne procComp o.simLog _ _ x.1
  simp only [hrows]

end SinglePlayer

/-- On equal processors the report for a single player depends on the options only:
    not on how the sorts arrange equal elements, nor on the heap, nor on any shuffle. -/
theorem run_single_player_unique (o : Options) (fuel : ℕ) (val : ℚ)
    (hsingle : o.singlePlayer = true) (hexact : ExactSizes o fuel) (hequal : ∀ x ∈ o.mips, x = val)
    (hmips : 0 < o.nominalMips * val) (hbandwidth : 0 < o.bandwidth) (hping : 0 ≤ o.ping)
    (outcomes outcomes' : ℕ → ℕ → Outcome) (write : ℚ → String) :
    run (.bits 64) fuel outcomes write o = run (.bits 64) fuel outcomes' write o := by
  cases htask : taskComparator o.taskPriority with
  | error e => simp only [run, htask, bind, Except.bind]
  | ok taskComp =>
    cases hproc : procComparator o.procPriority with
    | error e => simp only [run, htask, hproc, bind, Except.bind]
    | ok procComp =>
      simp only [run, htask, hproc, bind, Except.bind, hexact.runAccepted]
      rw [runAccepted_unique hsingle hequal hmips hbandwidth hping
        (byComplexity_of_taskComparator htask) procComp outcomes outcomes']

/-- Sorts that see the range from its back, and so may leave equal elements the other way
    round. -/
def backwards : StdAlgorithms where
  __ := StdAlgorithms.reference
  sort cmp l := StdAlgorithms.insertionSort cmp l.reverse
  sort_perm cmp l := (StdAlgorithms.insertionSort_perm cmp l.reverse).trans l.reverse_perm
  sort_sorted cmp l := StdAlgorithms.insertionSort_sorted cmp l.reverse

theorem run_single_player_unique_five :
    run (.bits 64) 3 (fun _ _ => ⟨.reference, .identity⟩) (fun _ => "0")
        { problemSize := 5, mips := [1, 1], slices := [1, 4, 2], singlePlayer := true } =
      run (.bits 64) 3 (fun _ _ => ⟨backwards, .identity⟩) (fun _ => "0")
        { problemSize := 5, mips := [1, 1], slices := [1, 4, 2], singlePlayer := true } := by
  have hexpand : expandSlices .unbounded 3 [1, 4, 2] = some [1, 3] := by decide
  have hfits : (Width.bits 64).Fits (Mmsim.tileBits 5 5 5) := by
    unfold Width.Fits Mmsim.tileBits
    decide
  have hle : ∀ s ∈ [0, 1, 3], s ≤ 5 := by decide
  refine run_single_player_unique _ 3 1 rfl ⟨by decide, ?_, ?_⟩ (by decide +kernel)
    (by decide +kernel) (by decide +kernel) (by decide +kernel) _ _ _
  · rintro sliceStart sliceEnd sliceStep ⟨⟩
    decide
  · intro slices hslices s hs _ _
    rw [hexpand] at hslices
    cases hslices
    exact Mmsim.ExactSlice.of_le (hle s hs) hfits

end Main

end Smpp
