-- SUMMARY: A competitor never helps: on equal processors a player alone is done no later than against others.
import Smpp.Correctness.EqualProcessors
import Smpp.Correctness.Players

/-!
# Competition

The tasks of one player, as they stand in the sorted list of all tasks, are up to
the user id the player's own sorted list. So the run with competitors dispatches
the tasks of the run without, in the same order and with others in between, and
dominance between list schedules applies.
-/

open ListScheduling

namespace Smpp

open TaskProcessorWithTransfer

/-! ## One player's part of a sorted list -/

theorem map_anonymous_playerTasks (w : Width) (problemSize sliceSize : ℕ) (userId : UInt8) :
    (Mmsim.playerTasks w problemSize sliceSize userId).map SimpleTask.anonymous =
      Mmsim.playerTasks w problemSize sliceSize 0 :=
  Mmsim.map_withUser_playerTasks w problemSize sliceSize userId (fun _ => 0)

section Sorted

variable {taskComp : Comparator SimpleTask} {problemSize : ℕ} {slices : List ℕ} {u : ℕ}
  {all own : List SimpleTask}

/-- In any two sorted arrangements, of everybody's tasks and of the tasks player
    `u` has alone, the player's tasks stand in the same order. -/
theorem filter_sorted_eq (hcomp : ByComplexity taskComp) (hs : ∀ s ∈ slices, 0 < s)
    (hlen : slices.length ≤ 256) (hu : u < slices.length)
    (hall : all.Perm (Mmsim.tasksFrom .unbounded problemSize slices 0))
    (hown : own.Perm (Mmsim.tasksFrom .unbounded problemSize [slices[u]] 0))
    (hall' : taskComp.Sorted all) (hown' : taskComp.Sorted own) :
    (all.filter (·.userid.toNat = u)).map SimpleTask.anonymous =
      own.map SimpleTask.anonymous := by
  have hpos : 0 < slices[u] := hs _ (List.getElem_mem hu)
  have hfilter : (all.filter (·.userid.toNat = u)).Perm
      (Mmsim.playerTasks .unbounded problemSize slices[u] (UInt8.ofNat u)) := by
    rw [← Mmsim.filter_tasksFrom_zero hlen hu]
    exact hall.filter _
  refine Comparator.Sorted.map_eq_of_perm (hall'.filter _) hown' ?_
    (fun a b a' b' => hcomp.congr) (fun a ha b hb hab hba => ?_)
  · calc ((all.filter (·.userid.toNat = u)).map SimpleTask.anonymous).Perm
          ((Mmsim.playerTasks .unbounded problemSize slices[u] (UInt8.ofNat u)).map
            SimpleTask.anonymous) := hfilter.map _
      _ = (Mmsim.playerTasks .unbounded problemSize slices[u] 0).map SimpleTask.anonymous := by
          rw [map_anonymous_playerTasks, map_anonymous_playerTasks]
      _ = (Mmsim.tasksFrom .unbounded problemSize [slices[u]] 0).map SimpleTask.anonymous := by
          rw [Mmsim.tasksFrom_singleton]
      List.Perm _ _ := hown.symm.map _
  · rw [Mmsim.eq_of_complexity_eq hpos (hfilter.mem_iff.mp ha) (hfilter.mem_iff.mp hb)
      (hcomp.complexity_eq hab hba)]

end Sorted

/-! ## The two runs -/

section Runs

variable {tp : TaskProcessorWithTransfer} {mips : ℚ} {procs procs' : List Processor}
  {tasks tasks' : List SimpleTask} {w w' : ℕ → ℕ} {out out' : List (TaskCompletition TaskPtr)}

/-- When the second run has only those tasks of the first that `q` selects, in
    the same order, everything it completes has a counterpart that the first run
    completes no earlier. -/
theorem Schedule.exists_later (h : Schedule tp procs tasks w out)
    (h' : Schedule tp procs' tasks' w' out') (hequal : ∀ p ∈ procs, p.mips = mips)
    (hequal' : ∀ p ∈ procs', p.mips = mips) (hlength : procs.length ≤ procs'.length)
    (hd : DurationsNonneg tp procs tasks) (hd' : DurationsNonneg tp procs' tasks')
    {q : SimpleTask → Bool}
    (hsame : (tasks.filter q).map SimpleTask.anonymous = tasks'.map SimpleTask.anonymous)
    {c' : TaskCompletition TaskPtr} (hc' : c' ∈ out') :
    ∃ c ∈ out, (tasks[c.task]?).any q ∧ c'.timeEnd ≤ c.timeEnd := by
  have htimes : (tasks.filter q).map (tp.timeToProcess ⟨mips⟩) =
      tasks'.map (tp.timeToProcess ⟨mips⟩) := by
    have hmap := congrArg (List.map (tp.timeToProcess ⟨mips⟩)) hsame
    simpa only [List.map_map, Function.comp_def, timeToProcess_anonymous] using hmap
  have hown : OwnJobs (fun k => (tasks[k]?).any q) tasks.length (jobTime tp mips tasks)
      tasks'.length (jobTime tp mips tasks') := OwnJobs.of_filter htimes
  obtain ⟨k', hk', rfl⟩ := h'.mem_iff.mp hc'
  have hcount : k' < Nat.count (fun k => (tasks[k]?).any q) tasks.length := by
    have hlen := congrArg List.length hsame
    rw [List.length_map, List.length_map] at hlen
    rwa [count_length, hlen]
  obtain ⟨i, hi, ho, rfl⟩ := exists_count_eq hcount
  have hle := h.start_le_and_finish_le h' hequal hequal' hlength hd hd' hown hi ho
  exact ⟨_, h.completion_mem hi, ho, hle.2⟩

end Runs

/-- Any number of players on equal processors: each of them alone is done no
    later than in the run with all of them. -/
theorem alone_no_later (std : StdAlgorithms) (g : Shuffle) (procs : List Processor) (mips : ℚ)
    (procComp : Comparator Processor) (taskComp : Comparator SimpleTask)
    (tp : TaskProcessorWithTransfer) (shuffle returnProcessed : Bool) (problemSize : ℕ)
    (slices : List ℕ) (hN : 1 ≤ problemSize) (hs : ∀ s ∈ slices, 1 ≤ s)
    (hhint : slices.length ≤ 255) (hprocs : procs ≠ []) (hequal : ∀ p ∈ procs, p.mips = mips)
    (hmips : 0 < mips) (hcomp : ByComplexity taskComp) (hbandwidth : 0 < tp.bandwidth)
    (hsetup : 0 ≤ tp.connectionSetup) :
    ∃ r, simulate std g procs procComp (Mmsim.tasksFrom .unbounded problemSize slices 0) taskComp
        tp (UInt8.ofNat slices.length) shuffle returnProcessed = some r ∧
      r.times.length = slices.length ∧
      ∀ (u : ℕ) (hu : u < slices.length) (std' : StdAlgorithms) (g' : Shuffle) (shuffle' : Bool),
        ∃ r' t t', simulate std' g' procs procComp
            (Mmsim.tasksFrom .unbounded problemSize [slices[u]] 0) taskComp tp 1 shuffle'
            returnProcessed = some r' ∧
          r.times[u]? = some t ∧ r'.times = [t'] ∧ t' ≤ t := by
  have hmips' : ∀ p ∈ procs, 0 < p.mips := fun p hp => by rwa [hequal p hp]
  obtain ⟨r, out, w, hsim, h, hlen⟩ := Mmsim.exists_simulated_players std g procComp taskComp
    shuffle returnProcessed .unbounded problemSize slices hhint hprocs hmips' hbandwidth hsetup
  refine ⟨r, hsim, hlen, fun u hu std' g' shuffle' => ?_⟩
  have hslice : ∀ s ∈ [slices[u]], 1 ≤ s :=
    List.forall_mem_singleton.mpr (hs _ (List.getElem_mem hu))
  obtain ⟨r', out', w', t', hsim', h', hsingle, hfinishing'⟩ := Mmsim.exists_simulated_single std'
    g' procComp taskComp shuffle' returnProcessed .unbounded problemSize slices[u] hprocs hmips'
    hbandwidth hsetup
  -- the entries of the two results
  have huid : (UInt8.ofNat u).toNat = u := Mmsim.toNat_userId (by omega)
  have hlt : UInt8.ofNat u < UInt8.ofNat slices.length := by
    rw [UInt8.lt_iff_toNat_lt, huid, Mmsim.toNat_userId (by omega)]
    exact hu
  obtain ⟨t, ht, hfinishing⟩ := h.times _ hlt
  refine ⟨r', t, t', hsim', by rwa [huid] at ht, hsingle, ?_⟩
  -- and what stands behind them
  obtain ⟨task', htask', huser'⟩ := Mmsim.exists_mem_tasksFrom (u := 0) hslice hN Nat.one_pos
  have hsame := filter_sorted_eq hcomp hs (by omega) hu h.perm h'.perm h.sorted h'.sorted
  have hsorted := std.sort_perm procComp procs
  have hsorted' := std'.sort_perm procComp procs
  apply hfinishing.le_of_later hfinishing' ⟨task', h'.perm.mem_iff.mpr htask', huser'⟩
  intro c' hc'
  obtain ⟨c, hc, hq, hle⟩ := h.schedule.exists_later h'.schedule
    (fun p hp => hequal p (hsorted.mem_iff.mp hp)) (fun p hp => hequal p (hsorted'.mem_iff.mp hp))
    (hsorted.trans hsorted'.symm).length_eq.le h.nonneg h'.nonneg hsame hc'
  obtain ⟨task, htask, huser⟩ := (Option.any_eq_true _ _).mp hq
  have huser : task.userid = UInt8.ofNat u := by
    rw [← UInt8.toNat_inj, huid]
    exact of_decide_eq_true huser
  refine ⟨c, hc, ?_, hle⟩
  rw [userOf, htask, ← huser]
  rfl

/-- Against a second player neither player is done before the time it takes
    alone, whatever the sorts do with equal tasks and however the tasks were
    shuffled before. -/
theorem competitor_never_helps (std std₀ std₁ : StdAlgorithms) (g g₀ g₁ : Shuffle)
    (procs : List Processor) (mips : ℚ) (procComp : Comparator Processor)
    (taskComp : Comparator SimpleTask) (tp : TaskProcessorWithTransfer)
    (shuffle shuffle₀ shuffle₁ returnProcessed : Bool) (problemSize s₀ s₁ : ℕ)
    (hN : 1 ≤ problemSize) (hs₀ : 1 ≤ s₀) (hs₁ : 1 ≤ s₁) (hprocs : procs ≠ [])
    (hequal : ∀ p ∈ procs, p.mips = mips) (hmips : 0 < mips)
    (hcomp : taskComp = SimpleTask.smallFirst ∨ taskComp = SimpleTask.largeFirst)
    (hbandwidth : 0 < tp.bandwidth) (hsetup : 0 ≤ tp.connectionSetup) :
    ∃ tasks tasks₀ tasks₁ r r₀ r₁ t₀ t₁ u₀ u₁,
      Mmsim.createTasks .unbounded problemSize [s₀, s₁] = some tasks ∧
      Mmsim.createTasks .unbounded problemSize [s₀] = some tasks₀ ∧
      Mmsim.createTasks .unbounded problemSize [s₁] = some tasks₁ ∧
      simulate std g procs procComp tasks taskComp tp 2 shuffle returnProcessed = some r ∧
      simulate std₀ g₀ procs procComp tasks₀ taskComp tp 1 shuffle₀ returnProcessed = some r₀ ∧
      simulate std₁ g₁ procs procComp tasks₁ taskComp tp 1 shuffle₁ returnProcessed = some r₁ ∧
      r.times = [t₀, t₁] ∧ r₀.times = [u₀] ∧ r₁.times = [u₁] ∧ u₀ ≤ t₀ ∧ u₁ ≤ t₁ := by
  have hs : ∀ s ∈ [s₀, s₁], 1 ≤ s := by
    simp only [List.forall_mem_cons]
    exact ⟨hs₀, hs₁, fun s h => by cases h⟩
  obtain ⟨r, hsim, hlen, halone⟩ := alone_no_later std g procs mips procComp taskComp tp shuffle
    returnProcessed problemSize [s₀, s₁] hN hs (Nat.le_of_ble_eq_true rfl) hprocs hequal hmips hcomp
    hbandwidth hsetup
  obtain ⟨t₀, t₁, htimes⟩ := List.length_eq_two.mp hlen
  obtain ⟨r₀, x₀, u₀, hsim₀, hx₀, htimes₀, hle₀⟩ := halone 0 Nat.zero_lt_two std₀ g₀ shuffle₀
  obtain ⟨r₁, x₁, u₁, hsim₁, hx₁, htimes₁, hle₁⟩ := halone 1 Nat.one_lt_two std₁ g₁ shuffle₁
  rw [htimes] at hx₀ hx₁
  cases hx₀
  cases hx₁
  exact ⟨_, _, _, r, r₀, r₁, t₀, t₁, u₀, u₁, Mmsim.createTasks_unbounded _ hs,
    Mmsim.createTasks_unbounded _ (fun s h => by rwa [List.mem_singleton.mp h]),
    Mmsim.createTasks_unbounded _ (fun s h => by rwa [List.mem_singleton.mp h]), hsim, hsim₀, hsim₁,
    htimes, htimes₀, htimes₁, hle₀, hle₁⟩

theorem competitor_never_helps_five :
    ∃ tasks tasks₀ r r₀ t₀ t₁ u₀, Mmsim.createTasks .unbounded 5 [2, 3] = some tasks ∧
      Mmsim.createTasks .unbounded 5 [2] = some tasks₀ ∧
      simulate .reference .identity [⟨2⟩, ⟨2⟩] Processor.slowFirst tasks SimpleTask.largeFirst
        ⟨100, 1⟩ 2 true false = some r ∧
      simulate .reference .identity [⟨2⟩, ⟨2⟩] Processor.slowFirst tasks₀ SimpleTask.largeFirst
        ⟨100, 1⟩ 1 false false = some r₀ ∧
      r.times = [t₀, t₁] ∧ r₀.times = [u₀] ∧ u₀ ≤ t₀ := by
  obtain ⟨tasks, tasks₀, -, r, r₀, -, t₀, t₁, u₀, -, htasks, htasks₀, -, hr, hr₀, -, ht, hu, -, hle,
    -⟩ := competitor_never_helps .reference .reference .reference .identity .identity .identity
      [⟨2⟩, ⟨2⟩] 2 Processor.slowFirst SimpleTask.largeFirst ⟨100, 1⟩ true false false false 5 2 3
      (by decide) (by decide) (by decide) (List.cons_ne_nil _ _) (by decide +kernel)
      (by decide +kernel) (.inr rfl) (by decide +kernel) (by decide +kernel)
  exact ⟨tasks, tasks₀, r, r₀, t₀, t₁, u₀, htasks, htasks₀, hr, hr₀, ht, hu, hle⟩

end Smpp
