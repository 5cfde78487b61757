-- SUMMARY: On equal processors competitors delay a player by no more than their share of the work, and a task's time.
import Smpp.Correctness.Balance
import Smpp.Correctness.Competition

/-!
# Delay

A competitor never helps, and here is how much it can hurt. A player's last task starts
when no processor is free, so until then all of them work on the player's tasks or on
those of others; and alone the player needs all processors for its own tasks as well.
-/

open ListScheduling

namespace Smpp

open TaskProcessorWithTransfer

/-! ## Bounds on one run -/

section Bounds

variable {tp : TaskProcessorWithTransfer} {procs : List Processor} {tasks : List SimpleTask}
  {mips : ℚ} {w : ℕ → ℕ} {out : List (TaskCompletition TaskPtr)}

/-- A task ends after at most its share of all the work, and its own time. -/
theorem Schedule.length_mul_finish_le (h : Schedule tp procs tasks w out)
    (hequal : ∀ p ∈ procs, p.mips = mips) (hd : DurationsNonneg tp procs tasks) {k : ℕ}
    (hk : k < tasks.length) :
    procs.length * finish (tp.duration procs tasks) w k ≤
      (tasks.map (tp.timeToProcess ⟨mips⟩)).sum +
        ((procs.length : ℚ) - 1) * tp.timeToProcess ⟨mips⟩ tasks[k] := by
  have hjob : ∀ j < tasks.length, 0 ≤ jobTime tp mips tasks j := by
    intro j hj
    rw [← duration_eq_jobTime hequal (h.worker_lt j hj)]
    exact h.duration_nonneg hd hj
  have hpos : 1 ≤ procs.length := Nat.one_le_of_lt (h.worker_lt k hk)
  have hbound := (h.greedy hd).card_nsmul_finish_le
    (fun v hv j _ => duration_eq_jobTime hequal (Finset.mem_range.mp hv) j) hjob hk
  rwa [Finset.card_range, sum_jobTime, nsmul_eq_mul, nsmul_eq_mul, Nat.cast_sub hpos, Nat.cast_one,
    jobTime_eq hk] at hbound

/-- By the time everything is done the processors have had the time for all tasks. -/
theorem Schedule.sum_le_length_mul (h : Schedule tp procs tasks w out)
    (hequal : ∀ p ∈ procs, p.mips = mips) {T : ℚ} (hT0 : 0 ≤ T) (hT : ∀ c ∈ out, c.timeEnd ≤ T) :
    (tasks.map (tp.timeToProcess ⟨mips⟩)).sum ≤ procs.length * T := by
  have hbound := sum_speed_mul_le (s := fun _ => (1 : ℚ)) (d := tp.duration procs tasks)
    (S := Finset.range procs.length) (fun _ _ => zero_le_one)
    (fun k hk => Finset.mem_range.mpr (h.worker_lt k hk)) hT0
    (fun k hk => hT _ (h.completion_mem hk))
  calc (tasks.map (tp.timeToProcess ⟨mips⟩)).sum
      = ∑ k ∈ Finset.range tasks.length, jobTime tp mips tasks k := sum_jobTime.symm
    _ = ∑ k ∈ Finset.range tasks.length, 1 * tp.duration procs tasks (w k) k := by
        apply Finset.sum_congr rfl
        intro k hk
        rw [one_mul, duration_eq_jobTime hequal (h.worker_lt k (Finset.mem_range.mp hk))]
    _ ≤ (∑ v ∈ Finset.range procs.length, 1) * T := hbound
    _ = procs.length * T := by rw [Finset.sum_const, Finset.card_range, nsmul_eq_mul, mul_one]

/-- A single time leaves room for all the work. -/
theorem Simulated.sum_le_length_mul {taskComp : Comparator SimpleTask} {nUserHint : UInt8}
    {r : SimulateResult} {all : List SimpleTask} {t : ℚ}
    (h : Simulated tp procs all taskComp nUserHint r w out) (hequal : ∀ p ∈ procs, p.mips = mips)
    (hsingle : r.times = [t]) (hall : all ≠ []) :
    (all.map (tp.timeToProcess ⟨mips⟩)).sum ≤ procs.length * t := by
  have hend : ∀ c ∈ out, c.timeEnd ≤ t := by
    intro c hc
    obtain ⟨x, hx, hle⟩ := h.exists_time_ge hc
    rw [hsingle, List.mem_singleton] at hx
    rwa [hx] at hle
  have hzero : 0 ≤ t := by
    obtain ⟨c, hc⟩ := List.exists_mem_of_ne_nil _
      (h.schedule.ne_nil (fun hnil => hall (List.nil_perm.mp (hnil ▸ h.perm))))
    exact (h.schedule.timeEnd_nonneg h.nonneg hc).trans (hend c hc)
  rw [← (h.perm.map _).sum_eq]
  exact h.schedule.sum_le_length_mul hequal hzero hend

end Bounds

/-! ## The work of the others -/

/-- Somebody's tasks and those of the others are all the tasks. -/
theorem sum_time_filter_add (time : SimpleTask → ℚ) (tasks : List SimpleTask) (u : ℕ) :
    ((tasks.filter (·.userid.toNat = u)).map time).sum +
        ((tasks.filter (·.userid.toNat ≠ u)).map time).sum = (tasks.map time).sum := by
  rw [← List.sum_append, ← List.map_append]
  have hperm := List.filter_append_perm (fun t : SimpleTask => decide (t.userid.toNat = u)) tasks
  have hnot : (fun t : SimpleTask => decide (t.userid.toNat ≠ u)) =
      fun t : SimpleTask => !decide (t.userid.toNat = u) := by
    funext t
    exact decide_not
  rw [hnot]
  exact (hperm.map time).sum_eq

/-- What the player has to do is the same alone. -/
theorem map_timeToProcess_filter_tasksFrom (tp : TaskProcessorWithTransfer) (proc : Processor)
    (problemSize : ℕ) {slices : List ℕ} {u : ℕ} (hlen : slices.length ≤ 256)
    (hu : u < slices.length) :
    ((Mmsim.tasksFrom .unbounded problemSize slices 0).filter (·.userid.toNat = u)).map
        (tp.timeToProcess proc) =
      (Mmsim.tasksFrom .unbounded problemSize [slices[u]] 0).map (tp.timeToProcess proc) := by
  have hanonymous : ∀ userId, (Mmsim.playerTasks .unbounded problemSize slices[u] userId).map
      (tp.timeToProcess proc) = (Mmsim.playerTasks .unbounded problemSize slices[u] 0).map
        (tp.timeToProcess proc) := by
    intro userId
    rw [← map_anonymous_playerTasks _ _ _ userId, List.map_map]
    rfl
  rw [Mmsim.filter_tasksFrom_zero hlen hu, Mmsim.tasksFrom_singleton, hanonymous]

/-- On `m` equal processors, with any number of players and any priorities, the time `t` of
    a player and the time `t'` it takes alone satisfy `m * t ≤ m * t' + others +
    (m - 1) * longest`, for the time of the others' tasks and the player's longest one. -/
theorem competitors_delay_bound (std : StdAlgorithms) (g : Shuffle) (procs : List Processor)
    (mips : ℚ) (procComp : Comparator Processor) (taskComp taskComp' : Comparator SimpleTask)
    (tp : TaskProcessorWithTransfer) (shuffle returnProcessed : Bool) (problemSize : ℕ)
    (slices : List ℕ) (hN : 1 ≤ problemSize) (hs : ∀ s ∈ slices, 1 ≤ s)
    (hhint : slices.length ≤ 255) (hprocs : procs ≠ []) (hequal : ∀ p ∈ procs, p.mips = mips)
    (hmips : 0 < mips) (hbandwidth : 0 < tp.bandwidth) (hsetup : 0 ≤ tp.connectionSetup) :
    ∃ tasks r, Mmsim.createTasks .unbounded problemSize slices = some tasks ∧
      simulate std g procs procComp tasks taskComp tp (UInt8.ofNat slices.length) shuffle
        returnProcessed = some r ∧
      ∀ (u : ℕ) (hu : u < slices.length) (std' : StdAlgorithms) (g' : Shuffle) (shuffle' : Bool),
        ∃ tasks' r' t t' D, Mmsim.createTasks .unbounded problemSize [slices[u]] = some tasks' ∧
          simulate std' g' procs procComp tasks' taskComp' tp 1 shuffle' returnProcessed = some r' ∧
          r.times[u]? = some t ∧ r'.times = [t'] ∧
          IsGreatest {x | x ∈ tasks'.map (tp.timeToProcess ⟨mips⟩)} D ∧
          procs.length * t ≤ procs.length * t' +
            ((tasks.filter (·.userid.toNat ≠ u)).map (tp.timeToProcess ⟨mips⟩)).sum +
              ((procs.length : ℚ) - 1) * D := by
  have hmips' : ∀ p ∈ procs, 0 < p.mips := fun p hp => by rwa [hequal p hp]
  obtain ⟨r, out, w, hsim, h, hlen⟩ := Mmsim.exists_simulated_players std g procComp taskComp
    shuffle returnProcessed .unbounded problemSize slices hhint hprocs hmips' hbandwidth hsetup
  refine ⟨_, r, Mmsim.createTasks_unbounded problemSize hs, hsim, fun u hu std' g' shuffle' => ?_⟩
  have hslice : ∀ s ∈ [slices[u]], 1 ≤ s :=
    List.forall_mem_singleton.mpr (hs _ (List.getElem_mem hu))
  obtain ⟨r', out', w', t', hsim', h', hsingle, -⟩ := Mmsim.exists_simulated_single std' g' procComp
    taskComp' shuffle' returnProcessed .unbounded problemSize slices[u] hprocs hmips' hbandwidth
    hsetup
  have huid : (UInt8.ofNat u).toNat = u := Mmsim.toNat_userId (by omega)
  have hlt : UInt8.ofNat u < UInt8.ofNat slices.length := by
    rw [UInt8.lt_iff_toNat_lt, huid, Mmsim.toNat_userId (by omega)]
    exact hu
  obtain ⟨t, ht, hfinishing⟩ := h.times _ hlt
  rw [huid] at ht
  have hown := map_timeToProcess_filter_tasksFrom tp ⟨mips⟩ problemSize (by omega) hu
  obtain ⟨task', htask', -⟩ := Mmsim.exists_mem_tasksFrom (u := 0) hslice hN Nat.one_pos
  have hne := List.ne_nil_of_mem (List.mem_map_of_mem (f := tp.timeToProcess ⟨mips⟩) htask')
  obtain ⟨D, hD⟩ := exists_isGreatest hne
  refine ⟨_, r', t, t', D, Mmsim.createTasks_unbounded problemSize hslice, hsim', ht, hsingle,
    hD, ?_⟩
  have hsorted := std.sort_perm procComp procs
  have hsorted' := std'.sort_perm procComp procs
  -- the player's last task, among those of all players
  obtain ⟨task, htask, huser⟩ := Mmsim.exists_mem_of_lt hN hs hhint hlt
  obtain ⟨c, hc, hcu, rfl⟩ := (hfinishing.1 ⟨task, h.perm.mem_iff.mpr htask, huser⟩).1
  obtain ⟨k, hk, rfl⟩ := h.schedule.mem_iff.mp hc
  rw [userOf_completion hk] at hcu
  have hbound := h.schedule.length_mul_finish_le (fun p hp => hequal p (hsorted.mem_iff.mp hp))
    h.nonneg hk
  have hlongest : tp.timeToProcess ⟨mips⟩ r.tasks[k] ≤ D := by
    apply hD.2
    rw [Set.mem_ofPred_eq, ← hown]
    apply List.mem_map_of_mem
    apply List.mem_filter.mpr
    exact ⟨h.perm.mem_iff.mp (List.getElem_mem hk), by simp [Option.some.inj hcu, huid]⟩
  have hpos : 0 < procs.length := List.length_pos_iff.mpr hprocs
  have hcoef : (0 : ℚ) ≤ (procs.length : ℚ) - 1 := by
    rw [sub_nonneg]
    exact_mod_cast hpos
  -- what the player does alone
  have halone := h'.sum_le_length_mul (fun p hp => hequal p (hsorted'.mem_iff.mp hp)) hsingle
    (List.ne_nil_of_mem htask')
  rw [← hown, hsorted'.length_eq] at halone
  rw [(h.perm.map _).sum_eq, hsorted.length_eq] at hbound
  have hsplit := sum_time_filter_add (tp.timeToProcess ⟨mips⟩)
    (Mmsim.tasksFrom .unbounded problemSize slices 0) u
  rw [← hsplit] at hbound
  calc procs.length * finish (tp.duration (std.sort procComp procs) r.tasks) w k
      ≤ _ := hbound
    _ ≤ procs.length * t' + (((Mmsim.tasksFrom .unbounded problemSize slices 0).filter
          (·.userid.toNat ≠ u)).map (tp.timeToProcess ⟨mips⟩)).sum +
        ((procs.length : ℚ) - 1) * D := by
        gcongr

theorem competitors_delay_bound_five :
    ∃ tasks r tasks' r' t t' D, Mmsim.createTasks .unbounded 5 [2, 3] = some tasks ∧
      simulate .reference .identity [⟨2⟩, ⟨2⟩] Processor.slowFirst tasks SimpleTask.largeFirst
        ⟨100, 1⟩ (UInt8.ofNat 2) true false = some r ∧
      Mmsim.createTasks .unbounded 5 [3] = some tasks' ∧
      simulate .reference .identity [⟨2⟩, ⟨2⟩] Processor.slowFirst tasks' SimpleTask.smallFirst
        ⟨100, 1⟩ 1 false false = some r' ∧
      r.times[1]? = some t ∧ r'.times = [t'] ∧
      (2 : ℕ) * t ≤ (2 : ℕ) * t' +
        ((tasks.filter (·.userid.toNat ≠ 1)).map (timeToProcess ⟨100, 1⟩ ⟨2⟩)).sum +
          (((2 : ℕ) : ℚ) - 1) * D := by
  obtain ⟨tasks, r, htasks, hr, hall⟩ := competitors_delay_bound .reference .identity [⟨2⟩, ⟨2⟩] 2
    Processor.slowFirst SimpleTask.largeFirst SimpleTask.smallFirst ⟨100, 1⟩ true false 5 [2, 3]
    (by decide) (by decide) (by decide) (List.cons_ne_nil _ _) (by decide +kernel)
    (by decide +kernel) (by decide +kernel) (by decide +kernel)
  obtain ⟨tasks', r', t, t', D, htasks', hr', ht, ht', -, hle⟩ := hall 1 Nat.one_lt_two .reference
    .identity false
  exact ⟨tasks, r, tasks', r', t, t', D, htasks, hr, htasks', hr', ht, ht', hle⟩

end Smpp
