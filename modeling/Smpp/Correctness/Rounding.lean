-- SUMMARY: On equal processors, computing in `double` moves each reported time by at most a factor that rounding explains.
import Mathlib.Data.Rat.Floor
import Smpp.Correctness.RoundedRun
import Smpp.Correctness.Simulate
import Smpp.Correctness.EqualProcessors
import Smpp.Scheduling.Perturbed

/-!
# Rounding errors

A rounding error can change which worker is free first, and then all that follows is
handed out differently. On equal processors the times do not mind: a task starts when
some worker is free, and the errors of the tasks in front of it are all that it can be
off by.
-/

open ListScheduling

namespace Smpp.Rounded

open Timing (job length_unitProcs noTransfer unitProcs)

variable {u : ℚ} {fl : Rounding ℚ u} {tp : TaskProcessorWithTransfer} {mips : ℚ}
  {procs : List Processor} {tasks : List SimpleTask}

/-! ## One task -/

/-- The time of a task goes through four roundings. -/
theorem within_timeToProcess (hu0 : 0 ≤ u) (hu : u ≤ 1) (hmips : 0 < mips)
    (hbandwidth : 0 < tp.bandwidth) (hsetup : 0 ≤ tp.connectionSetup) {task : SimpleTask}
    (hcomplexity : 0 ≤ task.complexity) :
    Within u 4 (tp.timeToProcess ⟨mips⟩ task) (timeToProcess fl tp ⟨mips⟩ task) := by
  have hbits : (0 : ℚ) ≤ task.bitsToTransfer := Nat.cast_nonneg _
  have hquotient : 0 ≤ task.complexity / mips := div_nonneg hcomplexity hmips.le
  have hlatency : (0 : ℚ) ≤ task.bitsToTransfer / tp.bandwidth := div_nonneg hbits hbandwidth.le
  have hcomplete : Within u 1 (task.complexity / mips) (fl.round (task.complexity / mips)) :=
    fl.within hu0 hu hquotient (.refl u _)
  have hconverted : Within u 2 (task.bitsToTransfer / tp.bandwidth : ℚ)
      (fl.round (fl.round task.bitsToTransfer / tp.bandwidth)) :=
    fl.within hu0 hu hlatency ((fl.within hu0 hu hbits (.refl u _)).div hbandwidth)
  have htransfer : Within u 3 (tp.transferTime task.bitsToTransfer)
      (transferTime fl tp task.bitsToTransfer) :=
    fl.within hu0 hu (add_nonneg hlatency hsetup)
      (hconverted.add ((Within.refl u _).mono hu0 hu hsetup (Nat.zero_le 2)))
  exact fl.within hu0 hu (add_nonneg hquotient (add_nonneg hlatency hsetup))
    ((hcomplete.mono hu0 hu hquotient (Nat.le_add_left 1 2)).add htransfer)

/-! ## Two schedules -/

/-- The times that tasks seem to take, on any of the processors. -/
def seeming (procs : List Processor) (jobs : List ℚ) : ℕ → ℕ → ℚ :=
  noTransfer.duration (unitProcs procs) (jobs.map job)

section Schedules

variable {jobs : List ℚ} {w w' : ℕ → ℕ} {out out' : List (TaskCompletition TaskPtr)}
  (h' : Schedule noTransfer (unitProcs procs) (jobs.map job) w' out')
  (hjobs : jobs.length = tasks.length) (hexplained : ∀ c ∈ out', Explained fl tp procs tasks c)
  (hequal : ∀ p ∈ procs, p.mips = mips)

include h' hjobs hexplained hequal

/-- In the rounded run a task starts at a rounded time, and ends its time later, rounded. -/
theorem start_and_finish {k : ℕ} (hk : k < tasks.length) :
    fl.round (start (seeming procs jobs) w' k) = start (seeming procs jobs) w' k ∧
      finish (seeming procs jobs) w' k =
        fl.round (start (seeming procs jobs) w' k + timeToProcess fl tp ⟨mips⟩ tasks[k]) := by
  have hk' : k < (jobs.map job).length := by rwa [List.length_map, hjobs]
  obtain ⟨⟨rate⟩, hproc, task, htask, hstart, hend⟩ := hexplained _ (h'.completion_mem hk')
  have hrate : rate = mips := hequal _ hproc
  have htask' : tasks[k]? = some task := htask
  rw [List.getElem?_eq_getElem hk] at htask'
  cases htask'
  subst hrate
  exact ⟨hstart, hend⟩

variable (hu0 : 0 ≤ u) (hu : u ≤ 1) (hmips : 0 < mips) (hbandwidth : 0 < tp.bandwidth)
  (hsetup : 0 ≤ tp.connectionSetup) (hcomplexity : ∀ t ∈ tasks, 0 ≤ t.complexity)

include hu0 hu hmips hbandwidth hsetup hcomplexity

/-- So no task seems to take negative time. -/
theorem seeming_nonneg {k : ℕ} (hk : k < tasks.length) : 0 ≤ seeming procs jobs (w' k) k := by
  obtain ⟨hstart, hfinish⟩ := start_and_finish h' hjobs hexplained hequal hk
  have htime : Within u 4 (tp.timeToProcess ⟨mips⟩ tasks[k])
      (timeToProcess fl tp ⟨mips⟩ tasks[k]) :=
    within_timeToProcess hu0 hu hmips hbandwidth hsetup (hcomplexity _ (List.getElem_mem hk))
  have hle := fl.le_round_add hstart (htime.nonneg hu
    (timeToProcess_nonneg hmips (hcomplexity _ (List.getElem_mem hk)) hbandwidth hsetup))
  rw [← hfinish, finish] at hle
  exact le_of_add_le_add_left ((add_zero _).trans_le hle)

theorem durationsNonneg_seeming :
    DurationsNonneg noTransfer (unitProcs procs) (jobs.map job) := by
  have hunit : ∀ p ∈ unitProcs procs, p.mips = 1 := by
    intro p hp
    obtain ⟨_, -, rfl⟩ := List.mem_map.mp hp
    rfl
  apply durationsNonneg_of_equal hunit
  intro k hk
  rw [← duration_eq_jobTime hunit (h'.worker_lt k hk)]
  rw [List.length_map, hjobs] at hk
  exact seeming_nonneg h' hjobs hexplained hequal hu0 hu hmips hbandwidth hsetup hcomplexity hk

/-- Task `k` is off by four roundings of its own time and one for each task up to it. -/
theorem finish_within (h : Schedule tp procs tasks w out) {k : ℕ} (hk : k < tasks.length) :
    Within u (k + 5) (finish (tp.duration procs tasks) w k) (finish (seeming procs jobs) w' k) := by
  have hjob : ∀ k < tasks.length, 0 ≤ jobTime tp mips tasks k :=
    fun k hk => jobTime_nonneg hmips hcomplexity hbandwidth hsetup hk
  have hd := durationsNonneg_of_equal hequal hjob
  have hd' := durationsNonneg_seeming h' hjobs hexplained hequal hu0 hu hmips hbandwidth hsetup
    hcomplexity
  have hgreedy := h.greedy hd
  have hgreedy' := h'.greedy hd'
  rw [List.length_map, hjobs, length_unitProcs] at hgreedy'
  have hnonneg : ∀ k < tasks.length, 0 ≤ tp.duration procs tasks (w k) k :=
    fun k hk => h.duration_nonneg hd hk
  have hnonneg' : ∀ k < tasks.length, 0 ≤ seeming procs jobs (w' k) k := fun k hk =>
    seeming_nonneg h' hjobs hexplained hequal hu0 hu hmips hbandwidth hsetup hcomplexity hk
  have htime : ∀ {k : ℕ} (hk : k < tasks.length), Within u 4 (tp.duration procs tasks (w k) k)
      (timeToProcess fl tp ⟨mips⟩ tasks[k]) := by
    intro k hk
    rw [duration_eq_jobTime hequal (h.worker_lt k hk), jobTime_eq hk]
    exact within_timeToProcess hu0 hu hmips hbandwidth hsetup (hcomplexity _ (List.getElem_mem hk))
  have htime' : ∀ {k : ℕ} (hk : k < tasks.length), Within u (k + 4)
      (tp.duration procs tasks (w k) k) (timeToProcess fl tp ⟨mips⟩ tasks[k]) :=
    fun hk => (htime hk).mono hu0 hu (hnonneg _ hk) (Nat.le_add_left 4 _)
  have hsum : ∀ {k : ℕ} (hk : k < tasks.length),
      0 ≤ start (seeming procs jobs) w' k + timeToProcess fl tp ⟨mips⟩ tasks[k] := fun hk =>
    add_nonneg (load_nonneg (fun j hj => hnonneg' j (hj.trans hk)) _)
      ((htime hk).nonneg hu (hnonneg _ hk))
  have hupper : Scaled (tp.duration procs tasks) w (seeming procs jobs) w' tasks.length
      (fun k => (1 + u) ^ (k + 4)) (fun _ => 1) := by
    refine ⟨hnonneg, hnonneg', fun k => by positivity, fun _ => zero_le_one, ?_, antitone_const, ?_⟩
    · intro i k hik
      exact pow_le_pow_right₀ (le_add_of_nonneg_right hu0) (Nat.add_le_add_right hik 4)
    · intro k hk hstart
      rw [one_mul] at hstart ⊢
      rw [(start_and_finish h' hjobs hexplained hequal hk).2, finish, Nat.add_right_comm]
      apply fl.round_le hu0 (hsum hk)
      rw [mul_add]
      exact add_le_add hstart (htime' hk).upper
  have hlower : Scaled (seeming procs jobs) w' (tp.duration procs tasks) w tasks.length
      (fun _ => 1) (fun k => (1 - u) ^ (k + 4)) := by
    have hu' : 0 ≤ 1 - u := sub_nonneg.mpr hu
    refine ⟨hnonneg', hnonneg, fun _ => zero_le_one, fun k => by positivity, monotone_const, ?_, ?_⟩
    · intro i k hik
      exact pow_le_pow_of_le_one hu' (sub_le_self 1 hu0) (Nat.add_le_add_right hik 4)
    · intro k hk hstart
      rw [one_mul] at hstart ⊢
      rw [(start_and_finish h' hjobs hexplained hequal hk).2, finish, Nat.add_right_comm]
      apply fl.le_round hu (hsum hk)
      rw [mul_add]
      exact add_le_add hstart (htime' hk).lower
  have hle := hupper.finish_le_finish hgreedy hgreedy' le_rfl hk
  have hge := hlower.finish_le_finish hgreedy' hgreedy le_rfl hk
  rw [one_mul] at hle hge
  exact ⟨by rwa [Nat.add_right_comm] at hge, by rwa [Nat.add_right_comm] at hle⟩

end Schedules

/-! ## Reported times -/

/-- The scan of a log of all tasks in the order of their ends gives all users their times. -/
theorem exists_reported {out : List (TaskCompletition TaskPtr)} {nUserHint : UInt8}
    (husers : ∀ t ∈ tasks, t.userid < nUserHint) (hlog : ∀ c ∈ out, c.task < tasks.length)
    (hchronological : out.Pairwise (·.timeEnd ≤ ·.timeEnd))
    (hall : ∀ k < tasks.length, ∃ c ∈ out, c.task = k) (returnProcessed : Bool) :
    ∃ r, reported tasks nUserHint returnProcessed out = some r ∧ r.times.length = nUserHint.toNat ∧
      ∀ user < nUserHint, ∃ t,
        r.times[user.toNat]? = some t ∧ IsFinishingTime tasks out user t := by
  obtain ⟨times, hcollect, hlen, htimes⟩ := collectTimes_log husers hlog
  exact ⟨_, by rw [reported, hcollect]; rfl, hlen,
    fun user hu => ⟨_, htimes user hu, isFinishingTime_of_log hchronological hall user⟩⟩

/-- When the ends of all tasks are close, the users' last ends are. -/
theorem within_of_isFinishingTime {d d' : ℕ → ℕ → ℚ} {w w' : ℕ → ℕ}
    {out out' : List (TaskCompletition TaskPtr)} {m : ℕ} {user : UInt8} {t t' : ℚ} (hu0 : 0 ≤ u)
    (hu : u ≤ 1) (hout : out.Perm (dispatched d w tasks.length))
    (hout' : out'.Perm (dispatched d' w' tasks.length))
    (hwithin : ∀ k < tasks.length, Within u m (finish d w k) (finish d' w' k))
    (h : IsFinishingTime tasks out user t) (h' : IsFinishingTime tasks out' user t') :
    Within u m t t' := by
  by_cases huser : ∃ task ∈ tasks, task.userid = user
  · obtain ⟨⟨c, hc, hcu, rfl⟩, hmax⟩ := h.1 huser
    obtain ⟨⟨c', hc', hcu', rfl⟩, hmax'⟩ := h'.1 huser
    obtain ⟨k, hk, rfl⟩ := mem_dispatched.mp (hout.mem_iff.mp hc)
    obtain ⟨k', hk', rfl⟩ := mem_dispatched.mp (hout'.mem_iff.mp hc')
    constructor
    · -- the last task of the first log is in the second one
      have hmem : completion d' w' k ∈ out' := hout'.mem_iff.mpr (mem_dispatched.mpr ⟨k, hk, rfl⟩)
      rw [userOf_completion hk] at hcu
      exact (hwithin k hk).lower.trans (hmax' ⟨_, hmem, by rw [userOf_completion hk, hcu], rfl⟩)
    · have hmem : completion d w k' ∈ out := hout.mem_iff.mpr (mem_dispatched.mpr ⟨k', hk', rfl⟩)
      rw [userOf_completion hk'] at hcu'
      have hle := hmax ⟨_, hmem, by rw [userOf_completion hk', hcu'], rfl⟩
      exact (hwithin k' hk').upper.trans
        (mul_le_mul_of_nonneg_left hle (pow_nonneg (add_nonneg zero_le_one hu0) m))
  · push Not at huser
    rw [h.2 huser, h'.2 huser]
    exact (Within.refl u 0).mono hu0 hu le_rfl (Nat.zero_le m)

/-- On equal processors `simulate` in rounded arithmetic returns as well, and for `n` tasks
    each time it reports lies between `(1 - u) ^ (n + 4)` and `(1 + u) ^ (n + 4)` times the
    exact one. -/
theorem simulate_within (u : ℚ) (fl : Rounding ℚ u) (std : StdAlgorithms) (g : Shuffle)
    (procs : List Processor) (mips : ℚ) (procComp : Comparator Processor) (tasks : List SimpleTask)
    (taskComp : Comparator SimpleTask) (tp : TaskProcessorWithTransfer) (nUserHint : UInt8)
    (shuffle returnProcessed : Bool) (hu0 : 0 ≤ u) (hu : u ≤ 1) (hprocs : procs ≠ [])
    (hequal : ∀ p ∈ procs, p.mips = mips) (hmips : 0 < mips)
    (hcomplexity : ∀ t ∈ tasks, 0 ≤ t.complexity) (husers : ∀ t ∈ tasks, t.userid < nUserHint)
    (hbandwidth : 0 < tp.bandwidth) (hsetup : 0 ≤ tp.connectionSetup) :
    ∃ r r', Smpp.simulate std g procs procComp tasks taskComp tp nUserHint shuffle returnProcessed =
        some r ∧
      simulate fl std tp g procs procComp tasks taskComp nUserHint shuffle returnProcessed =
        some r' ∧
      r'.times.length = r.times.length ∧
      ∀ user < nUserHint, ∃ t t', r.times[user.toNat]? = some t ∧ r'.times[user.toNat]? = some t' ∧
        (1 - u) ^ (tasks.length + 4) * t ≤ t' ∧ t' ≤ (1 + u) ^ (tasks.length + 4) * t := by
  obtain ⟨out, -, hsim, -, hsched⟩ :=
    simulate_log std g procs procComp tasks taskComp tp shuffle
  obtain ⟨w, h⟩ := hsched hprocs
  obtain ⟨st, jobs, w', hrun, hjobs, h'⟩ := Timing.exists_schedule (timing fl tp) std
    (std.sort procComp procs) (sortedTasks std g tasks taskComp shuffle)
    (sort_ne_nil std procComp hprocs)
  have hinv := Inv.run hrun
  have hsim' := simulateWith_of_run std g procs procComp tasks taskComp nUserHint shuffle
    returnProcessed hrun hinv.tasks_eq
  have hexplained : ∀ c ∈ st.processedTasks, Explained fl tp (std.sort procComp procs)
      (sortedTasks std g tasks taskComp shuffle) c :=
    fun c hc => hinv.explained c (List.mem_append_left _ hc)
  have hperm := sortedTasks_perm std g tasks taskComp shuffle
  have hpermp := std.sort_perm procComp procs
  have hequal' : ∀ p ∈ std.sort procComp procs, p.mips = mips :=
    fun p hp => hequal p (hpermp.mem_iff.mp hp)
  rw [← hperm.length_eq]
  generalize sortedTasks std g tasks taskComp shuffle = sorted at *
  have hcomplexity' : ∀ t ∈ sorted, 0 ≤ t.complexity :=
    fun t ht => hcomplexity t (hperm.mem_iff.mp ht)
  have husers' : ∀ t ∈ sorted, t.userid < nUserHint := fun t ht => husers t (hperm.mem_iff.mp ht)
  have hjob : ∀ k < sorted.length, 0 ≤ jobTime tp mips sorted k :=
    fun k hk => jobTime_nonneg hmips hcomplexity' hbandwidth hsetup hk
  have hwithin : ∀ k < sorted.length, Within u (sorted.length + 4)
      (finish (tp.duration (std.sort procComp procs) sorted) w k)
      (finish (seeming (std.sort procComp procs) jobs) w' k) := by
    intro k hk
    have hd := durationsNonneg_of_equal hequal' hjob
    apply (finish_within h' hjobs hexplained hequal' hu0 hu hmips hbandwidth hsetup hcomplexity' h
      hk).mono hu0 hu (add_nonneg (h.start_nonneg hd hk) (h.duration_nonneg hd hk))
    omega
  have hd' := durationsNonneg_seeming h' hjobs hexplained hequal' hu0 hu hmips hbandwidth hsetup
    hcomplexity'
  have hout' := h'.perm
  rw [List.length_map, hjobs] at hout'
  -- both logs are scanned for the same users
  obtain ⟨r, hr, hlen, htimes⟩ := exists_reported husers' (fun c hc => (h.eq_completion hc).2)
    (h.chronological (durationsNonneg_of_equal hequal' hjob))
    (fun k hk => ⟨_, h.completion_mem hk, rfl⟩) returnProcessed
  obtain ⟨r', hr', hlen', htimes'⟩ := exists_reported husers'
    (fun c hc => by
      have hlt := (h'.eq_completion hc).2
      rwa [List.length_map, hjobs] at hlt)
    (h'.chronological hd')
    (fun k hk => ⟨_, h'.completion_mem (by rwa [List.length_map, hjobs]), rfl⟩) returnProcessed
  refine ⟨r, r', (hsim _ _).trans hr, hsim'.trans hr', hlen'.trans hlen.symm, fun user huser => ?_⟩
  obtain ⟨t, ht, hfinishing⟩ := htimes user huser
  obtain ⟨t', ht', hfinishing'⟩ := htimes' user huser
  have hclose := within_of_isFinishingTime hu0 hu h.perm hout' hwithin hfinishing hfinishing'
  exact ⟨t, t', ht, ht', hclose.lower, hclose.upper⟩

theorem simulate_within_toward_zero :
    ∃ r r', Smpp.simulate .reference .identity [⟨3⟩, ⟨3⟩] Processor.slowFirst
        [⟨4, 64, 0⟩, ⟨2, 64, 0⟩, ⟨5, 128, 1⟩] SimpleTask.largeFirst ⟨7, 1 / 10⟩ 2 false true =
        some r ∧
      simulate (Rounding.towardZero 52) .reference ⟨7, 1 / 10⟩ .identity [⟨3⟩, ⟨3⟩]
        Processor.slowFirst [⟨4, 64, 0⟩, ⟨2, 64, 0⟩, ⟨5, 128, 1⟩] SimpleTask.largeFirst 2
        false true = some r' ∧
      ∃ t t', r.times[0]? = some t ∧ r'.times[0]? = some t' ∧
        (1 - 1 / 2 ^ 52) ^ 7 * t ≤ t' ∧ t' ≤ (1 + 1 / 2 ^ 52) ^ 7 * t := by
  obtain ⟨r, r', hr, hr', -, htimes⟩ := simulate_within (1 / 2 ^ 52) (.towardZero 52) .reference
    .identity [⟨3⟩, ⟨3⟩] 3 Processor.slowFirst [⟨4, 64, 0⟩, ⟨2, 64, 0⟩, ⟨5, 128, 1⟩]
    SimpleTask.largeFirst ⟨7, 1 / 10⟩ 2 false true (by decide +kernel) (by decide +kernel)
    (List.cons_ne_nil _ _) (by decide +kernel) (by decide +kernel) (by decide +kernel)
    (by decide +kernel) (by decide +kernel) (by decide +kernel)
  exact ⟨r, r', hr, hr', htimes 0 (by decide)⟩

end Smpp.Rounded
