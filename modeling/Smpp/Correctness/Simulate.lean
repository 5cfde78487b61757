-- SUMMARY: What `simulate` reports: each user's finishing time, and whose processor a worker index names.
import Mathlib.Data.Finset.Image
import Mathlib.Order.Bounds.Defs
import Smpp.Correctness.Schedule
import Smpp.Model.Simulate

open ListScheduling

namespace Smpp

open TaskProcessorWithTransfer

/-! ## The reverse scan -/

/-- The user whose task was completed: `curr->task->userid`. -/
def userOf (tasks : List SimpleTask) (c : TaskCompletition TaskPtr) : Option UInt8 :=
  (tasks[c.task]?).map (·.userid)

/-- The end of the first completion of user `u` that the scan meets. -/
def firstEnd (tasks : List SimpleTask) (log : List (TaskCompletition TaskPtr)) (u : UInt8) :
    Option ℚ :=
  (log.find? (fun c => userOf tasks c = some u)).map (·.timeEnd)

theorem userOf_completion {tasks : List SimpleTask} {d : ℕ → ℕ → ℚ} {w : ℕ → ℕ} {k : ℕ}
    (hk : k < tasks.length) : userOf tasks (completion d w k) = some tasks[k].userid := by
  simp [userOf, completion, hk]

section Scan

variable {tasks : List SimpleTask} {nUserHint : UInt8} {log : List (TaskCompletition TaskPtr)}

@[simp] theorem firstEnd_nil (u : UInt8) : firstEnd tasks [] u = none := rfl

theorem firstEnd_cons_of_eq {c : TaskCompletition TaskPtr} {u : UInt8}
    (h : userOf tasks c = some u) : firstEnd tasks (c :: log) u = some c.timeEnd := by
  simp [firstEnd, h]

theorem firstEnd_cons_of_ne {c : TaskCompletition TaskPtr} {u : UInt8}
    (h : userOf tasks c ≠ some u) : firstEnd tasks (c :: log) u = firstEnd tasks log u := by
  simp [firstEnd, h]

/-- As many users as there can be are all of them. -/
theorem mem_of_card_eq {idx : Finset UInt8} (hidx : ∀ v ∈ idx, v.toNat < nUserHint.toNat)
    (hcard : idx.card = nUserHint.toNat) {u : UInt8} (hu : u.toNat < nUserHint.toNat) :
    u ∈ idx := by
  have hinj : Function.Injective UInt8.toNat := fun _ _ h => UInt8.toNat_inj.mp h
  have hsub : idx.image UInt8.toNat ⊆ Finset.range nUserHint.toNat := by
    intro k hk
    obtain ⟨v, hv, rfl⟩ := Finset.mem_image.mp hk
    exact Finset.mem_range.mpr (hidx v hv)
  have heq : idx.image UInt8.toNat = Finset.range nUserHint.toNat := by
    apply Finset.eq_of_subset_of_card_le hsub
    rw [Finset.card_range, Finset.card_image_of_injective _ hinj, hcard]
  have hmem : u.toNat ∈ idx.image UInt8.toNat := by
    rw [heq]
    exact Finset.mem_range.mpr hu
  obtain ⟨v, hv, hvu⟩ := Finset.mem_image.mp hmem
  rwa [← hinj hvu]

theorem assignTime_eq_some {times : List ℚ} {u : UInt8} (hu : u.toNat < times.length) (t : ℚ) :
    assignTime times u t = some (times.set u.toNat t) := by
  simp [assignTime, hu]

/-- The time of user `u` when the rest `log` of the scan is done: the first end the
    scan meets, for a user who is not among the users `idx` with a time. -/
def scannedTime (tasks : List SimpleTask) (log : List (TaskCompletition TaskPtr))
    (idx : Finset UInt8) (times : List ℚ) (u : UInt8) : Option ℚ :=
  if u ∈ idx then times[u.toNat]? else (firstEnd tasks log u).or times[u.toNat]?

section ScannedTime

variable {idx : Finset UInt8} {times : List ℚ} {curr : TaskCompletition TaskPtr} {v : UInt8}

theorem scannedTime_of_mem (h : v ∈ idx) :
    scannedTime tasks log idx times v = times[v.toNat]? :=
  if_pos h

theorem scannedTime_of_notMem (h : v ∉ idx) :
    scannedTime tasks log idx times v = (firstEnd tasks log v).or times[v.toNat]? :=
  if_neg h

/-- A completion of a user who has a time changes nothing. -/
theorem scannedTime_cons_of_mem (hcurr : userOf tasks curr = some v) (hseen : v ∈ idx) (u : UInt8) :
    scannedTime tasks (curr :: log) idx times u = scannedTime tasks log idx times u := by
  by_cases hu : u ∈ idx
  · rw [scannedTime_of_mem hu, scannedTime_of_mem hu]
  · have hne : userOf tasks curr ≠ some u := by
      rw [hcurr]
      rintro ⟨⟩
      exact hu hseen
    rw [scannedTime_of_notMem hu, scannedTime_of_notMem hu, firstEnd_cons_of_ne hne]

/-- The first completion of another user sets that user's time. -/
theorem scannedTime_cons_of_notMem (hcurr : userOf tasks curr = some v) (hnew : v ∉ idx)
    (hv : v.toNat < times.length) (u : UInt8) :
    scannedTime tasks (curr :: log) idx times u =
      scannedTime tasks log (insert v idx) (times.set v.toNat curr.timeEnd) u := by
  by_cases hu : u = v
  · subst hu
    rw [scannedTime_of_notMem hnew, scannedTime_of_mem (Finset.mem_insert_self _ _),
      firstEnd_cons_of_eq hcurr, Option.some_or, List.getElem?_set_self hv]
  · have hne : userOf tasks curr ≠ some u := by
      rw [hcurr]
      exact fun h => hu (Option.some.inj h).symm
    have hkeep : (times.set v.toNat curr.timeEnd)[u.toNat]? = times[u.toNat]? := by
      apply List.getElem?_set_ne
      exact fun h => hu (UInt8.toNat_inj.mp h).symm
    simp only [scannedTime, Finset.mem_insert, hu, false_or, hkeep, firstEnd_cons_of_ne hne]

end ScannedTime

/-- The scan writes only times that exist, and sets the time of every user that
    had none to the first end it meets of this user. The early break comes when
    all users have a time, so it keeps nothing from anyone. -/
theorem collectTimes_spec :
    ∀ (log : List (TaskCompletition TaskPtr)) (idx : Finset UInt8) (times : List ℚ),
      times.length = nUserHint.toNat → (∀ u ∈ idx, u.toNat < nUserHint.toNat) →
      (∀ c ∈ log, ∃ t, tasks[c.task]? = some t ∧ t.userid.toNat < nUserHint.toNat) →
      ∃ times', collectTimes tasks nUserHint log idx times = some times' ∧
        times'.length = nUserHint.toNat ∧
        ∀ u : UInt8, u.toNat < nUserHint.toNat →
          times'[u.toNat]? = scannedTime tasks log idx times u := by
  intro log
  induction log with
  | nil =>
    intro idx times hlen _ _
    exact ⟨times, rfl, hlen, fun u _ => by simp [scannedTime]⟩
  | cons curr rest ih =>
    intro idx times hlen hidx hlog
    obtain ⟨task, htask, huser⟩ := hlog curr List.mem_cons_self
    have hrest : ∀ c ∈ rest, ∃ t, tasks[c.task]? = some t ∧ t.userid.toNat < nUserHint.toNat :=
      fun c hc => hlog c (List.mem_cons_of_mem _ hc)
    have hcurr : userOf tasks curr = some task.userid := by simp [userOf, htask]
    simp only [collectTimes, htask, Option.bind_eq_bind, Option.bind_some]
    by_cases hseen : task.userid ∈ idx
    · simp only [if_pos hseen, scannedTime_cons_of_mem hcurr hseen]
      exact ih idx times hlen hidx hrest
    · have hbound : task.userid.toNat < times.length := by omega
      have hlen' : (times.set task.userid.toNat curr.timeEnd).length = nUserHint.toNat := by
        rw [List.length_set, hlen]
      have hidx' : ∀ v ∈ insert task.userid idx, v.toNat < nUserHint.toNat := by
        intro v hv
        rcases Finset.mem_insert.mp hv with rfl | hv
        · exact huser
        · exact hidx v hv
      simp only [if_neg hseen, assignTime_eq_some hbound, Option.bind_some,
        scannedTime_cons_of_notMem hcurr hseen hbound]
      by_cases hfull : (insert task.userid idx).card = nUserHint.toNat
      · -- the early break: every user has a time
        rw [if_pos hfull]
        refine ⟨_, rfl, hlen', fun u hu => ?_⟩
        rw [scannedTime_of_mem (mem_of_card_eq hidx' hfull hu)]
      · rw [if_neg hfull]
        exact ih _ _ hlen' hidx' hrest

variable (tasks) in
/-- In a log that is scanned from the latest end to the earliest, the first end
    of a user is its largest. -/
theorem firstEnd_isGreatest (hsorted : log.Pairwise (fun a b => b.timeEnd ≤ a.timeEnd))
    (u : UInt8) :
    (∃ t, firstEnd tasks log u = some t ∧
        IsGreatest {t | ∃ c ∈ log, userOf tasks c = some u ∧ c.timeEnd = t} t) ∨
      (firstEnd tasks log u = none ∧ ∀ c ∈ log, userOf tasks c ≠ some u) := by
  induction log with
  | nil => exact .inr ⟨rfl, fun c hc => by cases hc⟩
  | cons curr rest ih =>
    obtain ⟨hcurr, hrest⟩ := List.pairwise_cons.mp hsorted
    by_cases hu : userOf tasks curr = some u
    · refine .inl ⟨curr.timeEnd, firstEnd_cons_of_eq hu, ⟨curr, List.mem_cons_self, hu, rfl⟩, ?_⟩
      rintro t ⟨c, hc, -, rfl⟩
      rcases List.mem_cons.mp hc with rfl | hc
      · exact le_rfl
      · exact hcurr c hc
    · rw [firstEnd_cons_of_ne hu]
      rcases ih hrest with ⟨t, ht, ⟨c, hc, hcu, hct⟩, hmax⟩ | ⟨hnone, hall⟩
      · refine .inl ⟨t, ht, ⟨c, List.mem_cons_of_mem _ hc, hcu, hct⟩, ?_⟩
        rintro t' ⟨c', hc', hcu', rfl⟩
        rcases List.mem_cons.mp hc' with rfl | hc'
        · exact absurd hcu' hu
        · exact hmax ⟨c', hc', hcu', rfl⟩
      · refine .inr ⟨hnone, fun c hc => ?_⟩
        rcases List.mem_cons.mp hc with rfl | hc
        · exact hu
        · exact hall c hc

end Scan

/-! ## The call -/

section Call

variable (std : StdAlgorithms) (g : Shuffle) (procs : List Processor)
  (procComp : Comparator Processor) (tasks : List SimpleTask) (taskComp : Comparator SimpleTask)
  (tp : TaskProcessorWithTransfer) (nUserHint : UInt8) (shuffle returnProcessed : Bool)

/-- The task vector after shuffling and sorting. -/
def sortedTasks : List SimpleTask :=
  std.sort taskComp (if shuffle then g.shuffle tasks else tasks)

theorem sortedTasks_perm : (sortedTasks std g tasks taskComp shuffle).Perm tasks := by
  unfold sortedTasks
  refine (std.sort_perm _ _).trans ?_
  split
  · exact g.shuffle_perm tasks
  · exact .refl tasks

theorem sortedTasks_sorted : taskComp.Sorted (sortedTasks std g tasks taskComp shuffle) :=
  std.sort_sorted _ _

/-- Sorting keeps the durations non-negative. -/
theorem durationsNonneg_sorted (hmips : ∀ p ∈ procs, 0 < p.mips)
    (hcomplexity : ∀ t ∈ tasks, 0 ≤ t.complexity) (hbandwidth : 0 < tp.bandwidth)
    (hsetup : 0 ≤ tp.connectionSetup) :
    DurationsNonneg tp (std.sort procComp procs) (sortedTasks std g tasks taskComp shuffle) := by
  intro v _ k _
  apply duration_nonneg _ _ hbandwidth hsetup
  · intro p hp
    exact hmips p ((std.sort_perm _ _).mem_iff.mp hp)
  · intro t ht
    exact hcomplexity t ((sortedTasks_perm std g tasks taskComp shuffle).mem_iff.mp ht)

theorem sort_ne_nil {procs : List Processor} (hprocs : procs ≠ []) :
    std.sort procComp procs ≠ [] := by
  intro hnil
  have hperm := std.sort_perm procComp procs
  rw [hnil] at hperm
  exact hprocs (List.nil_perm.mp hperm)

/-- What `simulate` returns when the log of its task processor is `out`. -/
def reported (tasks : List SimpleTask) (nUserHint : UInt8) (returnProcessed : Bool)
    (out : List (TaskCompletition TaskPtr)) : Option SimulateResult :=
  (collectTimes tasks nUserHint out.reverse ∅ (List.replicate nUserHint.toNat 0)).map fun times =>
    { times
      processedTasks := if returnProcessed then out else []
      tasks }

/-- With `return_processed` a call that returns hands out its log. -/
theorem processed_of_reported {tasks : List SimpleTask} {nUserHint : UInt8}
    {out : List (TaskCompletition TaskPtr)} {r : SimulateResult}
    (hr : reported tasks nUserHint true out = some r) :
    r.processedTasks = out ∧ r.tasks = tasks := by
  obtain ⟨times, -, rfl⟩ := Option.map_eq_some_iff.mp hr
  exact ⟨rfl, rfl⟩

/-- On a log of known tasks of known users the scan gives every user the end of
    the user's last completion, or 0. -/
theorem collectTimes_log {tasks : List SimpleTask} {nUserHint : UInt8}
    {out : List (TaskCompletition TaskPtr)} (husers : ∀ t ∈ tasks, t.userid < nUserHint)
    (hlog : ∀ c ∈ out, c.task < tasks.length) :
    ∃ times, collectTimes tasks nUserHint out.reverse ∅ (List.replicate nUserHint.toNat 0) =
        some times ∧ times.length = nUserHint.toNat ∧
      ∀ u < nUserHint, times[u.toNat]? = some ((firstEnd tasks out.reverse u).getD 0) := by
  have hknown : ∀ c ∈ out.reverse, ∃ t, tasks[c.task]? = some t ∧
      t.userid.toNat < nUserHint.toNat := by
    intro c hc
    have hlt := hlog c (List.mem_reverse.mp hc)
    exact ⟨_, List.getElem?_eq_getElem hlt, husers _ (List.getElem_mem hlt)⟩
  obtain ⟨times, hcollect, hlen, htimes⟩ := collectTimes_spec out.reverse ∅
    (List.replicate nUserHint.toNat 0) (List.length_replicate)
    (fun u hu => absurd hu (Finset.notMem_empty u)) hknown
  refine ⟨times, hcollect, hlen, fun u hu => ?_⟩
  -- nobody has a time before the scan, and the times start at 0
  have hstart : (List.replicate nUserHint.toNat (0 : ℚ))[u.toNat]? = some 0 :=
    List.getElem?_replicate_of_lt hu
  rw [htimes u hu, scannedTime_of_notMem (Finset.notMem_empty u), hstart]
  cases firstEnd tasks out.reverse u <;> rfl

/-- `simulate` runs the task processor on the sorted tasks and processors and
    scans the log it gets. -/
theorem simulateWith_of_run {operator : List Processor → List SimpleTask → Option LoopState}
    {st : LoopState}
    (hrun : operator (std.sort procComp procs) (sortedTasks std g tasks taskComp shuffle) = some st)
    (htasks : st.tasks = sortedTasks std g tasks taskComp shuffle) :
    simulateWith operator std g procs procComp tasks taskComp nUserHint shuffle returnProcessed =
      reported (sortedTasks std g tasks taskComp shuffle) nUserHint returnProcessed
        st.processedTasks := by
  have hrun' : operator (std.sort procComp procs)
      (std.sort taskComp (if shuffle then g.shuffle tasks else tasks)) = some st := hrun
  simp only [simulateWith, reported, hrun', Option.bind_eq_bind, Option.bind_some, htasks]
  cases collectTimes (sortedTasks std g tasks taskComp shuffle) nUserHint st.processedTasks.reverse
    ∅ (List.replicate nUserHint.toNat 0) <;> rfl

/-- Every call has a log, which decides all it returns. Without processors the
    log is empty; otherwise it is that of a schedule. -/
theorem simulate_log :
    ∃ out,
      call std tp (std.sort procComp procs) (sortedTasks std g tasks taskComp shuffle) = some out ∧
      (∀ nUserHint returnProcessed,
        simulate std g procs procComp tasks taskComp tp nUserHint shuffle returnProcessed =
          reported (sortedTasks std g tasks taskComp shuffle) nUserHint returnProcessed out) ∧
      (procs = [] → out = []) ∧
      (procs ≠ [] → ∃ w,
        Schedule tp (std.sort procComp procs) (sortedTasks std g tasks taskComp shuffle)
          w out) := by
  by_cases hprocs : procs = []
  · -- nobody to run anything
    have hnil : std.sort procComp procs = [] := by
      rw [hprocs]
      exact List.perm_nil.mp (std.sort_perm procComp [])
    have hst : run std tp (std.sort procComp procs) (sortedTasks std g tasks taskComp shuffle) =
        some (initial (sortedTasks std g tasks taskComp shuffle)) := by
      rw [hnil]
      exact run_nil std tp _
    exact ⟨[], by rw [call, hst]; rfl,
      fun n r => simulateWith_of_run std g procs procComp tasks taskComp n shuffle r hst rfl,
      fun _ => rfl, fun hne => absurd hprocs hne⟩
  · obtain ⟨st, w, hst, htasks, hsched⟩ := run_schedule std tp
      (sortedTasks std g tasks taskComp shuffle) (sort_ne_nil std procComp hprocs)
    exact ⟨st.processedTasks, by rw [call, hst]; rfl,
      fun n r => simulateWith_of_run std g procs procComp tasks taskComp n shuffle r hst htasks,
      fun hnil => absurd hnil hprocs, fun _ => ⟨w, hsched⟩⟩

/-- The log points to tasks there are. -/
theorem simulate_log_task_lt {out : List (TaskCompletition TaskPtr)}
    (hcall : call std tp (std.sort procComp procs) (sortedTasks std g tasks taskComp shuffle) =
      some out) : ∀ c ∈ out, c.task < (sortedTasks std g tasks taskComp shuffle).length := by
  intro c hc
  obtain ⟨out', hcall', -, hnil, hsched⟩ :=
    simulate_log std g procs procComp tasks taskComp tp shuffle
  rw [hcall] at hcall'
  cases hcall'
  by_cases hprocs : procs = []
  · rw [hnil hprocs] at hc
    cases hc
  · obtain ⟨w, hsched⟩ := hsched hprocs
    exact (hsched.eq_completion hc).2

/-- What a user can read off the times: the largest end of the user's tasks, or 0
    for a user without tasks. -/
def IsFinishingTime (tasks : List SimpleTask) (out : List (TaskCompletition TaskPtr)) (u : UInt8)
    (t : ℚ) : Prop :=
  ((∃ task ∈ tasks, task.userid = u) →
    IsGreatest {x | ∃ c ∈ out, userOf tasks c = some u ∧ c.timeEnd = x} t) ∧
  ((∀ task ∈ tasks, task.userid ≠ u) → t = 0)

/-- In a log of all tasks in the order of their ends, the first completion of a user that
    the reverse scan meets is the user's last one. -/
theorem isFinishingTime_of_log {tasks : List SimpleTask} {out : List (TaskCompletition TaskPtr)}
    (hchronological : out.Pairwise (·.timeEnd ≤ ·.timeEnd))
    (hall : ∀ k < tasks.length, ∃ c ∈ out, c.task = k) (u : UInt8) :
    IsFinishingTime tasks out u ((firstEnd tasks out.reverse u).getD 0) := by
  have hrev : out.reverse.Pairwise (fun a b => b.timeEnd ≤ a.timeEnd) :=
    List.pairwise_reverse.mpr hchronological
  rcases firstEnd_isGreatest tasks hrev u with ⟨t, ht, hgreatest⟩ | ⟨hnone, hno⟩
  · rw [ht, Option.getD_some]
    constructor
    · intro _
      simpa only [List.mem_reverse] using hgreatest
    · intro hnobody
      obtain ⟨c, -, hcu, -⟩ := hgreatest.1
      obtain ⟨task, htask, huser⟩ := Option.map_eq_some_iff.mp hcu
      exact absurd huser (hnobody task (List.mem_of_getElem? htask))
  · rw [hnone]
    constructor
    · rintro ⟨task, htask, rfl⟩
      obtain ⟨k, hk, rfl⟩ := List.mem_iff_getElem.mp htask
      obtain ⟨c, hc, rfl⟩ := hall k hk
      have huser : userOf tasks c = some tasks[c.task].userid := by
        rw [userOf, List.getElem?_eq_getElem hk]
        rfl
      exact absurd huser (hno c (List.mem_reverse.mpr hc))
    · intro _
      rfl

theorem Schedule.isFinishingTime {procs : List Processor} {tasks : List SimpleTask} {w : ℕ → ℕ}
    {out : List (TaskCompletition TaskPtr)} (h : Schedule tp procs tasks w out)
    (hd : DurationsNonneg tp procs tasks) (u : UInt8) :
    IsFinishingTime tasks out u ((firstEnd tasks out.reverse u).getD 0) :=
  isFinishingTime_of_log (h.chronological hd) (fun _ hk => ⟨_, h.completion_mem hk, rfl⟩) u

/-- What is known of a call that returned `r`: `procs` are the sorted processors,
    `out` is the log of the task processor and `w` the schedule behind it. -/
structure Simulated (tp : TaskProcessorWithTransfer) (procs : List Processor)
    (tasks : List SimpleTask) (taskComp : Comparator SimpleTask) (nUserHint : UInt8)
    (r : SimulateResult) (w : ℕ → ℕ) (out : List (TaskCompletition TaskPtr)) : Prop where
  perm : r.tasks.Perm tasks
  sorted : taskComp.Sorted r.tasks
  nonneg : DurationsNonneg tp procs r.tasks
  schedule : Schedule tp procs r.tasks w out
  users : ∀ t ∈ r.tasks, t.userid < nUserHint
  length : r.times.length = nUserHint.toNat
  times : ∀ u < nUserHint, ∃ t, r.times[u.toNat]? = some t ∧ IsFinishingTime r.tasks out u t

theorem exists_simulated (hprocs : procs ≠ [])
    (hmips : ∀ p ∈ procs, 0 < p.mips) (hcomplexity : ∀ t ∈ tasks, 0 ≤ t.complexity)
    (husers : ∀ t ∈ tasks, t.userid < nUserHint) (hbandwidth : 0 < tp.bandwidth)
    (hsetup : 0 ≤ tp.connectionSetup) :
    ∃ r out w,
      simulate std g procs procComp tasks taskComp tp nUserHint shuffle returnProcessed = some r ∧
      call std tp (std.sort procComp procs) r.tasks = some out ∧
      r.processedTasks = (if returnProcessed then out else []) ∧
      Simulated tp (std.sort procComp procs) tasks taskComp nUserHint r w out := by
  obtain ⟨out, hcall, hsim, -, hsched⟩ :=
    simulate_log std g procs procComp tasks taskComp tp shuffle
  obtain ⟨w, hsched⟩ := hsched hprocs
  have hperm := sortedTasks_perm std g tasks taskComp shuffle
  have hsorted := sortedTasks_sorted std g tasks taskComp shuffle
  have hd := durationsNonneg_sorted std g procs procComp tasks taskComp tp shuffle hmips hcomplexity
    hbandwidth hsetup
  generalize sortedTasks std g tasks taskComp shuffle = sorted at *
  have husers' : ∀ t ∈ sorted, t.userid < nUserHint := fun t ht => husers t (hperm.mem_iff.mp ht)
  obtain ⟨times, hcollect, hlen, htimes⟩ :=
    collectTimes_log husers' (fun c hc => (hsched.eq_completion hc).2)
  exact ⟨_, out, w, by rw [hsim, reported, hcollect]; rfl, hcall, rfl, hperm, hsorted, hd, hsched,
    husers', hlen, fun u hu => ⟨_, htimes u hu, hsched.isFinishingTime tp hd u⟩⟩

/-- `simulate` returns, and the times it reports are the finishing times in the
    completion log of its task processor. -/
theorem simulate_times (hprocs : procs ≠ [])
    (hmips : ∀ p ∈ procs, 0 < p.mips) (hcomplexity : ∀ t ∈ tasks, 0 ≤ t.complexity)
    (husers : ∀ t ∈ tasks, t.userid < nUserHint) (hbandwidth : 0 < tp.bandwidth)
    (hsetup : 0 ≤ tp.connectionSetup) :
    ∃ r out,
      simulate std g procs procComp tasks taskComp tp nUserHint shuffle returnProcessed = some r ∧
      r.tasks.Perm tasks ∧ call std tp (std.sort procComp procs) r.tasks = some out ∧
      r.processedTasks = (if returnProcessed then out else []) ∧
      r.times.length = nUserHint.toNat ∧
      ∀ u < nUserHint, ∃ t, r.times[u.toNat]? = some t ∧ IsFinishingTime r.tasks out u t := by
  obtain ⟨r, out, w, hsim, hcall, hprocessed, h⟩ := exists_simulated std g procs procComp tasks
    taskComp tp nUserHint shuffle returnProcessed hprocs hmips hcomplexity husers hbandwidth hsetup
  exact ⟨r, out, hsim, h.perm, hcall, hprocessed, h.length, h.times⟩

end Call

section Simulated

variable {tp : TaskProcessorWithTransfer} {procs : List Processor} {tasks : List SimpleTask}
  {taskComp : Comparator SimpleTask} {nUserHint : UInt8} {r : SimulateResult} {w : ℕ → ℕ}
  {out : List (TaskCompletition TaskPtr)}

/-- Nothing ends after the largest of the times. -/
theorem Simulated.exists_time_ge (h : Simulated tp procs tasks taskComp nUserHint r w out)
    {c : TaskCompletition TaskPtr} (hc : c ∈ out) : ∃ t ∈ r.times, c.timeEnd ≤ t := by
  obtain ⟨k, hk, rfl⟩ := h.schedule.mem_iff.mp hc
  have htask := List.getElem_mem hk
  obtain ⟨t, ht, hfinishing⟩ := h.times _ (h.users _ htask)
  exact ⟨t, List.mem_of_getElem? ht,
    (hfinishing.1 ⟨_, htask, rfl⟩).2 ⟨_, hc, userOf_completion hk, rfl⟩⟩

/-- A user of one run is done no later than a user of another if everything the
    first completes is followed by something of the second. -/
theorem IsFinishingTime.le_of_later {tasks' : List SimpleTask}
    {out' : List (TaskCompletition TaskPtr)} {u u' : UInt8} {t t' : ℚ}
    (h : IsFinishingTime tasks out u t) (h' : IsFinishingTime tasks' out' u' t')
    (huser : ∃ task ∈ tasks', task.userid = u')
    (hlater : ∀ c' ∈ out', ∃ c ∈ out, userOf tasks c = some u ∧ c'.timeEnd ≤ c.timeEnd) :
    t' ≤ t := by
  obtain ⟨c', hc', -, rfl⟩ := (h'.1 huser).1
  obtain ⟨c, hc, hcu, hle⟩ := hlater c' hc'
  obtain ⟨task, htask, hu⟩ := Option.map_eq_some_iff.mp hcu
  have hmax := (h.1 ⟨task, List.mem_of_getElem? htask, hu⟩).2
  exact hle.trans (hmax ⟨c, hc, hcu, rfl⟩)

end Simulated

theorem simulate_times_two_users :
    ∃ r out, simulate .reference .identity [⟨2⟩, ⟨1⟩] Processor.slowFirst
        [⟨4, 1, 0⟩, ⟨2, 1, 1⟩, ⟨6, 1, 1⟩] SimpleTask.largeFirst ⟨1, 1⟩ 3 false true = some r ∧
      r.processedTasks = out ∧
      ∀ u < 3, ∃ t, r.times[u.toNat]? = some t ∧ IsFinishingTime r.tasks out u t := by
  obtain ⟨r, out, hsim, -, -, hproc, -, htimes⟩ := simulate_times .reference .identity
    [⟨2⟩, ⟨1⟩] Processor.slowFirst [⟨4, 1, 0⟩, ⟨2, 1, 1⟩, ⟨6, 1, 1⟩] SimpleTask.largeFirst ⟨1, 1⟩ 3
    false true (List.cons_ne_nil _ _) (by decide +kernel) (by decide +kernel)
    (by decide +kernel) (by decide +kernel) (by decide +kernel)
  exact ⟨r, out, hsim, hproc, htimes⟩

/-! ## Whose processor a worker index names -/

section WorkerIndex

variable (std : StdAlgorithms) (g : Shuffle) (procs : List Processor)
  (procComp : Comparator Processor) (tasks : List SimpleTask) (taskComp : Comparator SimpleTask)
  (tp : TaskProcessorWithTransfer) (shuffle : Bool)

/-- Division by different speeds gives different times, unless nothing is
    divided. -/
theorem div_eq_div_iff_mips {complexity p q : ℚ} (hp : 0 < p) (hq : 0 < q) :
    complexity / p = complexity / q ↔ complexity = 0 ∨ q = p := by
  rw [div_eq_div_iff hp.ne' hq.ne']
  constructor
  · intro h
    rcases eq_or_ne complexity 0 with h0 | h0
    · exact .inl h0
    · exact .inr (mul_left_cancel₀ h0 h)
  · rintro (rfl | rfl)
    · simp
    · rfl

/-- A worker index in the log is a position in `simulate`'s own copy of the
    processors, which is sorted by `proc_comp`. At the same position of the
    caller's vector the time only fits when that processor is as fast, or when
    the task has no work. -/
theorem worker_index_names_sorted_processor (hmips : ∀ p ∈ procs, 0 < p.mips) :
    ∃ out, call std tp (std.sort procComp procs) (sortedTasks std g tasks taskComp shuffle) =
      some out ∧
      (∀ nUserHint r,
        simulate std g procs procComp tasks taskComp tp nUserHint shuffle true = some r →
        r.processedTasks = out ∧ r.tasks = sortedTasks std g tasks taskComp shuffle) ∧
      (std.sort procComp procs).Perm procs ∧ procComp.Sorted (std.sort procComp procs) ∧
      ∀ c ∈ out, ∃ p q task, (std.sort procComp procs)[c.workerIndex]? = some p ∧
        procs[c.workerIndex]? = some q ∧
        (sortedTasks std g tasks taskComp shuffle)[c.task]? = some task ∧
        c.timeEnd - c.timeStart =
          task.complexity / p.mips + tp.transferTime task.bitsToTransfer ∧
        (c.timeEnd - c.timeStart =
            task.complexity / q.mips + tp.transferTime task.bitsToTransfer ↔
          task.complexity = 0 ∨ q.mips = p.mips) := by
  have hperm := std.sort_perm procComp procs
  obtain ⟨out, hcall, hsim, hnil, hsched⟩ :=
    simulate_log std g procs procComp tasks taskComp tp shuffle
  refine ⟨out, hcall,
    fun n r hr => processed_of_reported ((hsim n true).symm.trans hr), hperm, std.sort_sorted _ _,
    fun c hc => ?_⟩
  by_cases hprocs : procs = []
  · rw [hnil hprocs] at hc
    cases hc
  · obtain ⟨w, hsched⟩ := hsched hprocs
    obtain ⟨p, task, hp, htask, htime⟩ := hsched.timeEnd_sub_timeStart hc
    have hlt : c.workerIndex < procs.length := by
      rw [← hperm.length_eq]
      exact (List.getElem?_eq_some_iff.mp hp).1
    refine ⟨p, procs[c.workerIndex], task, hp, List.getElem?_eq_getElem hlt, htask, htime, ?_⟩
    rw [htime, add_left_inj]
    apply div_eq_div_iff_mips
    · exact hmips p (hperm.mem_iff.mp (List.mem_of_getElem? hp))
    · exact hmips _ (List.getElem_mem hlt)

end WorkerIndex

theorem worker_index_names_sorted_processor_two_workers :
    ∃ out, call .reference ⟨1, 0⟩ (StdAlgorithms.reference.sort Processor.slowFirst [⟨2⟩, ⟨1⟩])
        (sortedTasks .reference .identity [⟨2, 0, 0⟩] SimpleTask.smallFirst false) = some out ∧
      ∀ c ∈ out, ∃ p q : Processor, ∃ task : SimpleTask, [⟨2⟩, ⟨1⟩][c.workerIndex]? = some q ∧
        (c.timeEnd - c.timeStart =
            task.complexity / q.mips + transferTime ⟨1, 0⟩ task.bitsToTransfer ↔
          task.complexity = 0 ∨ q.mips = p.mips) := by
  obtain ⟨out, hcall, -, -, -, hall⟩ := worker_index_names_sorted_processor .reference .identity
    [⟨2⟩, ⟨1⟩] Processor.slowFirst [⟨2, 0, 0⟩] SimpleTask.smallFirst ⟨1, 0⟩ false
    (by decide +kernel)
  refine ⟨out, hcall, fun c hc => ?_⟩
  obtain ⟨p, q, task, -, hq, -, -, hiff⟩ := hall c hc
  exact ⟨p, q, task, hq, hiff⟩

/-- With processors of speeds 2 and 1 and the slow one preferred, the log's
    worker 0 is the caller's processor 1: a task of complexity 2 takes it 2, not
    the 1 it would take the caller's processor 0. -/
theorem worker_index_not_callers_processor :
    ∃ r c p task, simulate .reference .identity [⟨2⟩, ⟨1⟩] Processor.slowFirst [⟨2, 0, 0⟩]
        SimpleTask.smallFirst ⟨1, 0⟩ 1 false true = some r ∧
      c ∈ r.processedTasks ∧ [Processor.mk 2, ⟨1⟩][c.workerIndex]? = some p ∧
      r.tasks[c.task]? = some task ∧
      c.timeEnd - c.timeStart ≠
        task.complexity / p.mips + transferTime ⟨1, 0⟩ task.bitsToTransfer := by
  refine ⟨⟨[2], [⟨0, 2, 0, 0⟩], [⟨2, 0, 0⟩]⟩, ⟨0, 2, 0, 0⟩, ⟨2⟩, ⟨2, 0, 0⟩, ?_, ?_, rfl, rfl, ?_⟩
  · decide +kernel
  · exact List.mem_singleton.mpr rfl
  · decide +kernel

end Smpp
