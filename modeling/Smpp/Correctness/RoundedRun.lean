-- SUMMARY: A run at any timing is an exact run on other tasks, so the log of a rounded run is that of a greedy schedule.
import Smpp.Correctness.Causality
import Smpp.Model.Rounded

/-!
# Runs in rounded arithmetic

What a timing does to a task is known when the task is handed out: it says how long the
task seems to take. An exact run on tasks that take just so long goes through the same
states, and so what is known of exact runs is known of those in rounded arithmetic.
-/

open ListScheduling

namespace Smpp

namespace Timing

/-! ## Exact runs on given times -/

/-- A task that takes time `t` on a processor of rate 1 with a connection that costs
    nothing. -/
def job (t : ℚ) : SimpleTask := ⟨t, 0, 0⟩

/-- The connection that costs nothing. -/
def noTransfer : TaskProcessorWithTransfer := ⟨1, 0⟩

/-- As many processors of rate 1. -/
def unitProcs (procs : List Processor) : List Processor := procs.map fun _ => ⟨1⟩

theorem timeToProcess_job (t : ℚ) : noTransfer.timeToProcess ⟨1⟩ (job t) = t := by
  simp [TaskProcessorWithTransfer.timeToProcess, TaskProcessorWithTransfer.transferTime,
    Processor.timeToComplete, noTransfer, job]

@[simp] theorem length_unitProcs (procs : List Processor) :
    (unitProcs procs).length = procs.length :=
  List.length_map _

theorem getElem?_unitProcs {procs : List Processor} {v : ℕ} {proc : Processor}
    (h : procs[v]? = some proc) : (unitProcs procs)[v]? = some ⟨1⟩ := by
  rw [unitProcs, List.getElem?_map, h]
  rfl

/-- The state with tasks that take the given times. -/
def withJobs (jobs : List ℚ) (st : LoopState) : LoopState := { st with tasks := jobs.map job }

section Shadow

variable {tm : Timing} {std : StdAlgorithms} {procs : List Processor} {st st' : LoopState}
  {jobs before : List ℚ}

/-! ## One step -/

variable (tm std procs) in
/-- How long the next task seems to take, from when its worker is free to its end. -/
def nextTime (st : LoopState) : ℚ :=
  match st.pQueue.pop std with
  | none => 0
  | some (tk, _) =>
    match procs[tk.workerIndex]?, st.tasks[st.taskIterator]? with
    | some proc, some task => tm.timeEnd tk.timeEnd (tm.timeToProcess proc task) - tk.timeEnd
    | _, _ => 0

/-- With the right time for the next task the exact step does what the other one does. -/
theorem eventStep_withJobs (hlength : jobs.length = st.tasks.length)
    (hnext : st.taskIterator < st.tasks.length →
      jobs[st.taskIterator]? = some (nextTime tm std procs st)) :
    TaskProcessorWithTransfer.eventStep std noTransfer (unitProcs procs) (withJobs jobs st) =
      (eventStep std tm procs st).map (withJobs jobs) := by
  have hjobs : (jobs.map job).length = st.tasks.length := by rwa [List.length_map]
  simp only [eventStep, TaskProcessorWithTransfer.eventStep_eq, withJobs, hjobs]
  cases hpop : st.pQueue.pop std with
  | none => rfl
  | some popped =>
    obtain ⟨tk, q⟩ := popped
    simp only [Option.bind_eq_bind, Option.bind_some]
    split
    · rfl
    · cases hproc : procs[tk.workerIndex]? with
      | none =>
        have hproc' : (unitProcs procs)[tk.workerIndex]? = none := by
          rw [unitProcs, List.getElem?_map, hproc]
          rfl
        simp only [hproc', Option.bind_none, Option.map_none]
      | some proc =>
        simp only [getElem?_unitProcs hproc, Option.bind_some]
        cases htask : st.tasks[st.taskIterator]? with
        | none =>
          have htask' : (jobs.map job)[st.taskIterator]? = none := by
            rw [List.getElem?_eq_none_iff, hjobs]
            exact List.getElem?_eq_none_iff.mp htask
          simp only [htask', Option.bind_none, Option.map_none]
        | some task =>
          have htime := hnext (List.getElem?_eq_some_iff.mp htask).1
          simp only [nextTime, hpop, hproc, htask] at htime
          simp only [List.getElem?_map, htime, Option.map_some, Option.bind_some, timeToProcess_job,
            add_sub_cancel]
          rfl

/-- A step leaves the tasks alone and hands out the next one, if there is one. -/
theorem eventStep_iterator (hstep : eventStep std tm procs st = some st') :
    st'.tasks = st.tasks ∧ st'.taskIterator =
      if st.taskIterator = st.tasks.length then st.taskIterator else st.taskIterator + 1 := by
  obtain ⟨tk, q, -, ⟨hend, rfl⟩ | ⟨proc, task, -, htask, rfl⟩⟩ := eventStep_cases hstep
  · exact ⟨rfl, (if_pos hend).symm⟩
  · exact ⟨rfl, (if_neg (List.getElem?_eq_some_iff.mp htask).1.ne).symm⟩

/-! ## The event loop -/

theorem exists_length_eq {n : ℕ} (h : before.length ≤ n) :
    ∃ later : List ℚ, (before ++ later).length = n := by
  refine ⟨List.replicate (n - before.length) 0, ?_⟩
  rw [List.length_append, List.length_replicate]
  omega

/-- Whatever times the tasks have that are handed out, there are times for the others. -/
theorem exists_eventLoop_withJobs (fuel : ℕ) :
    ∀ {st : LoopState} {before : List ℚ}, before.length = st.taskIterator →
      st.taskIterator ≤ st.tasks.length →
      ∃ later : List ℚ, (before ++ later).length = st.tasks.length ∧
        TaskProcessorWithTransfer.eventLoop std noTransfer (unitProcs procs) fuel
            (withJobs (before ++ later) st) =
          (eventLoop std tm procs fuel st).map (withJobs (before ++ later)) := by
  induction fuel with
  | zero =>
    intro st before hbefore hle
    obtain ⟨later, hlater⟩ := exists_length_eq (hbefore ▸ hle)
    exact ⟨later, hlater, rfl⟩
  | succ fuel ih =>
    intro st before hbefore hle
    simp only [TaskProcessorWithTransfer.eventLoop_succ, eventLoop]
    by_cases hempty : st.pQueue.empty = true
    · obtain ⟨later, hlater⟩ := exists_length_eq (hbefore ▸ hle)
      refine ⟨later, hlater, ?_⟩
      have hempty' : (withJobs (before ++ later) st).pQueue.empty = true := hempty
      rw [if_pos hempty, if_pos hempty', Option.map_some]
    · -- the time of the task this round hands out
      obtain ⟨next, hnext, hright⟩ : ∃ next : List ℚ,
          (before ++ next).length =
            (if st.taskIterator = st.tasks.length then st.taskIterator else st.taskIterator + 1) ∧
          ∀ later, st.taskIterator < st.tasks.length →
            (before ++ next ++ later)[st.taskIterator]? = some (nextTime tm std procs st) := by
        by_cases hend : st.taskIterator = st.tasks.length
        · refine ⟨[], by rw [List.append_nil, if_pos hend, hbefore], fun _ hmore => ?_⟩
          exact absurd hend hmore.ne
        · refine ⟨[nextTime tm std procs st], ?_, fun later _ => ?_⟩
          · rw [List.length_append, List.length_singleton, if_neg hend, hbefore]
          · rw [List.append_assoc, ← hbefore, List.getElem?_append_right le_rfl, Nat.sub_self]
            rfl
      have hstep : ∀ later, (before ++ next ++ later).length = st.tasks.length →
          TaskProcessorWithTransfer.eventStep std noTransfer (unitProcs procs)
              (withJobs (before ++ next ++ later) st) =
            (eventStep std tm procs st).map (withJobs (before ++ next ++ later)) :=
        fun later hlater => eventStep_withJobs hlater (hright later)
      have hfits : (before ++ next).length ≤ st.tasks.length := by
        rw [hnext]
        split <;> omega
      cases hst : eventStep std tm procs st with
      | none =>
        obtain ⟨later, hlater⟩ := exists_length_eq hfits
        refine ⟨next ++ later, by rwa [← List.append_assoc], ?_⟩
        rw [← List.append_assoc, if_neg hempty, if_neg (by exact hempty), hstep later hlater, hst]
        rfl
      | some st' =>
        obtain ⟨htasks, hit⟩ := eventStep_iterator hst
        rw [← hit] at hnext
        obtain ⟨later, hlater, hloop⟩ := ih hnext (by rw [htasks, ← hnext]; exact hfits)
        rw [htasks] at hlater
        refine ⟨next ++ later, by rwa [← List.append_assoc], ?_⟩
        rw [← List.append_assoc, if_neg hempty, if_neg (by exact hempty), hstep later hlater, hst]
        exact hloop

/-! ## The first round -/

/-- A worker's first task runs from 0 on. -/
theorem firstRound_withJobs {proc : Processor} {rest : List Processor} {i : ℕ} {task : SimpleTask}
    (hlength : jobs.length = st.tasks.length) (htask : st.tasks[st.taskIterator]? = some task)
    (hjob : jobs[st.taskIterator]? = some (tm.timeToProcess proc task)) :
    TaskProcessorWithTransfer.firstRound std noTransfer (unitProcs (proc :: rest)) i
        (withJobs jobs st) =
      TaskProcessorWithTransfer.firstRound std noTransfer (unitProcs rest) (i + 1)
        (withJobs jobs { st with
          pQueue := st.pQueue.emplace std ⟨0, tm.timeToProcess proc task, i, st.taskIterator⟩
          taskIterator := st.taskIterator + 1 }) := by
  have hjobs : (jobs.map job).length = st.tasks.length := by rwa [List.length_map]
  have hmore := (List.getElem?_eq_some_iff.mp htask).1
  simp only [unitProcs, List.map_cons, TaskProcessorWithTransfer.firstRound_cons, withJobs, hjobs,
    if_neg hmore.ne, List.getElem?_map, hjob, Option.map_some, Option.bind_eq_bind,
    Option.bind_some, timeToProcess_job]

theorem exists_firstRound_withJobs (rest : List Processor) :
    ∀ {i : ℕ} {st : LoopState} {before : List ℚ}, before.length = st.taskIterator →
      st.taskIterator ≤ st.tasks.length →
      ∃ (next : List ℚ) (st' : LoopState), firstRound std tm rest i st = some st' ∧
        st'.tasks = st.tasks ∧ (before ++ next).length = st'.taskIterator ∧
        st'.taskIterator ≤ st.tasks.length ∧
        ∀ later, (before ++ next ++ later).length = st.tasks.length →
          TaskProcessorWithTransfer.firstRound std noTransfer (unitProcs rest) i
              (withJobs (before ++ next ++ later) st) =
            some (withJobs (before ++ next ++ later) st') := by
  induction rest with
  | nil =>
    intro i st before hbefore hle
    exact ⟨[], st, rfl, rfl, by rwa [List.append_nil], hle, fun _ _ => rfl⟩
  | cons proc rest ih =>
    intro i st before hbefore hle
    by_cases hend : st.taskIterator = st.tasks.length
    · refine ⟨[], st, by rw [firstRound, if_pos hend], rfl, by rwa [List.append_nil], hle, ?_⟩
      intro later hlater
      have hend' : (withJobs (before ++ [] ++ later) st).taskIterator =
          (withJobs (before ++ [] ++ later) st).tasks.length := by
        rw [withJobs, List.length_map, hlater, hend]
      simp only [unitProcs, List.map_cons, TaskProcessorWithTransfer.firstRound_cons, if_pos hend']
    · have hmore : st.taskIterator < st.tasks.length := lt_of_le_of_ne hle hend
      obtain ⟨task, htask⟩ : ∃ task, st.tasks[st.taskIterator]? = some task :=
        ⟨_, List.getElem?_eq_getElem hmore⟩
      obtain ⟨next, st', hround, htasks, hit, hle', hshadow⟩ := @ih (i + 1)
        { st with
          pQueue := st.pQueue.emplace std ⟨0, tm.timeToProcess proc task, i, st.taskIterator⟩
          taskIterator := st.taskIterator + 1 }
        (before ++ [tm.timeToProcess proc task])
        (by rw [List.length_append, List.length_singleton, hbefore]) hmore
      have hcons : ∀ later, before ++ tm.timeToProcess proc task :: next ++ later =
          before ++ [tm.timeToProcess proc task] ++ next ++ later := by simp
      refine ⟨tm.timeToProcess proc task :: next, st', ?_, htasks, ?_, hle', fun later hlater => ?_⟩
      · rw [firstRound, if_neg hend, htask]
        exact hround
      · rwa [List.append_assoc, List.singleton_append] at hit
      · have hjob : (before ++ tm.timeToProcess proc task :: next ++ later)[st.taskIterator]? =
            some (tm.timeToProcess proc task) := by
          rw [List.append_assoc, ← hbefore, List.getElem?_append_right le_rfl, Nat.sub_self]
          rfl
        rw [firstRound_withJobs hlater htask hjob]
        rw [hcons] at hlater ⊢
        exact hshadow later hlater

/-! ## The run -/

variable (tm std procs) in
theorem exists_run_withJobs (tasks : List SimpleTask) :
    ∃ jobs : List ℚ, jobs.length = tasks.length ∧
      TaskProcessorWithTransfer.run std noTransfer (unitProcs procs) (jobs.map job) =
        (run std tm procs tasks).map (withJobs jobs) := by
  obtain ⟨next, first, hround, htasks, hit, hle, hshadow⟩ :=
    @exists_firstRound_withJobs tm std procs 0 (initial tasks) [] rfl (Nat.zero_le _)
  rw [List.nil_append] at hit
  obtain ⟨later, hlater, hloop⟩ :=
    @exists_eventLoop_withJobs tm std procs (tasks.length + 1) first next hit (by rwa [htasks])
  rw [htasks] at hlater
  refine ⟨next ++ later, hlater, ?_⟩
  have hinitial : initial ((next ++ later).map job) = withJobs ([] ++ next ++ later)
      (initial tasks) :=
    rfl
  have hfuel : (List.map job (next ++ later)).length = tasks.length := by
    rw [List.length_map]
    exact hlater
  rw [TaskProcessorWithTransfer.run_eq, hfuel, hinitial, hshadow later hlater, run, hround]
  exact hloop

variable (tm std procs) in
/-- A run at any timing returns, and its log is that of a schedule of tasks that take as long
    as they seem to. -/
theorem exists_schedule (tasks : List SimpleTask) (hprocs : procs ≠ []) :
    ∃ (st : LoopState) (jobs : List ℚ) (w : ℕ → ℕ), run std tm procs tasks = some st ∧
      jobs.length = tasks.length ∧
      Schedule noTransfer (unitProcs procs) (jobs.map job) w st.processedTasks := by
  obtain ⟨jobs, hjobs, hshadow⟩ := exists_run_withJobs tm std procs tasks
  have hunit : unitProcs procs ≠ [] := by simpa [unitProcs] using hprocs
  obtain ⟨st', w, hst', -, hsched⟩ := run_schedule std noTransfer (jobs.map job) hunit
  rw [hst'] at hshadow
  obtain ⟨st, hst, rfl⟩ := Option.map_eq_some_iff.mp hshadow.symm
  exact ⟨st, jobs, w, hst, hjobs, hsched⟩

end Shadow

end Timing

/-! ## What rounding did to the tasks -/

namespace Rounded

variable {u : ℚ} {fl : Rounding ℚ u} {std : StdAlgorithms} {tp : TaskProcessorWithTransfer}
  {procs : List Processor} {tasks : List SimpleTask} {st st' : LoopState}

variable (fl tp procs) in
/-- The completion starts at a rounded time and ends its task's time later, rounded. -/
def Explained (tasks : List SimpleTask) (c : TaskCompletition TaskPtr) : Prop :=
  ∃ proc ∈ procs, ∃ task, tasks[c.task]? = some task ∧ fl.round c.timeStart = c.timeStart ∧
    c.timeEnd = fl.round (c.timeStart + timeToProcess fl tp proc task)

/-- Ends are rounded. -/
theorem Explained.round_timeEnd {c : TaskCompletition TaskPtr} (h : Explained fl tp procs tasks c) :
    fl.round c.timeEnd = c.timeEnd := by
  obtain ⟨proc, -, task, -, -, hend⟩ := h
  rw [hend, fl.round_round]

variable (fl tp procs) in
/-- All completions are explained, in the log and in flight. -/
structure Inv (tasks : List SimpleTask) (st : LoopState) : Prop where
  valid : st.pQueue.Valid
  tasks_eq : st.tasks = tasks
  explained : ∀ c ∈ st.handedOut, Explained fl tp procs tasks c

theorem Inv.dispatch (h : Inv fl tp procs tasks st) (std : StdAlgorithms)
    {c : TaskCompletition TaskPtr} (hc : Explained fl tp procs tasks c) :
    Inv fl tp procs tasks { st with
      pQueue := st.pQueue.emplace std c
      taskIterator := st.taskIterator + 1 } := by
  refine ⟨h.valid.emplace std c, h.tasks_eq, fun c' hc' => ?_⟩
  rcases List.mem_append.mp hc' with hc' | hc'
  · exact h.explained c' (List.mem_append_left _ hc')
  · rcases List.mem_append.mp ((h.valid.emplace_perm std c).mem_iff.mp hc') with hc' | hc'
    · exact h.explained c' (List.mem_append_right _ hc')
    · rwa [List.mem_singleton.mp hc']

theorem Inv.pop (h : Inv fl tp procs tasks st) {tk : TaskCompletition TaskPtr} {q : TaskQueue}
    (hpop : st.pQueue.pop std = some (tk, q)) :
    Explained fl tp procs tasks tk ∧
      Inv fl tp procs tasks
        { st with pQueue := q, processedTasks := st.processedTasks ++ [tk] } := by
  have hpopped := h.valid.popped std hpop
  have htk : Explained fl tp procs tasks tk :=
    h.explained tk (List.mem_append_right _ (hpopped.perm.mem_iff.mpr List.mem_cons_self))
  refine ⟨htk, hpopped.valid, h.tasks_eq, fun c hc => ?_⟩
  rcases List.mem_append.mp hc with hc | hc
  · rcases List.mem_append.mp hc with hc | hc
    · exact h.explained c (List.mem_append_left _ hc)
    · rwa [List.mem_singleton.mp hc]
  · exact h.explained c
      (List.mem_append_right _ (hpopped.perm.mem_iff.mpr (List.mem_cons_of_mem _ hc)))

theorem Inv.eventStep (h : Inv fl tp procs tasks st)
    (hstep : (timing fl tp).eventStep std procs st = some st') : Inv fl tp procs tasks st' := by
  obtain ⟨tk, q, hq, hcase⟩ := Timing.eventStep_cases hstep
  obtain ⟨htk, hpopped⟩ := h.pop hq
  rcases hcase with ⟨-, rfl⟩ | ⟨proc, task, hproc, htask, rfl⟩
  · exact hpopped
  · -- the next task starts at the end of the last one
    exact hpopped.dispatch std ⟨proc, List.mem_of_getElem? hproc, task, h.tasks_eq ▸ htask,
      htk.round_timeEnd, rfl⟩

theorem Inv.run (hrun : (timing fl tp).run std procs tasks = some st) :
    Inv fl tp procs tasks st := by
  obtain ⟨first, hfirst, hloop⟩ := Option.bind_eq_some_iff.mp hrun
  have hinitial : Inv fl tp procs tasks (initial tasks) :=
    ⟨PriorityQueue.new_valid _, rfl, fun c hc => by cases hc⟩
  have hround : Inv fl tp procs tasks first := by
    refine Timing.firstRound_invariant (fun {s proc task i} hs hproc htask => ?_) hinitial hfirst
    refine hs.dispatch std ⟨proc, hproc, task, hs.tasks_eq ▸ htask, fl.round_zero, ?_⟩
    change timeToProcess fl tp proc task = fl.round (0 + timeToProcess fl tp proc task)
    rw [zero_add, timeToProcess, fl.round_round]
  exact (Timing.eventLoop_invariant (P := Inv fl tp procs tasks) .eventStep hround hloop).1

end Rounded

end Smpp
