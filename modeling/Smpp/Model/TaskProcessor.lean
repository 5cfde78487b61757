-- SUMMARY: The event-driven task processor: the first dispatch round and the event loop, over explicit states.
import Smpp.Model.PriorityQueue
import Smpp.Model.Task

/-!
# The task processor

`TaskProcessorWithTransfer::operator()` hands the first tasks to the workers in
order, then repeatedly takes the earliest completion off the queue and gives its
worker the next task. Both loops advance the same iterator.

`none` stands for undefined behaviour (an access out of range, a `pop` on an
empty queue) and for a loop that has used up its fuel.
-/

namespace Smpp

/-- `TaskProcessor::task_queue`. -/
abbrev TaskQueue := PriorityQueue (TaskCompletition TaskPtr)

/-- The vector the task processor was called with and its local variables. -/
structure LoopState where
  tasks : List SimpleTask
  taskIterator : ℕ
  pQueue : TaskQueue
  processedTasks : List (TaskCompletition TaskPtr)

/-! ## The loops -/

/-- What the loops compute with times: how long a processor takes for a task, and when it
    ends if it takes that long from its start. -/
structure Timing where
  timeToProcess : Processor → SimpleTask → ℚ
  timeEnd : ℚ → ℚ → ℚ

/-- The locals before the first loop. -/
def initial (tasks : List SimpleTask) : LoopState :=
  ⟨tasks, 0, .new TaskCompletition.laterFirst, []⟩

namespace Timing

variable (std : StdAlgorithms) (tm : Timing)

/-- The `for` loop from worker `i` on, where the list holds `procs[i]` and the
    processors behind it. -/
def firstRound : List Processor → ℕ → LoopState → Option LoopState
  | [], _, st => some st
  | proc :: rest, i, st =>
    if st.taskIterator = st.tasks.length then some st
    else do
      let task ← st.tasks[st.taskIterator]?
      firstRound rest (i + 1)
        { st with
          pQueue := st.pQueue.emplace std ⟨0, tm.timeToProcess proc task, i, st.taskIterator⟩
          taskIterator := st.taskIterator + 1 }

/-- The body of the `while` loop. -/
def eventStep (procs : List Processor) (st : LoopState) : Option LoopState := do
  let (tk, pQueue) ← st.pQueue.pop std
  if st.taskIterator = st.tasks.length then
    some { st with pQueue, processedTasks := st.processedTasks ++ [tk] }
  else
    let proc ← procs[tk.workerIndex]?
    let task ← st.tasks[st.taskIterator]?
    some { st with
      pQueue := pQueue.emplace std
        ⟨tk.timeEnd, tm.timeEnd tk.timeEnd (tm.timeToProcess proc task), tk.workerIndex,
          st.taskIterator⟩
      taskIterator := st.taskIterator + 1
      processedTasks := st.processedTasks ++ [tk] }

/-- `while (!p_queue.empty())`, with the body run at most `fuel - 1` times. -/
def eventLoop (procs : List Processor) : ℕ → LoopState → Option LoopState
  | 0, _ => none
  | fuel + 1, st =>
    if st.pQueue.empty then some st
    else (eventStep std tm procs st).bind (eventLoop procs fuel)

/-- The state in which `operator()` returns. Every round of the event loop
    finishes one task, which is why this much fuel is enough. -/
def run (procs : List Processor) (tasks : List SimpleTask) : Option LoopState := do
  let st ← firstRound std tm procs 0 (initial tasks)
  eventLoop std tm procs (tasks.length + 1) st

variable {std tm} {procs rest : List Processor} {proc : Processor} {i fuel : ℕ} {st st' : LoopState}

/-- What every task handed out in the first round preserves holds after it. -/
theorem firstRound_invariant {P : LoopState → Prop}
    (hstep : ∀ {s proc task i}, P s → proc ∈ rest → s.tasks[s.taskIterator]? = some task →
      P { s with
        pQueue := s.pQueue.emplace std ⟨0, tm.timeToProcess proc task, i, s.taskIterator⟩
        taskIterator := s.taskIterator + 1 }) :
    ∀ {i st}, P st → firstRound std tm rest i st = some st' → P st' := by
  induction rest with
  | nil =>
    intro i st hP h
    cases h
    exact hP
  | cons proc rest ih =>
    intro i st hP h
    rw [firstRound] at h
    split at h
    · cases h
      exact hP
    · obtain ⟨task, htask, hrest⟩ := Option.bind_eq_some_iff.mp h
      exact ih (fun hs hproc => hstep hs (List.mem_cons_of_mem _ hproc))
        (hstep hP List.mem_cons_self htask) hrest

/-- One round of the event loop takes a completion off the queue and, while
    there are tasks left, hands the next one to the worker that became free. -/
theorem eventStep_cases (h : eventStep std tm procs st = some st') :
    ∃ tk q, st.pQueue.pop std = some (tk, q) ∧
      ((st.taskIterator = st.tasks.length ∧
          st' = { st with pQueue := q, processedTasks := st.processedTasks ++ [tk] }) ∨
        ∃ proc task, procs[tk.workerIndex]? = some proc ∧
          st.tasks[st.taskIterator]? = some task ∧
          st' = { st with
            pQueue := q.emplace std
              ⟨tk.timeEnd, tm.timeEnd tk.timeEnd (tm.timeToProcess proc task), tk.workerIndex,
                st.taskIterator⟩
            taskIterator := st.taskIterator + 1
            processedTasks := st.processedTasks ++ [tk] }) := by
  simp only [eventStep, Option.bind_eq_bind, Option.bind_eq_some_iff] at h
  obtain ⟨⟨tk, q⟩, hpop, h⟩ := h
  refine ⟨tk, q, hpop, ?_⟩
  split at h
  · rename_i hend
    cases h
    exact .inl ⟨hend, rfl⟩
  · simp only [Option.bind_eq_some_iff, Option.some.injEq] at h
    obtain ⟨proc, hproc, task, htask, rfl⟩ := h
    exact .inr ⟨proc, task, hproc, htask, rfl⟩

/-- What every round of the event loop preserves holds when the loop ends, with
    the queue drained. -/
theorem eventLoop_invariant {P : LoopState → Prop}
    (hstep : ∀ {s s'}, P s → eventStep std tm procs s = some s' → P s') {fuel : ℕ} :
    ∀ {st st'}, P st → eventLoop std tm procs fuel st = some st' →
      P st' ∧ st'.pQueue.container = [] := by
  induction fuel with
  | zero => intro st st' _ h; simp [eventLoop] at h
  | succ fuel ih =>
    intro st st' hP h
    rw [eventLoop] at h
    split at h
    · rename_i hempty
      cases h
      exact ⟨hP, PriorityQueue.empty_eq_true.mp hempty⟩
    · obtain ⟨s, hs, hrest⟩ := Option.bind_eq_some_iff.mp h
      exact ih (hstep hP hs) hrest

/-- More fuel than the event loop uses does not change its result. -/
theorem eventLoop_mono {fuel fuel' : ℕ} (hle : fuel ≤ fuel') :
    ∀ {st st'}, eventLoop std tm procs fuel st = some st' →
      eventLoop std tm procs fuel' st = some st' := by
  induction fuel generalizing fuel' with
  | zero => intro st st' h; simp [eventLoop] at h
  | succ fuel ih =>
    intro st st' h
    obtain ⟨fuel', rfl⟩ := Nat.exists_eq_add_of_le' ((Nat.succ_pos fuel).trans_le hle)
    rw [eventLoop] at h ⊢
    split
    · rename_i hempty
      rwa [if_pos hempty] at h
    · rename_i hempty
      rw [if_neg hempty] at h
      obtain ⟨s, hs, hrest⟩ := Option.bind_eq_some_iff.mp h
      rw [hs, Option.bind_some]
      exact ih (Nat.le_of_succ_le_succ hle) hrest

end Timing

/-! ## The task processor with transfer -/

structure TaskProcessorWithTransfer where
  bandwidth : ℚ
  connectionSetup : ℚ

namespace TaskProcessorWithTransfer

def transferTime (tp : TaskProcessorWithTransfer) (bitsToTransfer : ℕ) : ℚ :=
  bitsToTransfer / tp.bandwidth + tp.connectionSetup

/-- The local `time_to_process` of both loops: the main processing time plus the
    time for data transfer. -/
def timeToProcess (tp : TaskProcessorWithTransfer) (proc : Processor) (task : SimpleTask) : ℚ :=
  proc.timeToComplete task.complexity + tp.transferTime task.bitsToTransfer

/-- Exact times. -/
def timing (tp : TaskProcessorWithTransfer) : Timing where
  timeToProcess := tp.timeToProcess
  timeEnd timeStart timeToProcess := timeStart + timeToProcess

variable (std : StdAlgorithms) (tp : TaskProcessorWithTransfer)

def firstRound : List Processor → ℕ → LoopState → Option LoopState := tp.timing.firstRound std

def eventStep : List Processor → LoopState → Option LoopState := tp.timing.eventStep std

def eventLoop : List Processor → ℕ → LoopState → Option LoopState := tp.timing.eventLoop std

def run : List Processor → List SimpleTask → Option LoopState := tp.timing.run std

/-- `operator()`. -/
def call (procs : List Processor) (tasks : List SimpleTask) :
    Option (List (TaskCompletition TaskPtr)) :=
  (run std tp procs tasks).map (·.processedTasks)

/-! ### The loops with exact times -/

section Exact

variable {std tp} {procs rest : List Processor} {proc : Processor} {i fuel : ℕ} {st st' : LoopState}

theorem firstRound_cons : firstRound std tp (proc :: rest) i st =
    if st.taskIterator = st.tasks.length then some st
    else (do
      let task ← st.tasks[st.taskIterator]?
      firstRound std tp rest (i + 1)
        { st with
          pQueue := st.pQueue.emplace std ⟨0, tp.timeToProcess proc task, i, st.taskIterator⟩
          taskIterator := st.taskIterator + 1 }) :=
  rfl

theorem eventStep_eq : eventStep std tp procs st = (do
    let (tk, pQueue) ← st.pQueue.pop std
    if st.taskIterator = st.tasks.length then
      some { st with pQueue, processedTasks := st.processedTasks ++ [tk] }
    else
      let proc ← procs[tk.workerIndex]?
      let task ← st.tasks[st.taskIterator]?
      some { st with
        pQueue := pQueue.emplace std
          ⟨tk.timeEnd, tk.timeEnd + tp.timeToProcess proc task, tk.workerIndex, st.taskIterator⟩
        taskIterator := st.taskIterator + 1
        processedTasks := st.processedTasks ++ [tk] }) :=
  rfl

theorem eventLoop_zero : eventLoop std tp procs 0 st = none := rfl

theorem eventLoop_succ : eventLoop std tp procs (fuel + 1) st =
    if st.pQueue.empty then some st
    else (eventStep std tp procs st).bind (eventLoop std tp procs fuel) :=
  rfl

theorem run_eq {tasks : List SimpleTask} : run std tp procs tasks =
    (firstRound std tp procs 0 (initial tasks)).bind
      (eventLoop std tp procs (tasks.length + 1)) :=
  rfl

variable (std tp) in
/-- Without processors nothing is ever dispatched. -/
theorem run_nil (tasks : List SimpleTask) : run std tp [] tasks = some (initial tasks) := rfl

theorem eventStep_cases (h : eventStep std tp procs st = some st') :
    ∃ tk q, st.pQueue.pop std = some (tk, q) ∧
      ((st.taskIterator = st.tasks.length ∧
          st' = { st with pQueue := q, processedTasks := st.processedTasks ++ [tk] }) ∨
        ∃ proc task, procs[tk.workerIndex]? = some proc ∧
          st.tasks[st.taskIterator]? = some task ∧
          st' = { st with
            pQueue := q.emplace std
              ⟨tk.timeEnd, tk.timeEnd + tp.timeToProcess proc task, tk.workerIndex, st.taskIterator⟩
            taskIterator := st.taskIterator + 1
            processedTasks := st.processedTasks ++ [tk] }) :=
  Timing.eventStep_cases h

/-- In both cases the completion taken off the queue goes to the log. -/
theorem eventStep_log (h : eventStep std tp procs st = some st') :
    ∃ tk q, st.pQueue.pop std = some (tk, q) ∧ st'.processedTasks = st.processedTasks ++ [tk] := by
  obtain ⟨tk, q, hpop, ⟨-, rfl⟩ | ⟨proc, task, -, -, rfl⟩⟩ := eventStep_cases h
  · exact ⟨tk, q, hpop, rfl⟩
  · exact ⟨tk, q, hpop, rfl⟩

end Exact

end TaskProcessorWithTransfer

end Smpp
