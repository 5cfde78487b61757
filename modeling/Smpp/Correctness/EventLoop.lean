-- SUMMARY: The event loop computes a list schedule: the loop invariant, termination, and the result.
import Mathlib.Logic.Function.Basic
import Mathlib.Tactic.Linarith
import Smpp.Model.TaskProcessor
import Smpp.Scheduling.Load

/-!
# The event loop as list scheduling

The loops never store who got which task when; they only pass the end of one
completion on as the start of the next. The invariant recovers the history as a
schedule `w` (task `k` went to worker `w k`) and relates it to the state worker
by worker: what has been processed and what is in flight on a worker are exactly
the tasks the worker got, in order, and at most one of them is in flight.
-/

open ListScheduling

namespace Smpp

open TaskProcessorWithTransfer

/-! ## Durations -/

/-- How long worker `w` takes for `tasks[k]`. -/
def TaskProcessorWithTransfer.duration (tp : TaskProcessorWithTransfer) (procs : List Processor)
    (tasks : List SimpleTask) (w k : ℕ) : ℚ :=
  match procs[w]?, tasks[k]? with
  | some proc, some task => tp.timeToProcess proc task
  | _, _ => 0

theorem duration_eq {tp : TaskProcessorWithTransfer} {procs : List Processor}
    {tasks : List SimpleTask} {w k : ℕ} {proc : Processor} {task : SimpleTask}
    (hproc : procs[w]? = some proc) (htask : tasks[k]? = some task) :
    tp.duration procs tasks w k = tp.timeToProcess proc task := by
  simp [TaskProcessorWithTransfer.duration, hproc, htask]

/-- Times are non-negative as soon as rates are positive and the work and the
    set-up time are not negative. -/
theorem timeToProcess_nonneg {tp : TaskProcessorWithTransfer} {proc : Processor} {task : SimpleTask}
    (hmips : 0 < proc.mips) (hcomplexity : 0 ≤ task.complexity) (hbandwidth : 0 < tp.bandwidth)
    (hsetup : 0 ≤ tp.connectionSetup) : 0 ≤ tp.timeToProcess proc task := by
  have htask : 0 ≤ proc.timeToComplete task.complexity := div_nonneg hcomplexity hmips.le
  have hbits : (0 : ℚ) ≤ task.bitsToTransfer / tp.bandwidth :=
    div_nonneg (Nat.cast_nonneg _) hbandwidth.le
  unfold timeToProcess transferTime
  linarith

theorem duration_nonneg {tp : TaskProcessorWithTransfer} {procs : List Processor}
    {tasks : List SimpleTask} (hmips : ∀ p ∈ procs, 0 < p.mips)
    (hcomplexity : ∀ t ∈ tasks, 0 ≤ t.complexity) (hbandwidth : 0 < tp.bandwidth)
    (hsetup : 0 ≤ tp.connectionSetup) (w k : ℕ) : 0 ≤ tp.duration procs tasks w k := by
  unfold TaskProcessorWithTransfer.duration
  split
  · rename_i proc task hproc htask
    exact timeToProcess_nonneg (hmips proc (List.mem_of_getElem? hproc))
      (hcomplexity task (List.mem_of_getElem? htask)) hbandwidth hsetup
  · exact le_rfl

/-! ## The completions of a schedule -/

/-- The completion of task `k` when task `j` goes to worker `w j`. -/
def completion (d : ℕ → ℕ → ℚ) (w : ℕ → ℕ) (k : ℕ) : TaskCompletition TaskPtr :=
  ⟨start d w k, finish d w k, w k, k⟩

/-- The completions of the first `k` tasks, in the order they were handed out. -/
def dispatched (d : ℕ → ℕ → ℚ) (w : ℕ → ℕ) (k : ℕ) : List (TaskCompletition TaskPtr) :=
  (List.range k).map (completion d w)

/-- The completions of one worker. -/
def onWorker (v : ℕ) (l : List (TaskCompletition TaskPtr)) : List (TaskCompletition TaskPtr) :=
  l.filter (·.workerIndex = v)

section Completions

variable {d : ℕ → ℕ → ℚ} {w w' : ℕ → ℕ}

@[simp] theorem onWorker_nil (v : ℕ) : onWorker v [] = [] := rfl

@[simp] theorem onWorker_append (v : ℕ) (l l' : List (TaskCompletition TaskPtr)) :
    onWorker v (l ++ l') = onWorker v l ++ onWorker v l' :=
  List.filter_append l l'

@[simp] theorem onWorker_singleton_self (c : TaskCompletition TaskPtr) :
    onWorker c.workerIndex [c] = [c] := by
  simp [onWorker]

theorem onWorker_singleton_of_ne {v : ℕ} {c : TaskCompletition TaskPtr} (h : c.workerIndex ≠ v) :
    onWorker v [c] = [] := by
  simp [onWorker, h]

theorem mem_onWorker {v : ℕ} {c : TaskCompletition TaskPtr} {l : List (TaskCompletition TaskPtr)} :
    c ∈ onWorker v l ↔ c ∈ l ∧ c.workerIndex = v := by
  simp [onWorker]

theorem onWorker_perm {l l' : List (TaskCompletition TaskPtr)} (h : l.Perm l') (v : ℕ) :
    (onWorker v l).Perm (onWorker v l') :=
  h.filter _

/-- Lists that agree on every worker hold the same completions. -/
theorem perm_of_onWorker_eq {l l' : List (TaskCompletition TaskPtr)}
    (h : ∀ v, onWorker v l = onWorker v l') : l.Perm l' := by
  apply List.perm_iff_count.mpr
  intro c
  have hcount : ∀ k : List (TaskCompletition TaskPtr),
      (onWorker c.workerIndex k).count c = k.count c :=
    fun k => List.count_filter (by simp)
  rw [← hcount l, ← hcount l', h]

@[simp] theorem dispatched_zero : dispatched d w 0 = [] := rfl

theorem dispatched_succ (k : ℕ) :
    dispatched d w (k + 1) = dispatched d w k ++ [completion d w k] := by
  simp [dispatched, List.range_succ]

@[simp] theorem length_dispatched (k : ℕ) : (dispatched d w k).length = k := by
  simp [dispatched]

theorem mem_dispatched {k : ℕ} {c : TaskCompletition TaskPtr} :
    c ∈ dispatched d w k ↔ ∃ j < k, completion d w j = c := by
  simp [dispatched]

theorem completion_congr {k : ℕ} (h : ∀ j ≤ k, w j = w' j) :
    completion d w k = completion d w' k := by
  simp only [completion, finish, start_congr d h, h k le_rfl]

theorem dispatched_congr {k : ℕ} (h : ∀ j < k, w j = w' j) :
    dispatched d w k = dispatched d w' k := by
  apply List.map_congr_left
  intro j hj
  have hj := List.mem_range.mp hj
  exact completion_congr (fun i hi => h i (hi.trans_lt hj))

/-- The load of a worker is the end of the last completion it got. -/
theorem load_eq_getLast (k v : ℕ) :
    load d w k v = ((onWorker v (dispatched d w k)).getLast?.map (·.timeEnd)).getD 0 := by
  induction k with
  | zero => simp
  | succ k ih =>
    rw [dispatched_succ, onWorker_append]
    by_cases hk : w k = v
    · subst hk
      have hone : onWorker (w k) [completion d w k] = [completion d w k] :=
        onWorker_singleton_self (completion d w k)
      rw [hone, load_succ_self]
      simp [completion]
    · rw [onWorker_singleton_of_ne (c := completion d w k) hk, List.append_nil,
        load_succ_of_ne d w hk, ih]

end Completions

/-! ## The invariant -/

/-- Two lists with the same elements are equal if they have at most one. -/
private theorem perm_eq_of_length_le_one {α : Type*} {l l' : List α} (h : l.Perm l')
    (hlen : l.length ≤ 1) : l = l' := by
  match l, hlen with
  | [], _ => exact (List.nil_perm.mp h).symm
  | [a], _ => exact (List.singleton_perm.mp h)

/-- The state is that of schedule `w` after the tasks before the iterator have
    been handed out. -/
structure Inv (tp : TaskProcessorWithTransfer) (procs : List Processor) (tasks : List SimpleTask)
    (st : LoopState) (w : ℕ → ℕ) : Prop where
  tasks_eq : st.tasks = tasks
  valid : st.pQueue.Valid
  comparator : st.pQueue.comparator = TaskCompletition.laterFirst
  iterator_le : st.taskIterator ≤ tasks.length
  worker_lt : ∀ k < st.taskIterator, w k < procs.length
  timeline : ∀ v, onWorker v (st.processedTasks ++ st.pQueue.container) =
    onWorker v (dispatched (tp.duration procs tasks) w st.taskIterator)
  atMostOne : ∀ v, (onWorker v st.pQueue.container).length ≤ 1

section Inv

variable {std : StdAlgorithms} {tp : TaskProcessorWithTransfer} {procs : List Processor}
  {tasks : List SimpleTask} {st : LoopState} {w : ℕ → ℕ}

variable (tp procs tasks) in
theorem Inv.initial : Inv tp procs tasks (initial tasks) id where
  tasks_eq := rfl
  valid := PriorityQueue.new_valid _
  comparator := rfl
  iterator_le := Nat.zero_le _
  worker_lt k hk := absurd hk (Nat.not_lt_zero k)
  timeline v := by simp [Smpp.initial]
  atMostOne v := by simp [Smpp.initial]

theorem Inv.perm (h : Inv tp procs tasks st w) :
    (st.processedTasks ++ st.pQueue.container).Perm
      (dispatched (tp.duration procs tasks) w st.taskIterator) :=
  perm_of_onWorker_eq h.timeline

/-- Everything handed out is processed or in flight. -/
theorem Inv.length_add_length (h : Inv tp procs tasks st w) :
    st.processedTasks.length + st.pQueue.container.length = st.taskIterator := by
  simpa using h.perm.length_eq

theorem Inv.worker_lt_of_mem (h : Inv tp procs tasks st w) {tk : TaskCompletition TaskPtr}
    (htk : tk ∈ st.pQueue.container) : tk.workerIndex < procs.length := by
  obtain ⟨j, hj, rfl⟩ := mem_dispatched.mp (h.perm.mem_iff.mp (List.mem_append_right _ htk))
  exact h.worker_lt j hj

theorem Inv.onWorker_queue (h : Inv tp procs tasks st w) {tk : TaskCompletition TaskPtr}
    (htk : tk ∈ st.pQueue.container) : onWorker tk.workerIndex st.pQueue.container = [tk] := by
  have hmem : tk ∈ onWorker tk.workerIndex st.pQueue.container := mem_onWorker.mpr ⟨htk, rfl⟩
  obtain ⟨c, hc⟩ := List.length_eq_one_iff.mp
    (le_antisymm (h.atMostOne tk.workerIndex) (List.length_pos_of_mem hmem))
  rw [hc] at hmem ⊢
  rw [List.mem_singleton.mp hmem]

/-- A worker with a task in flight is busy until the end of this task. -/
theorem Inv.load_of_mem (h : Inv tp procs tasks st w) {tk : TaskCompletition TaskPtr}
    (htk : tk ∈ st.pQueue.container) :
    load (tp.duration procs tasks) w st.taskIterator tk.workerIndex = tk.timeEnd := by
  rw [load_eq_getLast, ← h.timeline, onWorker_append, h.onWorker_queue htk]
  simp

/-- Moving the popped completion to the processed ones keeps the invariant and
    leaves its worker with nothing in flight. -/
theorem Inv.pop (h : Inv tp procs tasks st w) {tk : TaskCompletition TaskPtr} {q : TaskQueue}
    (hpop : st.pQueue.Popped tk q) :
    Inv tp procs tasks { st with pQueue := q, processedTasks := st.processedTasks ++ [tk] } w ∧
      onWorker tk.workerIndex q.container = [] := by
  have htk : tk ∈ st.pQueue.container := hpop.perm.mem_iff.mpr (List.mem_cons_self)
  have hsplit : ∀ v, (onWorker v st.pQueue.container).Perm
      (onWorker v [tk] ++ onWorker v q.container) := by
    intro v
    rw [← onWorker_append]
    exact onWorker_perm hpop.perm v
  have hqueue : ∀ v, onWorker v st.pQueue.container = onWorker v [tk] ++ onWorker v q.container :=
    fun v => perm_eq_of_length_le_one (hsplit v) (h.atMostOne v)
  refine ⟨⟨h.tasks_eq, hpop.valid, hpop.comparator.trans h.comparator, h.iterator_le, h.worker_lt,
    fun v => ?_, fun v => ?_⟩, ?_⟩
  · have htimeline := h.timeline v
    rw [onWorker_append, hqueue v, ← List.append_assoc, ← onWorker_append,
      ← onWorker_append] at htimeline
    exact htimeline
  · have hle := h.atMostOne v
    rw [hqueue v, List.length_append] at hle
    exact (Nat.le_add_left _ _).trans hle
  · have hone := hqueue tk.workerIndex
    rw [h.onWorker_queue htk, onWorker_singleton_self] at hone
    simpa using hone.symm

/-- The completion of the next task when it goes to a worker that is done with
    its tasks. -/
def nextCompletion (tp : TaskProcessorWithTransfer) (procs : List Processor)
    (tasks : List SimpleTask) (w : ℕ → ℕ) (k v : ℕ) : TaskCompletition TaskPtr :=
  ⟨load (tp.duration procs tasks) w k v,
    load (tp.duration procs tasks) w k v + tp.duration procs tasks v k, v, k⟩

theorem completion_update (k v : ℕ) :
    completion (tp.duration procs tasks) (Function.update w k v) k =
      nextCompletion tp procs tasks w k v := by
  have hload : load (tp.duration procs tasks) (Function.update w k v) k v =
      load (tp.duration procs tasks) w k v :=
    load_congr _ (fun j hj => Function.update_of_ne hj.ne v w) v
  simp [completion, nextCompletion, finish, start, hload]

theorem dispatched_update (k v : ℕ) :
    dispatched (tp.duration procs tasks) (Function.update w k v) (k + 1) =
      dispatched (tp.duration procs tasks) w k ++ [nextCompletion tp procs tasks w k v] := by
  rw [dispatched_succ, completion_update,
    dispatched_congr (fun j hj => Function.update_of_ne hj.ne v w)]

/-- Handing the next task to a worker with nothing in flight keeps the
    invariant. -/
theorem Inv.dispatch (std : StdAlgorithms) (h : Inv tp procs tasks st w) {v : ℕ}
    (hv : v < procs.length) (hit : st.taskIterator < tasks.length)
    (hfree : onWorker v st.pQueue.container = []) :
    Inv tp procs tasks
      { st with
        pQueue := st.pQueue.emplace std (nextCompletion tp procs tasks w st.taskIterator v)
        taskIterator := st.taskIterator + 1 }
      (Function.update w st.taskIterator v) := by
  let c := nextCompletion tp procs tasks w st.taskIterator v
  have hperm : (st.pQueue.emplace std c).container.Perm (st.pQueue.container ++ [c]) :=
    h.valid.emplace_perm std c
  have hlen : (onWorker v st.pQueue.container ++ onWorker v [c]).length ≤ 1 := by
    rw [hfree]
    exact List.length_filter_le _ _
  have hlenother : ∀ u, (onWorker u st.pQueue.container ++ onWorker u [c]).length ≤ 1 := by
    intro u
    by_cases huv : v = u
    · subst huv; exact hlen
    · rw [onWorker_singleton_of_ne (c := c) huv, List.append_nil]
      exact h.atMostOne u
  have hqueue : ∀ u, onWorker u (st.pQueue.emplace std c).container =
      onWorker u st.pQueue.container ++ onWorker u [c] := by
    intro u
    have hu := onWorker_perm hperm u
    rw [onWorker_append] at hu
    exact (perm_eq_of_length_le_one hu.symm (hlenother u)).symm
  refine ⟨h.tasks_eq, h.valid.emplace std c, h.comparator, hit, fun k hk => ?_, fun u => ?_,
    fun u => ?_⟩
  · rcases Nat.lt_succ_iff_lt_or_eq.mp hk with hk | rfl
    · rw [Function.update_of_ne hk.ne]
      exact h.worker_lt k hk
    · rw [Function.update_self]
      exact hv
  · rw [onWorker_append, hqueue u, ← List.append_assoc, ← onWorker_append, h.timeline u,
      dispatched_update, onWorker_append]
  · rw [hqueue u]
    exact hlenother u

/-! ## The first round -/

/-- When the first round gets to worker `i`, no task before has gone there. -/
theorem Inv.free_of_firstRound (h : Inv tp procs tasks st id) {i : ℕ} (hit : st.taskIterator = i) :
    onWorker i st.pQueue.container = [] ∧ load (tp.duration procs tasks) id i i = 0 := by
  have hnone : onWorker i (dispatched (tp.duration procs tasks) id i) = [] := by
    apply List.filter_eq_nil_iff.mpr
    intro c hc
    obtain ⟨j, hj, rfl⟩ := mem_dispatched.mp hc
    simp [completion, hj.ne]
  constructor
  · have htimeline := h.timeline i
    rw [hit, hnone, onWorker_append] at htimeline
    exact (List.append_eq_nil_iff.mp htimeline).2
  · rw [load_eq_getLast, hnone]
    rfl

/-- The first round gives task `i` to worker `i` until the tasks or the workers
    run out. -/
theorem firstRound_spec (std : StdAlgorithms) (rest : List Processor) :
    ∀ (i : ℕ) (st : LoopState), procs.drop i = rest → i + rest.length = procs.length →
      Inv tp procs tasks st id → st.taskIterator = i → st.processedTasks = [] →
      ∃ st', firstRound std tp rest i st = some st' ∧ Inv tp procs tasks st' id ∧
        st'.processedTasks = [] ∧ st'.taskIterator = min procs.length tasks.length := by
  induction rest with
  | nil =>
    intro i st _ hlen hinv hit hproc
    refine ⟨st, rfl, hinv, hproc, ?_⟩
    have := hinv.iterator_le
    simp at hlen
    omega
  | cons proc rest ih =>
    intro i st hdrop hlen hinv hit hproc
    have hi : i < procs.length := by simp at hlen; omega
    have hprocs : procs[i]? = some proc := by
      rw [← Nat.add_zero i, ← List.getElem?_drop, hdrop]
      rfl
    rw [firstRound_cons]
    split
    · rename_i hend
      rw [hinv.tasks_eq] at hend
      exact ⟨st, rfl, hinv, hproc, by omega⟩
    · rename_i hmore
      rw [hinv.tasks_eq] at hmore
      have hlt : st.taskIterator < tasks.length := lt_of_le_of_ne hinv.iterator_le hmore
      have htask : st.tasks[st.taskIterator]? = some tasks[st.taskIterator] := by
        rw [hinv.tasks_eq]
        exact List.getElem?_eq_getElem hlt
      obtain ⟨hfree, hload⟩ := hinv.free_of_firstRound hit
      have hnext : nextCompletion tp procs tasks id st.taskIterator i =
          ⟨0, tp.timeToProcess proc tasks[st.taskIterator], i, st.taskIterator⟩ := by
        have htask' : tasks[i]? = some tasks[st.taskIterator] := by
          rw [← hit]
          exact List.getElem?_eq_getElem hlt
        simp only [nextCompletion, hit, hload, duration_eq hprocs htask', zero_add]
      have hid : Function.update id st.taskIterator i = id := by
        rw [hit]
        exact Function.update_eq_self i id
      have hinv' := hinv.dispatch std hi hlt hfree
      rw [hnext, hid] at hinv'
      simp only [htask, Option.bind_eq_bind, Option.bind_some]
      refine ih (i + 1) _ ?_ ?_ hinv' (congrArg (· + 1) hit) hproc
      · rw [← List.tail_drop, hdrop]
        rfl
      · simp at hlen
        omega

end Inv

/-! ## The loop -/

/-- The state between two rounds of the event loop. -/
structure Running (tp : TaskProcessorWithTransfer) (procs : List Processor)
    (tasks : List SimpleTask) (st : LoopState) (w : ℕ → ℕ) : Prop
    extends Inv tp procs tasks st w where
  /-- While tasks are left, every worker has one in flight. -/
  busy : st.taskIterator < tasks.length → ∀ v < procs.length, onWorker v st.pQueue.container ≠ []
  roundOver : st.taskIterator < tasks.length → procs.length ≤ st.taskIterator
  firstRound : ∀ k < procs.length, k < st.taskIterator → w k = k
  least : ∀ k, procs.length ≤ k → k < st.taskIterator → ∀ v < procs.length,
    start (tp.duration procs tasks) w k ≤ load (tp.duration procs tasks) w k v

section Running

variable {std : StdAlgorithms} {tp : TaskProcessorWithTransfer} {procs : List Processor}
  {tasks : List SimpleTask} {st : LoopState} {w : ℕ → ℕ}

/-- After the first round the event loop can start. -/
theorem Running.of_firstRound (h : Inv tp procs tasks st id) (hproc : st.processedTasks = [])
    (hit : st.taskIterator = min procs.length tasks.length) : Running tp procs tasks st id where
  toInv := h
  busy hmore v hv := by
    have htimeline := h.timeline v
    rw [hproc, List.nil_append] at htimeline
    rw [htimeline]
    refine List.ne_nil_of_mem (mem_onWorker.mpr ⟨mem_dispatched.mpr ⟨v, ?_, rfl⟩, rfl⟩)
    omega
  roundOver hmore := by omega
  firstRound _ _ _ := rfl
  least k hk hkit := by omega

/-- The end of a worker's task in flight is the time the worker is free. -/
theorem Running.exists_mem (h : Running tp procs tasks st w)
    (hmore : st.taskIterator < tasks.length) {v : ℕ} (hv : v < procs.length) :
    ∃ c ∈ st.pQueue.container,
      c.timeEnd = load (tp.duration procs tasks) w st.taskIterator v := by
  obtain ⟨c, hc⟩ := List.exists_mem_of_ne_nil _ (h.busy hmore v hv)
  obtain ⟨hmem, rfl⟩ := mem_onWorker.mp hc
  exact ⟨c, hmem, (h.load_of_mem hmem).symm⟩

/-- The popped completion ends no later than any other one in flight. -/
theorem Inv.popped_le (h : Inv tp procs tasks st w) {tk : TaskCompletition TaskPtr} {q : TaskQueue}
    (hpop : st.pQueue.Popped tk q) {c : TaskCompletition TaskPtr}
    (hc : c ∈ st.pQueue.container) : tk.timeEnd ≤ c.timeEnd := by
  rcases List.mem_cons.mp (hpop.perm.mem_iff.mp hc) with rfl | hc
  · exact le_rfl
  · have hbest := hpop.best c hc
    rw [h.comparator] at hbest
    simpa [TaskCompletition.laterFirst] using hbest

/-- When the popped worker gets a completion again it is still busy, and so are the
    others that were. -/
theorem busy_of_popped (std : StdAlgorithms) {q₀ q : TaskQueue} {tk c : TaskCompletition TaskPtr}
    (hpop : q₀.Popped tk q) (hc : c.workerIndex = tk.workerIndex) {v : ℕ}
    (hbusy : onWorker v q₀.container ≠ []) : onWorker v (q.emplace std c).container ≠ [] := by
  obtain ⟨b, hb⟩ := List.exists_mem_of_ne_nil _ hbusy
  obtain ⟨hmem, rfl⟩ := mem_onWorker.mp hb
  have hperm := hpop.valid.emplace_perm std c
  rcases List.mem_cons.mp (hpop.perm.mem_iff.mp hmem) with rfl | hrest
  · have hmem : c ∈ (q.emplace std c).container :=
      hperm.mem_iff.mpr (List.mem_append_right _ (List.mem_singleton_self c))
    exact List.ne_nil_of_mem (mem_onWorker.mpr ⟨hmem, hc⟩)
  · have hmem := hperm.mem_iff.mpr (List.mem_append_left [c] hrest)
    exact List.ne_nil_of_mem (mem_onWorker.mpr ⟨hmem, rfl⟩)

/-- The popped worker gets the next task: it is busy again, and it was free
    earliest. -/
theorem Running.dispatch (std : StdAlgorithms) (h : Running tp procs tasks st w)
    {tk : TaskCompletition TaskPtr} {q : TaskQueue} (hpop : st.pQueue.Popped tk q)
    (hmore : st.taskIterator < tasks.length) :
    Running tp procs tasks
      { st with
        pQueue := q.emplace std (nextCompletion tp procs tasks w st.taskIterator tk.workerIndex)
        taskIterator := st.taskIterator + 1
        processedTasks := st.processedTasks ++ [tk] }
      (Function.update w st.taskIterator tk.workerIndex) := by
  have htk : tk ∈ st.pQueue.container := hpop.perm.mem_iff.mpr List.mem_cons_self
  obtain ⟨hinv, hfree⟩ := h.toInv.pop hpop
  have hbefore : ∀ k < st.taskIterator,
      Function.update w st.taskIterator tk.workerIndex k = w k :=
    fun k hk => Function.update_of_ne hk.ne _ _
  refine ⟨hinv.dispatch std (h.worker_lt_of_mem htk) hmore hfree, ?_, ?_, ?_, ?_⟩
  · intro _ v hv
    exact busy_of_popped std hpop (by rfl) (h.busy hmore v hv)
  · intro _
    exact (h.roundOver hmore).trans (Nat.le_succ _)
  · intro k hk hkit
    rcases Nat.lt_succ_iff_lt_or_eq.mp hkit with hkit | rfl
    · rw [hbefore k hkit]
      exact h.firstRound k hk hkit
    · exact absurd (h.roundOver hmore) (Nat.not_le.mpr hk)
  · intro k hk hkit v hv
    rcases Nat.lt_succ_iff_lt_or_eq.mp hkit with hkit | rfl
    · have hsame : ∀ j ≤ k, Function.update w st.taskIterator tk.workerIndex j = w j :=
        fun j hj => hbefore j (hj.trans_lt hkit)
      rw [start_congr _ hsame, load_congr _ (fun j hj => hsame j hj.le)]
      exact h.least k hk hkit v hv
    · obtain ⟨c, hc, hcv⟩ := h.exists_mem hmore hv
      rw [start, Function.update_self, load_congr _ hbefore, load_congr _ hbefore,
        h.load_of_mem htk, ← hcv]
      exact h.toInv.popped_le hpop hc

/-- A round of the event loop is defined while something is in flight, and
    processes one task. -/
theorem Running.step (std : StdAlgorithms) (h : Running tp procs tasks st w)
    (hne : st.pQueue.container ≠ []) :
    ∃ st' w', eventStep std tp procs st = some st' ∧ Running tp procs tasks st' w' ∧
      st'.processedTasks.length = st.processedTasks.length + 1 := by
  obtain ⟨tk, q, hq⟩ := h.valid.exists_pop std hne
  have hpop := h.valid.popped std hq
  by_cases hend : st.taskIterator = tasks.length
  · -- nothing is left to hand out
    refine ⟨_, w, ?_, ⟨(h.toInv.pop hpop).1, ?_, ?_, h.firstRound, h.least⟩, List.length_append⟩
    · simp only [eventStep_eq, hq, Option.bind_eq_bind, Option.bind_some, h.tasks_eq, hend, if_true]
    · intro hmore
      exact absurd hend hmore.ne
    · exact h.roundOver
  · -- the worker that became free gets the next task
    have htk : tk ∈ st.pQueue.container := hpop.perm.mem_iff.mpr List.mem_cons_self
    have hmore : st.taskIterator < tasks.length := lt_of_le_of_ne h.iterator_le hend
    have hw : tk.workerIndex < procs.length := h.worker_lt_of_mem htk
    have hproc : procs[tk.workerIndex]? = some procs[tk.workerIndex] :=
      List.getElem?_eq_getElem hw
    have htask : tasks[st.taskIterator]? = some tasks[st.taskIterator] :=
      List.getElem?_eq_getElem hmore
    have hnext : nextCompletion tp procs tasks w st.taskIterator tk.workerIndex =
        ⟨tk.timeEnd, tk.timeEnd + tp.timeToProcess procs[tk.workerIndex] tasks[st.taskIterator],
          tk.workerIndex, st.taskIterator⟩ := by
      simp only [nextCompletion, h.load_of_mem htk, duration_eq hproc htask]
    refine ⟨_, _, ?_, h.dispatch std hpop hmore, List.length_append⟩
    simp only [eventStep_eq, hq, Option.bind_eq_bind, Option.bind_some, h.tasks_eq, hend, if_false,
      hproc, htask, hnext]

/-- The event loop ends: every round processes a task, and no more tasks are
    processed than there are. -/
theorem Running.eventLoop (std : StdAlgorithms) (fuel : ℕ) (h : Running tp procs tasks st w)
    (hfuel : tasks.length < st.processedTasks.length + fuel) :
    ∃ st' w', eventLoop std tp procs fuel st = some st' ∧ Running tp procs tasks st' w' ∧
      st'.pQueue.container = [] := by
  induction fuel generalizing st w with
  | zero =>
    have := h.length_add_length
    have := h.iterator_le
    omega
  | succ fuel ih =>
    rw [eventLoop_succ]
    split
    · rename_i hempty
      exact ⟨st, w, rfl, h, PriorityQueue.empty_eq_true.mp hempty⟩
    · rename_i hempty
      obtain ⟨s, w', hs, hrun, hlen⟩ :=
        h.step std (fun hnil => hempty (PriorityQueue.empty_eq_true.mpr hnil))
      rw [hs, Option.bind_some]
      exact ih hrun (by omega)

/-! ## Chronology -/

/-- What has been processed is in order of its ends, and everything in flight
    ends later. -/
structure Chronological (st : LoopState) : Prop where
  sorted : st.processedTasks.Pairwise (·.timeEnd ≤ ·.timeEnd)
  processed_le : ∀ c ∈ st.processedTasks, ∀ c' ∈ st.pQueue.container, c.timeEnd ≤ c'.timeEnd

/-- A round emits the earliest end in flight, and a task handed out now ends
    later still. -/
theorem Chronological.step {st' : LoopState} (h : Chronological st) (hinv : Inv tp procs tasks st w)
    (hd : ∀ v < procs.length, ∀ k < tasks.length, 0 ≤ tp.duration procs tasks v k)
    (hstep : eventStep std tp procs st = some st') : Chronological st' := by
  obtain ⟨tk, q, hq, hcase⟩ := eventStep_cases hstep
  have hpop := hinv.valid.popped std hq
  have htk : tk ∈ st.pQueue.container := hpop.perm.mem_iff.mpr List.mem_cons_self
  have hsub : ∀ c ∈ q.container, c ∈ st.pQueue.container :=
    fun c hc => hpop.perm.mem_iff.mpr (List.mem_cons_of_mem _ hc)
  have hsorted : (st.processedTasks ++ [tk]).Pairwise (·.timeEnd ≤ ·.timeEnd) := by
    refine List.pairwise_append.mpr ⟨h.sorted, List.pairwise_singleton _ _, ?_⟩
    intro c hc c' hc'
    rw [List.mem_singleton.mp hc']
    exact h.processed_le c hc tk htk
  -- an end that `tk` does not exceed is exceeded by nothing processed so far
  have hlast : ∀ c ∈ st.processedTasks ++ [tk], ∀ t, tk.timeEnd ≤ t → c.timeEnd ≤ t := by
    intro c hc t ht
    rcases List.mem_append.mp hc with hc | hc
    · exact (h.processed_le c hc tk htk).trans ht
    · rw [List.mem_singleton.mp hc]
      exact ht
  rcases hcase with ⟨-, rfl⟩ | ⟨proc, task, hproc, htask, rfl⟩
  · exact ⟨hsorted, fun c hc c' hc' => hlast c hc _ (hinv.popped_le hpop (hsub c' hc'))⟩
  · refine ⟨hsorted, fun c hc c' hc' => hlast c hc _ ?_⟩
    rw [hinv.tasks_eq] at htask
    rcases List.mem_append.mp ((hpop.valid.emplace_perm std _).mem_iff.mp hc') with hc' | hc'
    · exact hinv.popped_le hpop (hsub c' hc')
    · have hnonneg := hd tk.workerIndex (hinv.worker_lt_of_mem htk) st.taskIterator
        (List.getElem?_eq_some_iff.mp htask).1
      rw [duration_eq hproc htask] at hnonneg
      rw [List.mem_singleton.mp hc']
      exact le_add_of_nonneg_right hnonneg

end Running

end Smpp
