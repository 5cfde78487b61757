-- SUMMARY: Runs of the task processor on inputs that correspond go in lockstep.
import Smpp.Model.TaskProcessor

/-!
# Lockstep

A run is determined by the durations, the heap functions and what the queue's comparison
object says. When tasks, processors and completions are replaced by others for which all
of these correspond, every round of both loops does the same thing, and so the two logs
correspond entry by entry.
-/

namespace Smpp

open TaskProcessorWithTransfer

/-- With task `t` replaced by `g t`, processor `p` by `h p` and completion `c` by `f c`,
    the task processor `tp'` with `std'` does what `tp` does with `std`. The locals of its
    loops are `F st` where those of `tp` are `st`. -/
structure Lockstep (std : StdAlgorithms) (tp : TaskProcessorWithTransfer) (std' : StdAlgorithms)
    (tp' : TaskProcessorWithTransfer) (g : SimpleTask → SimpleTask) (h : Processor → Processor)
    (f : TaskCompletition TaskPtr → TaskCompletition TaskPtr) (F : LoopState → LoopState) :
    Prop where
  locals : ∀ st, F st =
    ⟨st.tasks.map g, st.taskIterator, st.pQueue.map f, st.processedTasks.map f⟩
  pushHeap : ∀ l, std'.pushHeap TaskCompletition.laterFirst (l.map f) =
    (std.pushHeap TaskCompletition.laterFirst l).map f
  popHeap : ∀ l, std'.popHeap TaskCompletition.laterFirst (l.map f) =
    (std.popHeap TaskCompletition.laterFirst l).map f
  workerIndex : ∀ c, (f c).workerIndex = c.workerIndex
  /-- The completion of a task that starts at time 0 … -/
  first : ∀ proc task i k, f ⟨0, tp.timeToProcess proc task, i, k⟩ =
    ⟨0, tp'.timeToProcess (h proc) (g task), i, k⟩
  /-- … and of one that starts when another one ends. -/
  next : ∀ c proc task k,
    f ⟨c.timeEnd, c.timeEnd + tp.timeToProcess proc task, c.workerIndex, k⟩ =
      ⟨(f c).timeEnd, (f c).timeEnd + tp'.timeToProcess (h proc) (g task), c.workerIndex, k⟩

/-- The queue still has the comparison object it was constructed with. -/
def LoopState.KeepsOrder (st : LoopState) : Prop :=
  st.pQueue.comparator = TaskCompletition.laterFirst

section Order

variable {std : StdAlgorithms} {tp : TaskProcessorWithTransfer} {procs : List Processor}
  {st st' : LoopState}

theorem LoopState.KeepsOrder.firstRound {rest : List Processor} {i : ℕ} (hst : st.KeepsOrder)
    (hround : firstRound std tp rest i st = some st') : st'.KeepsOrder :=
  Timing.firstRound_invariant (fun hs _ _ => hs) hst hround

theorem LoopState.KeepsOrder.eventStep (hst : st.KeepsOrder)
    (hstep : eventStep std tp procs st = some st') : st'.KeepsOrder := by
  obtain ⟨tk, q, hpop, ⟨-, rfl⟩ | ⟨proc, task, -, -, rfl⟩⟩ := eventStep_cases hstep
  · exact (PriorityQueue.pop_comparator hpop).trans hst
  · exact (PriorityQueue.pop_comparator hpop).trans hst

end Order

namespace Lockstep

variable {std std' : StdAlgorithms} {tp tp' : TaskProcessorWithTransfer}
  {g : SimpleTask → SimpleTask} {h : Processor → Processor}
  {f : TaskCompletition TaskPtr → TaskCompletition TaskPtr} {F : LoopState → LoopState}
  {st : LoopState}

theorem emplace (hl : Lockstep std tp std' tp' g h f F) {q : TaskQueue}
    (hq : q.comparator = TaskCompletition.laterFirst) (c : TaskCompletition TaskPtr) :
    (q.map f).emplace std' (f c) = (q.emplace std c).map f := by
  apply PriorityQueue.emplace_map
  rw [hq]
  exact hl.pushHeap

theorem pop (hl : Lockstep std tp std' tp' g h f F) {q : TaskQueue}
    (hq : q.comparator = TaskCompletition.laterFirst) :
    (q.map f).pop std' = (q.pop std).map (Prod.map f (PriorityQueue.map f)) := by
  apply PriorityQueue.pop_map
  rw [hq]
  exact hl.popHeap

theorem firstRound (hl : Lockstep std tp std' tp' g h f F) (rest : List Processor) (i : ℕ)
    (hst : st.KeepsOrder) :
    firstRound std' tp' (rest.map h) i (F st) = (firstRound std tp rest i st).map F := by
  induction rest generalizing i st with
  | nil => rfl
  | cons proc rest ih =>
    simp only [List.map_cons, firstRound_cons, hl.locals st, List.length_map,
      List.getElem?_map]
    split
    · simp only [Option.map_some, hl.locals st]
    · cases st.tasks[st.taskIterator]? with
      | none => rfl
      | some task =>
        simp only [Option.map_some, Option.bind_eq_bind, Option.bind_some]
        rw [← ih (i + 1) (by exact hst), hl.locals]
        simp only [← hl.first, hl.emplace hst]

theorem eventStep (hl : Lockstep std tp std' tp' g h f F) (procs : List Processor)
    (hst : st.KeepsOrder) :
    eventStep std' tp' (procs.map h) (F st) = (eventStep std tp procs st).map F := by
  simp only [eventStep_eq, hl.locals st, hl.pop hst, List.length_map,
    List.getElem?_map]
  cases hpop : st.pQueue.pop std with
  | none => rfl
  | some popped =>
    obtain ⟨c, q⟩ := popped
    have hq : q.comparator = TaskCompletition.laterFirst :=
      (PriorityQueue.pop_comparator hpop).trans hst
    simp only [Option.map_some, Prod.map_apply, Option.bind_eq_bind, Option.bind_some,
      hl.workerIndex]
    split
    · simp only [Option.map_some, hl.locals, List.map_append, List.map_singleton]
    · cases procs[c.workerIndex]? with
      | none => rfl
      | some proc =>
        cases st.tasks[st.taskIterator]? with
        | none => rfl
        | some task =>
          simp only [Option.map_some, Option.bind_some, ← hl.next, hl.emplace hq, hl.locals,
            List.map_append, List.map_singleton]

theorem eventLoop (hl : Lockstep std tp std' tp' g h f F) (procs : List Processor) (fuel : ℕ)
    (hst : st.KeepsOrder) :
    eventLoop std' tp' (procs.map h) fuel (F st) = (eventLoop std tp procs fuel st).map F := by
  induction fuel generalizing st with
  | zero => rfl
  | succ fuel ih =>
    have hempty : (F st).pQueue.empty = st.pQueue.empty := by
      rw [hl.locals]
      exact PriorityQueue.empty_map
    simp only [eventLoop_succ, hempty, hl.eventStep procs hst]
    split
    · rfl
    · cases hstep : TaskProcessorWithTransfer.eventStep std tp procs st with
      | none => rfl
      | some st' => exact ih (hst.eventStep hstep)

/-- The two calls return corresponding logs. -/
theorem call (hl : Lockstep std tp std' tp' g h f F) (procs : List Processor)
    (tasks : List SimpleTask) :
    call std' tp' (procs.map h) (tasks.map g) = (call std tp procs tasks).map (List.map f) := by
  have hinitial : initial (tasks.map g) = F (initial tasks) := by
    rw [hl.locals]
    rfl
  have horder : (initial tasks).KeepsOrder := rfl
  have hlog : ∀ st, (F st).processedTasks = st.processedTasks.map f := by
    intro st
    rw [hl.locals]
  simp only [TaskProcessorWithTransfer.call, run_eq, hinitial, hl.firstRound procs 0 horder,
    List.length_map]
  cases hround : TaskProcessorWithTransfer.firstRound std tp procs 0 (initial tasks) with
  | none => rfl
  | some first =>
    simp only [Option.map_some, Option.bind_some,
      hl.eventLoop procs _ (horder.firstRound hround), Option.map_map, Function.comp_def, hlog]

end Lockstep

end Smpp
