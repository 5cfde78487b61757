-- SUMMARY: Causality: tasks further back in the vector change nothing about who runs the tasks in front of them, and when.
import Smpp.Correctness.Timeline

/-!
# Causality

A call that gets more tasks, behind those it had, does the same with the tasks it had.
The two runs are in the same state until the shorter one has handed out its last task.
From then on neither of them adds anything about the tasks they share: these are
handed out, and all that is left is to take them off the queue.
-/

namespace Smpp

open TaskProcessorWithTransfer

variable {std : StdAlgorithms} {tp : TaskProcessorWithTransfer} {procs : List Processor}

/-! ## Early tasks -/

/-- The completions of the first `n` tasks. -/
def early (n : ℕ) (l : List (TaskCompletition TaskPtr)) : List (TaskCompletition TaskPtr) :=
  l.filter (·.task < n)

/-- All completions of the tasks that have been handed out, in the log or in flight. -/
def LoopState.handedOut (st : LoopState) : List (TaskCompletition TaskPtr) :=
  st.processedTasks ++ st.pQueue.container

theorem early_cons_of_le {n : ℕ} {c : TaskCompletition TaskPtr} (h : n ≤ c.task)
    (l : List (TaskCompletition TaskPtr)) : early n (c :: l) = early n l := by
  simp [early, h]

/-- One round either only moves a completion to the log, or also hands out the next
    task. -/
theorem handedOut_eventStep {st st' : LoopState} (hvalid : st.pQueue.Valid)
    (hstep : eventStep std tp procs st = some st') :
    st'.pQueue.Valid ∧
      ((st'.taskIterator = st.taskIterator ∧ st'.handedOut.Perm st.handedOut) ∨
        ∃ c, c.task = st.taskIterator ∧ st'.taskIterator = st.taskIterator + 1 ∧
          st'.handedOut.Perm (c :: st.handedOut)) := by
  obtain ⟨tk, q, hq, hcase⟩ := eventStep_cases hstep
  have hpop := hvalid.popped std hq
  -- the popped completion changes from the queue to the log
  have hmove : (st.processedTasks ++ [tk] ++ q.container).Perm st.handedOut := by
    rw [List.append_assoc]
    exact hpop.perm.symm.append_left _
  rcases hcase with ⟨-, rfl⟩ | ⟨proc, task, -, -, rfl⟩
  · exact ⟨hpop.valid, .inl ⟨rfl, hmove⟩⟩
  · refine ⟨hpop.valid.emplace std _, .inr ⟨⟨tk.timeEnd, tk.timeEnd + tp.timeToProcess proc task,
      tk.workerIndex, st.taskIterator⟩, rfl, rfl, ?_⟩⟩
    have hqueue := (hpop.valid.emplace_perm std
      ⟨tk.timeEnd, tk.timeEnd + tp.timeToProcess proc task, tk.workerIndex,
        st.taskIterator⟩).append_left (st.processedTasks ++ [tk])
    rw [← List.append_assoc] at hqueue
    exact hqueue.trans ((List.perm_append_singleton _ _).trans (hmove.cons _))

/-! ## After the early tasks -/

/-- The first `n` tasks have been handed out, with the completions `l`. -/
structure Past (n : ℕ) (l : List (TaskCompletition TaskPtr)) (st : LoopState) : Prop where
  valid : st.pQueue.Valid
  iterator : n ≤ st.taskIterator
  perm : (early n st.handedOut).Perm l

section Past

variable {n : ℕ} {l : List (TaskCompletition TaskPtr)} {st st' : LoopState}

theorem Past.eventStep (h : Past n l st) (hstep : eventStep std tp procs st = some st') :
    Past n l st' := by
  obtain ⟨hvalid, ⟨hit, hperm⟩ | ⟨c, hc, hit, hperm⟩⟩ := handedOut_eventStep h.valid hstep
  · exact ⟨hvalid, h.iterator.trans hit.ge, (hperm.filter _).trans h.perm⟩
  · have hlate : early n (c :: st.handedOut) = early n st.handedOut :=
      early_cons_of_le (h.iterator.trans hc.ge) _
    refine ⟨hvalid, h.iterator.trans (by omega), (hperm.filter _).trans ?_⟩
    exact (List.Perm.of_eq hlate).trans h.perm

/-- Nothing is left on the queue when the loop ends, so the log has it all. -/
theorem Past.eventLoop {fuel : ℕ} (h : Past n l st)
    (hloop : eventLoop std tp procs fuel st = some st') : (early n st'.processedTasks).Perm l := by
  obtain ⟨hpast, hempty⟩ :=
    Timing.eventLoop_invariant (fun h hstep => Past.eventStep h hstep) h hloop
  have hperm := hpast.perm
  rwa [LoopState.handedOut, hempty, List.append_nil] at hperm

theorem Past.firstRound {rest : List Processor} {i : ℕ} (h : Past n l st)
    (hround : firstRound std tp rest i st = some st') : Past n l st' := by
  refine Timing.firstRound_invariant (fun {s proc task i} h _ _ => ?_) h hround
  refine ⟨h.valid.emplace std _, h.iterator.trans (Nat.le_succ _), ?_⟩
  have hqueue := (h.valid.emplace_perm std
    ⟨0, tp.timeToProcess proc task, i, s.taskIterator⟩).append_left s.processedTasks
  rw [← List.append_assoc] at hqueue
  have hlate := early_cons_of_le (c := ⟨0, tp.timeToProcess proc task, i, s.taskIterator⟩)
    h.iterator s.handedOut
  have hperm := (hqueue.trans (List.perm_append_singleton _ _)).filter (·.task < n)
  exact (hperm.trans (List.Perm.of_eq hlate)).trans h.perm

end Past

/-! ## Two runs -/

/-- The same state with more tasks behind those it has. -/
def LoopState.append (later : List SimpleTask) (st : LoopState) : LoopState :=
  { st with tasks := st.tasks ++ later }

section Append

variable {later : List SimpleTask} {st st' a b a' b' : LoopState}

/-- While there are tasks that both runs have, a round does the same in both. -/
theorem eventStep_append (hmore : st.taskIterator < st.tasks.length)
    (hstep : eventStep std tp procs st = some st') :
    eventStep std tp procs (st.append later) = some (st'.append later) := by
  obtain ⟨tk, q, hq, ⟨hend, -⟩ | ⟨proc, task, hproc, htask, rfl⟩⟩ := eventStep_cases hstep
  · exact absurd hend hmore.ne
  · have hnext : (st.tasks ++ later)[st.taskIterator]? = some task := by
      rw [List.getElem?_append_left hmore, htask]
    have hne : st.taskIterator ≠ (st.tasks ++ later).length := by
      rw [List.length_append]
      omega
    simp only [eventStep_eq, LoopState.append, hq, Option.bind_eq_bind, Option.bind_some,
      if_neg hne, hproc, hnext]

/-- The longer run is in the state of the shorter one, or both are done with handing
    out the tasks they share. -/
def Agree (later : List SimpleTask) (a b : LoopState) : Prop :=
  b = a.append later ∨
    (a.taskIterator = a.tasks.length ∧
      Past a.tasks.length (early a.tasks.length a.handedOut) b)

variable (st) in
theorem Past.self {n : ℕ} (hvalid : st.pQueue.Valid) (hit : n ≤ st.taskIterator) :
    Past n (early n st.handedOut) st :=
  ⟨hvalid, hit, .refl _⟩

theorem agree_firstRound (rest : List Processor) :
    ∀ {i : ℕ} {st a b : LoopState}, st.pQueue.Valid →
      firstRound std tp rest i st = some a →
      firstRound std tp rest i (st.append later) = some b →
      a.pQueue.Valid ∧ a.tasks = st.tasks ∧ Agree later a b := by
  induction rest with
  | nil =>
    intro i st a b hvalid ha hb
    cases ha
    cases hb
    exact ⟨hvalid, rfl, .inl rfl⟩
  | cons proc rest ih =>
    intro i st a b hvalid ha hb
    by_cases hend : st.taskIterator = st.tasks.length
    · -- the shorter run has no more tasks
      rw [firstRound_cons, if_pos hend] at ha
      cases ha
      have hpast : Past st.tasks.length (early st.tasks.length st.handedOut) (st.append later) :=
        Past.self (st.append later) hvalid hend.ge
      exact ⟨hvalid, rfl, .inr ⟨hend, hpast.firstRound hb⟩⟩
    · rw [firstRound_cons, if_neg hend] at ha
      obtain ⟨task, htask, -⟩ := Option.bind_eq_some_iff.mp ha
      have hmore := (List.getElem?_eq_some_iff.mp htask).1
      have hnext : (st.tasks ++ later)[st.taskIterator]? = some task := by
        rw [List.getElem?_append_left hmore, htask]
      have hne : st.taskIterator ≠ (st.tasks ++ later).length := by
        rw [List.length_append]
        omega
      simp only [htask, Option.bind_eq_bind, Option.bind_some] at ha
      simp only [firstRound_cons, LoopState.append, if_neg hne, hnext,
        Option.bind_eq_bind, Option.bind_some] at hb
      have hrest := ih (hvalid.emplace std _) ha hb
      exact hrest

/-- From states that agree both runs log the same about the tasks they share. -/
theorem Agree.eventLoop {fuel fuel' : ℕ} (hagree : Agree later a b) (hvalid : a.pQueue.Valid)
    (ha : eventLoop std tp procs fuel a = some a') (hb : eventLoop std tp procs fuel' b = some b') :
    (early a.tasks.length b'.processedTasks).Perm (early a.tasks.length a'.processedTasks) := by
  induction fuel generalizing fuel' a b with
  | zero => rw [eventLoop_zero] at ha; cases ha
  | succ fuel ih =>
    -- once the tasks they share are handed out, nothing changes any more
    have hpast : a.taskIterator = a.tasks.length →
        Past a.tasks.length (early a.tasks.length a.handedOut) b →
        (early a.tasks.length b'.processedTasks).Perm (early a.tasks.length a'.processedTasks) :=
      fun hend hpast =>
        (hpast.eventLoop hb).trans ((Past.self a hvalid hend.ge).eventLoop ha).symm
    rcases hagree with rfl | ⟨hend, hpast'⟩
    · by_cases hend : a.taskIterator = a.tasks.length
      · exact hpast hend (Past.self (a.append later) hvalid hend.ge)
      · cases fuel' with
        | zero => rw [eventLoop_zero] at hb; cases hb
        | succ fuel' =>
          rw [eventLoop_succ] at ha hb
          have hempty : (a.append later).pQueue.empty = a.pQueue.empty := rfl
          rw [hempty] at hb
          split at ha
          · rename_i hdone
            rw [if_pos hdone] at hb
            cases ha
            cases hb
            exact .refl _
          · rename_i hbusy
            rw [if_neg hbusy] at hb
            obtain ⟨s, hs, ha⟩ := Option.bind_eq_some_iff.mp ha
            obtain ⟨tk, q, -, ⟨hend', -⟩ | ⟨proc, task, -, htask, hs'⟩⟩ := eventStep_cases hs
            · exact absurd hend' hend
            · have hmore := (List.getElem?_eq_some_iff.mp htask).1
              rw [eventStep_append hmore hs, Option.bind_some] at hb
              have htasks : s.tasks = a.tasks := by rw [hs']
              rw [← htasks]
              exact ih (.inl rfl) (handedOut_eventStep hvalid hs).1 ha hb
    · exact hpast hend hpast'

end Append

/-! ## The call -/

/-- What both calls log about the tasks in front is the same. -/
theorem exists_call_append (std : StdAlgorithms) (tp : TaskProcessorWithTransfer)
    (procs : List Processor) (tasks later : List SimpleTask) :
    ∃ out out', call std tp procs tasks = some out ∧
      call std tp procs (tasks ++ later) = some out' ∧ (early tasks.length out').Perm out := by
  obtain ⟨a, hfirst, -⟩ := exists_firstRound std tp procs tasks
  obtain ⟨b, hfirst', -⟩ := exists_firstRound std tp procs (tasks ++ later)
  obtain ⟨a', hrun, hreach⟩ := exists_run_reachable std tp procs tasks
  obtain ⟨b', hrun', -⟩ := exists_run_reachable std tp procs (tasks ++ later)
  refine ⟨_, _, by rw [call, hrun]; rfl, by rw [call, hrun']; rfl, ?_⟩
  obtain ⟨hvalid, htasks, hagree⟩ := agree_firstRound procs (PriorityQueue.new_valid _)
    hfirst hfirst'
  rw [run_eq, hfirst] at hrun
  rw [run_eq, hfirst'] at hrun'
  have hperm := hagree.eventLoop hvalid hrun hrun'
  have hall : early tasks.length a'.processedTasks = a'.processedTasks := by
    apply List.filter_eq_self.mpr
    intro c hc
    obtain ⟨w, hw⟩ := hreach.exists_running
    have hlt := hreach.task_lt_of_mem (List.mem_append_left _ hc)
    exact decide_eq_true (hlt.trans_le hw.iterator_le)
  rw [htasks] at hperm
  exact hperm.trans (List.Perm.of_eq hall)

theorem onWorker_early (n v : ℕ) (l : List (TaskCompletition TaskPtr)) :
    onWorker v (early n l) = early n (onWorker v l) := by
  simp only [onWorker, early, List.filter_filter, Bool.and_comm]

/-- The tasks in front are logged as if the others were not there: the same workers
    run them at the same times, and each worker in the same order. This needs nothing
    of the durations or of the heap. -/
theorem call_causality (std : StdAlgorithms) (tp : TaskProcessorWithTransfer)
    (procs : List Processor) (tasks later : List SimpleTask) :
    ∃ out out', call std tp procs tasks = some out ∧
      call std tp procs (tasks ++ later) = some out' ∧
      (out'.filter (·.task < tasks.length)).Perm out ∧
      ∀ v, onWorker v (out'.filter (·.task < tasks.length)) = onWorker v out := by
  obtain ⟨out, out', hcall, hcall', hperm⟩ := exists_call_append std tp procs tasks later
  refine ⟨out, out', hcall, hcall', hperm, fun v => ?_⟩
  by_cases hprocs : procs = []
  · -- nobody to run anything
    subst hprocs
    rw [call, run_nil] at hcall hcall'
    cases hcall
    cases hcall'
    rfl
  · obtain ⟨_, w, hout, hsched⟩ := call_schedule std tp tasks hprocs
    obtain ⟨_, w', hout', hsched'⟩ := call_schedule std tp (tasks ++ later) hprocs
    rw [hcall] at hout
    rw [hcall'] at hout'
    cases hout
    cases hout'
    -- each worker's list is in the order of the tasks
    have hincreasing := (hsched.timeline_onWorker v).increasing
    have hincreasing' : (onWorker v (early tasks.length out')).Pairwise (·.task < ·.task) := by
      rw [onWorker_early]
      exact (hsched'.timeline_onWorker v).increasing.filter _
    apply (onWorker_perm hperm v).eq_of_pairwise _ hincreasing' hincreasing
    intro c c' _ _ hlt hlt'
    exact absurd hlt hlt'.asymm

end Smpp
