-- SUMMARY: The rows of the result file: averages over simulations, and free of randomness when players do not tie.
import Mathlib.Tactic.FieldSimp
import Smpp.Correctness.Players
import Smpp.Model.Main

/-!
# Rows

A row for two players is the average of its simulations. If no task of one player
has the complexity of a task of the other, the sorted tasks are the same after
every shuffle. All simulations then give the same times, and with the slices
exchanged the players change places.
-/

open Finset

namespace Smpp.Main

open TaskProcessorWithTransfer

/-! ## Averages -/

section Average

variable {w : Width} {procs : List Processor} {procComp : Comparator Processor}
  {taskComp : Comparator SimpleTask} {tp : TaskProcessorWithTransfer} {problemSize : ℕ}
  {simLog doShuffle : Bool} {outcomes : ℕ → Outcome} {i j : ℕ} {tasks : List SimpleTask}
  {a b : ℕ → ℚ}

/-- Each round adds the times of one more simulation. -/
theorem timesLoop_eq (htasks : Mmsim.createTasks w problemSize [i, j] = some tasks)
    (rounds times : ℕ) (hsim : ∀ k, times ≤ k → ∃ r,
      simulate (outcomes k).std (outcomes k).g procs procComp tasks taskComp tp 2 doShuffle =
        some r ∧ r.times = [a k, b k]) (x y : ℚ) :
    timesLoop w procs procComp taskComp tp problemSize outcomes i j doShuffle rounds times [x, y] =
      some [x + ∑ k ∈ range rounds, a (times + k), y + ∑ k ∈ range rounds, b (times + k)] := by
  induction rounds generalizing times x y with
  | zero => simp [timesLoop]
  | succ rounds ih =>
    obtain ⟨r, hr, hrtimes⟩ := hsim times le_rfl
    have hshift : ∀ f : ℕ → ℚ, f times + ∑ k ∈ range rounds, f (times + 1 + k) =
        ∑ k ∈ range (rounds + 1), f (times + k) := by
      intro f
      rw [sum_range_succ', add_comm, add_zero]
      congr 1
      apply sum_congr rfl
      intro k _
      rw [add_assoc, add_comm 1 k]
    simp only [timesLoop, htasks, hr, hrtimes, Option.bind_eq_bind, Option.bind_some,
      List.zipWith_cons_cons, List.zipWith_nil_right]
    rw [ih (times + 1) (fun k hk => hsim k (Nat.le_of_succ_le hk)), add_assoc, add_assoc, hshift a,
      hshift b]

/-- What the times of the simulations add up to a row's time. -/
def average (randomizeCount : ℕ) (a : ℕ → ℚ) : ℚ :=
  if randomizeCount ≠ 0 then (∑ k ∈ range randomizeCount, a k) / randomizeCount else a 0

theorem average_const (randomizeCount : ℕ) (t : ℚ) : average randomizeCount (fun _ => t) = t := by
  unfold average
  split
  · rename_i h
    have hcount : (randomizeCount : ℚ) ≠ 0 := Nat.cast_ne_zero.mpr h
    rw [sum_const, card_range, nsmul_eq_mul, mul_div_cancel_left₀ t hcount]
  · rfl

/-- Simulation 0 stands before the loop, the others in it. -/
theorem twoPlayersRow_eq (randomizeCount : ℕ)
    (htasks : Mmsim.createTasks w problemSize [i, j] = some tasks)
    (hfirst : ∃ r, simulate (outcomes 0).std (outcomes 0).g procs procComp tasks taskComp tp 2
      (decide (randomizeCount ≠ 0)) simLog = some r ∧ r.times = [a 0, b 0])
    (hothers : ∀ k, 1 ≤ k → ∃ r, simulate (outcomes k).std (outcomes k).g procs procComp tasks
      taskComp tp 2 (decide (randomizeCount ≠ 0)) = some r ∧ r.times = [a k, b k]) :
    twoPlayersRow w procs procComp taskComp tp problemSize simLog randomizeCount outcomes i j =
      some (.pair i j (average randomizeCount a) (average randomizeCount b)) := by
  obtain ⟨r, hr, hrtimes⟩ := hfirst
  have hloop := timesLoop_eq htasks (randomizeCount - 1) 1 hothers (a 0) (b 0)
  simp only [twoPlayersRow, htasks, hr, hrtimes, hloop, Option.bind_eq_bind, Option.bind_some]
  by_cases hcount : randomizeCount = 0
  · subst hcount
    simp [average]
  · have hsum : ∀ f : ℕ → ℚ, f 0 + ∑ k ∈ range (randomizeCount - 1), f (1 + k) =
        ∑ k ∈ range randomizeCount, f k := by
      intro f
      obtain ⟨n, rfl⟩ := Nat.exists_eq_succ_of_ne_zero hcount
      rw [sum_range_succ', add_comm]
      simp only [Nat.succ_sub_one, add_comm 1]
    simp [average, hcount, hsum]

end Average

/-! ## Players that do not tie -/

section NoTie

variable {std₀ std : StdAlgorithms} {g : Shuffle} {procs : List Processor}
  {procComp : Comparator Processor} {tasks₀ tasks : List SimpleTask}
  {taskComp : Comparator SimpleTask} {tp : TaskProcessorWithTransfer} {nUserHint : UInt8}
  {σ : UInt8 → UInt8} {out : List (TaskCompletition TaskPtr)}

/-- When complexities tell the tasks apart, simulating them under other user names
    gives the times read off one and the same log. -/
theorem simulate_times_withUser (hheap : std.SameHeap std₀) (hprocComp : ByMips procComp)
    (htaskComp : ByComplexity taskComp) (hσ : Function.Injective σ)
    (heq : ∀ a ∈ tasks₀, ∀ b ∈ tasks₀, a.complexity = b.complexity → a = b)
    (hperm : (tasks.map (SimpleTask.withUser σ)).Perm tasks₀)
    (husers : ∀ t ∈ tasks, t.userid < nUserHint)
    (hcall : call std₀ tp (std₀.sort procComp procs)
      (sortedTasks std₀ .identity tasks₀ taskComp false) = some out)
    (g : Shuffle) (shuffle returnProcessed : Bool) :
    ∃ r, simulate std g procs procComp tasks taskComp tp nUserHint shuffle returnProcessed =
        some r ∧ r.times.length = nUserHint.toNat ∧
      ∀ u < nUserHint, r.times[u.toNat]? = some ((firstEnd
        (sortedTasks std₀ .identity tasks₀ taskComp false) out.reverse (σ u)).getD 0) := by
  have hsame := sortedTasks_withUser_eq std std₀ g .identity shuffle false htaskComp hperm heq
  obtain ⟨out', hcall', hsim, -⟩ := simulate_log std g procs procComp tasks taskComp tp shuffle
  have hlog := simulate_log_task_lt std g procs procComp tasks taskComp tp shuffle hcall'
  have hout : out' = out := by
    rw [← call_withUser (σ := σ), hsame, call_congr_heap hheap,
      sort_eq_of_byMips std std₀ hprocComp (.refl procs), hcall] at hcall'
    exact (Option.some.inj hcall').symm
  subst hout
  have husers' : ∀ t ∈ sortedTasks std g tasks taskComp shuffle, t.userid < nUserHint :=
    fun t ht => husers t ((sortedTasks_perm std g tasks taskComp shuffle).mem_iff.mp ht)
  obtain ⟨times, hcollect, hlen, htimes⟩ := collectTimes_log husers' hlog
  refine ⟨_, by rw [hsim, reported, hcollect]; rfl, hlen, fun u hu => ?_⟩
  rw [← hsame, firstEnd_withUser hσ]
  exact htimes u hu

/-- Two players get the same two times in every simulation, so their row has just
    these. -/
theorem twoPlayersRow_withUser {problemSize i j : ℕ} {outcomes : ℕ → Outcome}
    (hheap : ∀ k, (outcomes k).std.SameHeap std₀) (hprocComp : ByMips procComp)
    (htaskComp : ByComplexity taskComp) (hσ : Function.Injective σ)
    (heq : ∀ a ∈ tasks₀, ∀ b ∈ tasks₀, a.complexity = b.complexity → a = b)
    (hcreate : Mmsim.createTasks .unbounded problemSize [i, j] = some tasks)
    (hperm : (tasks.map (SimpleTask.withUser σ)).Perm tasks₀) (husers : ∀ t ∈ tasks, t.userid < 2)
    (hcall : call std₀ tp (std₀.sort procComp procs)
      (sortedTasks std₀ .identity tasks₀ taskComp false) = some out)
    {time : UInt8 → ℚ} (htime : ∀ u, (firstEnd (sortedTasks std₀ .identity tasks₀ taskComp false)
      out.reverse u).getD 0 = time u)
    (randomizeCount : ℕ) (simLog : Bool) :
    twoPlayersRow .unbounded procs procComp taskComp tp problemSize simLog randomizeCount outcomes
      i j = some (.pair i j (time (σ 0)) (time (σ 1))) := by
  have hsim : ∀ k returnProcessed, ∃ r, simulate (outcomes k).std (outcomes k).g procs procComp
      tasks taskComp tp 2 (decide (randomizeCount ≠ 0)) returnProcessed = some r ∧
        r.times = [time (σ 0), time (σ 1)] := by
    intro k returnProcessed
    obtain ⟨r, hr, hlen, hall⟩ := simulate_times_withUser (hheap k) hprocComp htaskComp hσ heq hperm
      husers hcall (outcomes k).g (decide (randomizeCount ≠ 0)) returnProcessed
    obtain ⟨x, y, hxy⟩ := List.length_eq_two.mp hlen
    have hfirst := hall 0 (by decide)
    have hsecond := hall 1 (by decide)
    rw [hxy, htime] at hfirst hsecond
    refine ⟨r, hr, ?_⟩
    rw [hxy, ← Option.some.inj hfirst, ← Option.some.inj hsecond]
  rw [twoPlayersRow_eq (a := fun _ => time (σ 0)) (b := fun _ => time (σ 1)) randomizeCount hcreate
    (hsim 0 simLog) (fun k _ => hsim k false), average_const, average_const]

end NoTie

section TwoPlayers

variable {problemSize i j : ℕ}

theorem tasksFrom_pair (w : Width) (problemSize i j : ℕ) :
    Mmsim.tasksFrom w problemSize [i, j] 0 =
      Mmsim.playerTasks w problemSize i 0 ++ Mmsim.playerTasks w problemSize j 1 := by
  simp [Mmsim.tasksFrom]

/-- Without a tie the complexity of a task tells whose it is, and then which. -/
theorem eq_of_complexity_eq_of_no_tie (hi : 1 ≤ i) (hj : 1 ≤ j)
    (htie : ∀ a ∈ Mmsim.tasksFrom .unbounded problemSize [i, j] 0,
      ∀ b ∈ Mmsim.tasksFrom .unbounded problemSize [i, j] 0,
        a.userid = 0 → b.userid = 1 → a.complexity ≠ b.complexity) :
    ∀ a ∈ Mmsim.tasksFrom .unbounded problemSize [i, j] 0,
      ∀ b ∈ Mmsim.tasksFrom .unbounded problemSize [i, j] 0,
        a.complexity = b.complexity → a = b := by
  intro a ha b hb hab
  have hwhose : ∀ t ∈ Mmsim.tasksFrom .unbounded problemSize [i, j] 0,
      (t ∈ Mmsim.playerTasks .unbounded problemSize i 0 ∧ t.userid = 0) ∨
        (t ∈ Mmsim.playerTasks .unbounded problemSize j 1 ∧ t.userid = 1) := by
    intro t ht
    rw [tasksFrom_pair] at ht
    rcases List.mem_append.mp ht with ht | ht
    · exact .inl ⟨ht, Mmsim.userid_of_mem_playerTasks ht⟩
    · exact .inr ⟨ht, Mmsim.userid_of_mem_playerTasks ht⟩
  rcases hwhose a ha with ⟨ha', hua⟩ | ⟨ha', hua⟩ <;>
    rcases hwhose b hb with ⟨hb', hub⟩ | ⟨hb', hub⟩
  · exact Mmsim.eq_of_complexity_eq hi ha' hb' hab
  · exact absurd hab (htie a ha b hb hua hub)
  · exact absurd hab.symm (htie b hb a ha hub hua)
  · exact Mmsim.eq_of_complexity_eq hj ha' hb' hab

/-- The two players change places. -/
def swapPlayers : UInt8 → UInt8 := Equiv.swap 0 1

theorem swapPlayers_zero : swapPlayers 0 = 1 := Equiv.swap_apply_left 0 1

theorem swapPlayers_one : swapPlayers 1 = 0 := Equiv.swap_apply_right 0 1

theorem swapPlayers_injective : Function.Injective swapPlayers := (Equiv.swap 0 1).injective

/-- With the slices exchanged everybody has the tasks of the other player. -/
theorem map_swapPlayers_perm (w : Width) (problemSize i j : ℕ) :
    ((Mmsim.tasksFrom w problemSize [j, i] 0).map (SimpleTask.withUser swapPlayers)).Perm
      (Mmsim.tasksFrom w problemSize [i, j] 0) := by
  rw [tasksFrom_pair, tasksFrom_pair, List.map_append, Mmsim.map_withUser_playerTasks,
    Mmsim.map_withUser_playerTasks, swapPlayers_zero, swapPlayers_one]
  exact List.perm_append_comm

/-- When no task of one player has the complexity of a task of the other, a row
    does not depend on how often and how the tasks are shuffled, nor on what the
    sorts do; and the row for exchanged slices has the exchanged times. -/
theorem twoPlayersRow_deterministic (std₀ : StdAlgorithms) (procs : List Processor)
    (procComp : Comparator Processor) (taskComp : Comparator SimpleTask)
    (tp : TaskProcessorWithTransfer) (problemSize i j : ℕ) (tasks : List SimpleTask) (hi : 1 ≤ i)
    (hj : 1 ≤ j) (hprocComp : procComp = Processor.slowFirst ∨ procComp = Processor.fastFirst)
    (htaskComp : taskComp = SimpleTask.smallFirst ∨ taskComp = SimpleTask.largeFirst)
    (htasks : Mmsim.createTasks .unbounded problemSize [i, j] = some tasks)
    (htie : ∀ a ∈ tasks, ∀ b ∈ tasks, a.userid = 0 → b.userid = 1 → a.complexity ≠ b.complexity) :
    ∃ timeFirst timeSecond, ∀ (randomizeCount : ℕ) (simLog : Bool) (outcomes : ℕ → Outcome),
      (∀ k, (outcomes k).std.SameHeap std₀) →
      twoPlayersRow .unbounded procs procComp taskComp tp problemSize simLog randomizeCount outcomes
          i j = some (.pair i j timeFirst timeSecond) ∧
        twoPlayersRow .unbounded procs procComp taskComp tp problemSize simLog randomizeCount
          outcomes j i = some (.pair j i timeSecond timeFirst) := by
  have hs : ∀ s ∈ [i, j], 1 ≤ s := List.forall_mem_cons.mpr ⟨hi, List.forall_mem_singleton.mpr hj⟩
  have hs' : ∀ s ∈ [j, i], 1 ≤ s := List.forall_mem_cons.mpr ⟨hj, List.forall_mem_singleton.mpr hi⟩
  have hcreate := Mmsim.createTasks_unbounded problemSize hs
  have hcreate' := Mmsim.createTasks_unbounded problemSize hs'
  obtain rfl : tasks = Mmsim.tasksFrom .unbounded problemSize [i, j] 0 :=
    Option.some.inj (htasks.symm.trans hcreate)
  have heq := eq_of_complexity_eq_of_no_tie hi hj htie
  obtain ⟨out, hcall, -⟩ := simulate_log std₀ .identity procs procComp
    (Mmsim.tasksFrom .unbounded problemSize [i, j] 0) taskComp tp false
  let time : UInt8 → ℚ := fun u => (firstEnd (sortedTasks std₀ .identity
    (Mmsim.tasksFrom .unbounded problemSize [i, j] 0) taskComp false) out.reverse u).getD 0
  refine ⟨time 0, time 1, fun randomizeCount simLog outcomes hheap => ⟨?_, ?_⟩⟩
  · exact twoPlayersRow_withUser hheap hprocComp htaskComp Function.injective_id heq hcreate
      (List.Perm.of_eq (List.map_id _))
      (Mmsim.userid_lt_of_mem_tasksFrom (Nat.le_of_ble_eq_true rfl)) hcall (fun _ => rfl)
      randomizeCount simLog
  · have hswapped := twoPlayersRow_withUser hheap hprocComp htaskComp swapPlayers_injective heq
      hcreate' (map_swapPlayers_perm .unbounded problemSize i j)
      (Mmsim.userid_lt_of_mem_tasksFrom (Nat.le_of_ble_eq_true rfl)) hcall (fun _ => rfl)
      randomizeCount simLog
    rwa [swapPlayers_zero, swapPlayers_one] at hswapped

theorem twoPlayersRow_deterministic_three :
    ∃ timeFirst timeSecond,
      twoPlayersRow .unbounded [⟨2⟩, ⟨1⟩] Processor.slowFirst SimpleTask.largeFirst ⟨100, 1⟩ 3 false
          4 (fun _ => ⟨.reference, .identity⟩) 3 2 = some (.pair 3 2 timeFirst timeSecond) ∧
        twoPlayersRow .unbounded [⟨2⟩, ⟨1⟩] Processor.slowFirst SimpleTask.largeFirst ⟨100, 1⟩ 3
          false 4 (fun _ => ⟨.reference, .identity⟩) 2 3 =
            some (.pair 2 3 timeSecond timeFirst) := by
  obtain ⟨timeFirst, timeSecond, hrow⟩ := twoPlayersRow_deterministic .reference [⟨2⟩, ⟨1⟩]
    Processor.slowFirst SimpleTask.largeFirst ⟨100, 1⟩ 3 3 2
    [⟨45, 1728, 0⟩, ⟨20, 1024, 1⟩, ⟨10, 704, 1⟩, ⟨10, 704, 1⟩, ⟨5, 448, 1⟩] (by decide) (by decide)
    (.inl rfl) (.inr rfl) (by decide +kernel) (by decide +kernel)
  exact ⟨timeFirst, timeSecond, hrow 4 false (fun _ => ⟨.reference, .identity⟩) (fun _ => .refl _)⟩

end TwoPlayers

end Smpp.Main
