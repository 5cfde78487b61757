-- SUMMARY: A call by the clock: as many workers are busy as there are workers or unfinished tasks, at every time.
import Smpp.Correctness.Schedule
import Smpp.Scheduling.Clock

/-!
# The log by the clock

The log lists completions by their ends. Read at a time `t` it tells which tasks wait,
run or are done. No worker runs two tasks, none idles while a task waits, and the tasks
that wait are those that stand behind all that have started.
-/

open ListScheduling

namespace Smpp

open TaskProcessorWithTransfer

variable {tp : TaskProcessorWithTransfer} {procs : List Processor} {tasks : List SimpleTask}
  {w : ℕ → ℕ} {out : List (TaskCompletition TaskPtr)} {t : ℚ}

/-- The completions of the tasks that are not done by time `t`. -/
def unfinishedAt (t : ℚ) (out : List (TaskCompletition TaskPtr)) :
    List (TaskCompletition TaskPtr) :=
  out.filter fun c => decide (t < c.timeEnd)

/-- The completions of the tasks that run at time `t`. -/
def runningAt (t : ℚ) (out : List (TaskCompletition TaskPtr)) : List (TaskCompletition TaskPtr) :=
  out.filter fun c => decide (c.timeStart ≤ t ∧ t < c.timeEnd)

/-- A selection from the log counts the tasks it selects. -/
theorem Schedule.length_filter (h : Schedule tp procs tasks w out)
    (q : TaskCompletition TaskPtr → Bool) :
    (out.filter q).length =
      ((Finset.range tasks.length).filter
        fun k => q (completion (tp.duration procs tasks) w k) = true).card := by
  have hq : q ∘ completion (tp.duration procs tasks) w =
      fun k => decide (q (completion (tp.duration procs tasks) w k) = true) := by
    funext k
    exact Bool.decide_coe _ |>.symm
  rw [(h.perm.filter q).length_eq, dispatched, List.filter_map, List.length_map, hq]
  rfl

theorem Schedule.length_unfinishedAt (h : Schedule tp procs tasks w out) :
    (unfinishedAt t out).length =
      (unfinished (tp.duration procs tasks) w tasks.length t).card := by
  rw [unfinishedAt, h.length_filter]
  congr 1
  ext k
  rw [mem_unfinished, Finset.mem_filter, Finset.mem_range, decide_eq_true_eq]
  rfl

theorem Schedule.length_runningAt (h : Schedule tp procs tasks w out) :
    (runningAt t out).length = (running (tp.duration procs tasks) w tasks.length t).card := by
  rw [runningAt, h.length_filter]
  congr 1
  ext k
  rw [mem_running, Finset.mem_filter, Finset.mem_range, decide_eq_true_eq]
  rfl

/-- Time only takes tasks away. -/
theorem length_unfinishedAt_anti {t' : ℚ} (hle : t ≤ t') :
    (unfinishedAt t' out).length ≤ (unfinishedAt t out).length := by
  apply List.Sublist.length_le
  apply List.monotone_filter_right
  intro c hc
  exact decide_eq_true (hle.trans_lt (of_decide_eq_true hc))

theorem Schedule.busy_eq (h : Schedule tp procs tasks w out) (hd : DurationsNonneg tp procs tasks)
    (ht : 0 ≤ t) :
    (runningAt t out).length = min procs.length (unfinishedAt t out).length := by
  rw [h.length_runningAt, h.length_unfinishedAt,
    (h.greedy hd).card_running (fun j hj => h.duration_nonneg hd hj) ht, Finset.card_range]

/-- A worker's tasks that run at one time are one task. -/
theorem Schedule.length_onWorker_runningAt (h : Schedule tp procs tasks w out)
    (hd : DurationsNonneg tp procs tasks) (v : ℕ) :
    (onWorker v (runningAt t out)).length ≤ 1 := by
  rw [onWorker, runningAt, List.filter_filter, h.length_filter, Finset.card_le_one]
  have hrun : ∀ k ∈ (Finset.range tasks.length).filter (fun k =>
      ((decide ((completion (tp.duration procs tasks) w k).workerIndex = v)) &&
        decide ((completion (tp.duration procs tasks) w k).timeStart ≤ t ∧
          t < (completion (tp.duration procs tasks) w k).timeEnd)) = true),
      k ∈ running (tp.duration procs tasks) w tasks.length t ∧ w k = v := by
    intro k hk
    obtain ⟨hlt, hboth⟩ := Finset.mem_filter.mp hk
    obtain ⟨hworker, hclock⟩ := (Bool.and_eq_true _ _).mp hboth
    exact ⟨mem_running.mpr ⟨Finset.mem_range.mp hlt, of_decide_eq_true hclock⟩,
      of_decide_eq_true hworker⟩
  intro i hi k hk
  obtain ⟨hi, hiv⟩ := hrun i hi
  obtain ⟨hk, hkv⟩ := hrun k hk
  exact running_injOn (fun j hj => h.duration_nonneg hd hj) hi hk (hiv.trans hkv.symm)

/-- At every time from 0 on as many tasks run as there are workers, or as there are
    unfinished tasks if these are fewer, each on a worker of its own. So while a task
    waits all workers are busy, and their number never grows again. The tasks that
    wait come after all that have started. If there are workers every task has one
    completion, so what is counted are tasks. -/
theorem call_work_conserving (std : StdAlgorithms) (tp : TaskProcessorWithTransfer)
    (procs : List Processor) (tasks : List SimpleTask) (hd : DurationsNonneg tp procs tasks) :
    ∃ out, call std tp procs tasks = some out ∧
      (procs ≠ [] → (out.map (·.task)).Perm (List.range tasks.length)) ∧ ∀ t, 0 ≤ t →
      (runningAt t out).length = min procs.length (unfinishedAt t out).length ∧
      (∀ v, (onWorker v (runningAt t out)).length ≤ 1) ∧
      (∀ t', t ≤ t' → (runningAt t' out).length ≤ (runningAt t out).length) ∧
      ∀ c ∈ out, ∀ c' ∈ out, c.timeStart ≤ t → t < c'.timeStart → c.task < c'.task := by
  by_cases hprocs : procs = []
  · subst hprocs
    refine ⟨[], by rw [call, run_nil]; rfl, fun hne => absurd rfl hne, fun t _ => ?_⟩
    simp [runningAt]
  · obtain ⟨out, w, hcall, hsched⟩ := call_schedule std tp tasks hprocs
    refine ⟨out, hcall, fun _ => hsched.tasks_perm, fun t ht => ⟨hsched.busy_eq hd ht,
      fun v => hsched.length_onWorker_runningAt hd v, fun t' hle => ?_, ?_⟩⟩
    · rw [hsched.busy_eq hd ht, hsched.busy_eq hd (ht.trans hle)]
      exact min_le_min_left _ (length_unfinishedAt_anti hle)
    · intro c hc c' hc' hstarted hwait
      obtain ⟨i, hi, rfl⟩ := hsched.mem_iff.mp hc
      obtain ⟨k, -, rfl⟩ := hsched.mem_iff.mp hc'
      exact (hsched.greedy hd).lt_of_waiting (fun j hj => hsched.duration_nonneg hd hj) hi hstarted
        hwait

theorem call_work_conserving_two_workers :
    ∃ out, call .reference ⟨1, 1⟩ [⟨1⟩, ⟨2⟩] [⟨4, 1, 0⟩, ⟨2, 1, 0⟩, ⟨6, 1, 1⟩] = some out ∧
      (out.map (·.task)).Perm (List.range 3) ∧
      (runningAt 2 out).length = min 2 (unfinishedAt 2 out).length := by
  have hd : DurationsNonneg ⟨1, 1⟩ [⟨1⟩, ⟨2⟩] [⟨4, 1, 0⟩, ⟨2, 1, 0⟩, ⟨6, 1, 1⟩] := by
    unfold DurationsNonneg
    decide +kernel
  obtain ⟨out, hcall, htasks, hall⟩ := call_work_conserving .reference ⟨1, 1⟩ [⟨1⟩, ⟨2⟩]
    [⟨4, 1, 0⟩, ⟨2, 1, 0⟩, ⟨6, 1, 1⟩] hd
  exact ⟨out, hcall, htasks (List.cons_ne_nil _ _), (hall 2 (by decide +kernel)).1⟩

end Smpp
