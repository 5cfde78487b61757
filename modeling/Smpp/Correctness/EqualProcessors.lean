-- SUMMARY: Runs on processors of one speed: Graham's bound, and better hardware never slows a task down.
import Mathlib.Algebra.Order.Field.Basic
import Mathlib.Tactic.GCongr
import Mathlib.Tactic.Ring
import Smpp.Correctness.Schedule
import Smpp.Scheduling.Dominance
import Smpp.Scheduling.Graham

/-!
# Equal processors

When all processors have the same speed a task takes the same time everywhere,
and the schedule of a call is one of list scheduling on equal machines.
-/

open ListScheduling

namespace Smpp

open TaskProcessorWithTransfer

/-! ## Times that do not depend on the worker -/

/-- The time `tasks[k]` takes on any processor of speed `mips`. -/
def jobTime (tp : TaskProcessorWithTransfer) (mips : ℚ) (tasks : List SimpleTask) (k : ℕ) : ℚ :=
  ((tasks[k]?).map (tp.timeToProcess ⟨mips⟩)).getD 0

section JobTime

variable {tp : TaskProcessorWithTransfer} {procs : List Processor} {tasks : List SimpleTask}
  {mips : ℚ}

theorem jobTime_eq {k : ℕ} (hk : k < tasks.length) :
    jobTime tp mips tasks k = tp.timeToProcess ⟨mips⟩ tasks[k] := by
  simp [jobTime, hk]

theorem duration_eq_jobTime (hmips : ∀ p ∈ procs, p.mips = mips) {v : ℕ} (hv : v < procs.length)
    (k : ℕ) : tp.duration procs tasks v k = jobTime tp mips tasks k := by
  have hproc : procs[v] = ⟨mips⟩ := by
    have := hmips procs[v] (List.getElem_mem hv)
    cases hp : procs[v]
    simp_all
  unfold TaskProcessorWithTransfer.duration jobTime
  rw [List.getElem?_eq_getElem hv, hproc]
  cases tasks[k]? <;> rfl

theorem jobTime_nonneg (hmips : 0 < mips) (hcomplexity : ∀ t ∈ tasks, 0 ≤ t.complexity)
    (hbandwidth : 0 < tp.bandwidth) (hsetup : 0 ≤ tp.connectionSetup) {k : ℕ}
    (hk : k < tasks.length) : 0 ≤ jobTime tp mips tasks k := by
  rw [jobTime_eq hk]
  exact timeToProcess_nonneg hmips (hcomplexity _ (List.getElem_mem hk)) hbandwidth hsetup

theorem durationsNonneg_of_equal (hequal : ∀ p ∈ procs, p.mips = mips)
    (hnonneg : ∀ k < tasks.length, 0 ≤ jobTime tp mips tasks k) :
    DurationsNonneg tp procs tasks := by
  intro v hv k hk
  rw [duration_eq_jobTime hequal hv]
  exact hnonneg k hk

theorem sum_jobTime : ∑ k ∈ Finset.range tasks.length, jobTime tp mips tasks k =
    (tasks.map (tp.timeToProcess ⟨mips⟩)).sum :=
  sum_range_getElem? tasks _

theorem mem_map_timeToProcess {t : ℚ} : t ∈ tasks.map (tp.timeToProcess ⟨mips⟩) ↔
    ∃ k < tasks.length, jobTime tp mips tasks k = t := by
  rw [List.mem_map]
  constructor
  · rintro ⟨task, htask, rfl⟩
    obtain ⟨k, hk, rfl⟩ := List.mem_iff_getElem.mp htask
    exact ⟨k, hk, jobTime_eq hk⟩
  · rintro ⟨k, hk, rfl⟩
    exact ⟨tasks[k], List.getElem_mem hk, (jobTime_eq hk).symm⟩

end JobTime

/-! ## Graham's bound -/

section Bound

variable {tp : TaskProcessorWithTransfer} {procs : List Processor} {tasks : List SimpleTask}
  {mips : ℚ} {w : ℕ → ℕ} {out : List (TaskCompletition TaskPtr)} {c : TaskCompletition TaskPtr}

/-- With no task longer than `D`, nothing ends later than this. -/
theorem Schedule.length_mul_timeEnd_le (h : Schedule tp procs tasks w out)
    (hequal : ∀ p ∈ procs, p.mips = mips)
    (hjob : ∀ k < tasks.length, 0 ≤ jobTime tp mips tasks k) {D : ℚ}
    (hD : ∀ k < tasks.length, jobTime tp mips tasks k ≤ D) (hc : c ∈ out) :
    procs.length * c.timeEnd ≤
      (tasks.map (tp.timeToProcess ⟨mips⟩)).sum + ((procs.length : ℚ) - 1) * D := by
  obtain ⟨k, hk, rfl⟩ := h.mem_iff.mp hc
  have hpos : 0 < procs.length := h.length_pos hc
  have hbound := (h.greedy (durationsNonneg_of_equal hequal hjob)).card_nsmul_finish_le
    (fun v hv j _ => duration_eq_jobTime hequal (Finset.mem_range.mp hv) j) hjob hk
  rw [Finset.card_range, sum_jobTime, nsmul_eq_mul, nsmul_eq_mul, Nat.cast_sub hpos,
    Nat.cast_one] at hbound
  have hcoef : (0 : ℚ) ≤ (procs.length : ℚ) - 1 := by
    rw [sub_nonneg]
    exact_mod_cast hpos
  exact hbound.trans (by gcongr; exact hD k hk)

/-- Against any assignment `a` that keeps all loads within `T'`. -/
theorem Schedule.length_mul_timeEnd_le_of_load (h : Schedule tp procs tasks w out)
    (hequal : ∀ p ∈ procs, p.mips = mips)
    (hjob : ∀ k < tasks.length, 0 ≤ jobTime tp mips tasks k) {a : ℕ → ℕ}
    (ha : ∀ k < tasks.length, a k < procs.length) {T' : ℚ}
    (hT' : ∀ v < procs.length, load (tp.duration procs tasks) a tasks.length v ≤ T')
    (hc : c ∈ out) : procs.length * c.timeEnd ≤ (2 * (procs.length : ℚ) - 1) * T' := by
  obtain ⟨k, hk, rfl⟩ := h.mem_iff.mp hc
  have hpos : 0 < procs.length := h.length_pos hc
  have hS : (Finset.range procs.length).Nonempty := Finset.nonempty_range_iff.mpr hpos.ne'
  have hbound := (h.greedy (durationsNonneg_of_equal hequal hjob)).card_nsmul_finish_le_makespan
    (fun v hv j _ => duration_eq_jobTime hequal (Finset.mem_range.mp hv) j) hjob
    (fun j hj => Finset.mem_range.mpr (ha j hj)) hS hk
  have hle :
      makespan (tp.duration procs tasks) a tasks.length (Finset.range procs.length) hS ≤ T' :=
    Finset.sup'_le _ _ (fun v hv => hT' v (Finset.mem_range.mp hv))
  rw [Finset.card_range, nsmul_eq_mul, nsmul_eq_mul, Nat.cast_sub (by omega)] at hbound
  push_cast at hbound
  have hcoef : (0 : ℚ) ≤ 2 * (procs.length : ℚ) - 1 := by
    have hone : (1 : ℚ) ≤ procs.length := by exact_mod_cast hpos
    linarith
  exact hbound.trans (mul_le_mul_of_nonneg_left hle hcoef)

end Bound

/-- On `m` equal processors the largest end `T` in the log satisfies
    `m * T ≤ sum + (m - 1) * largest` over the task times, and is less than twice
    the makespan `T'` of any assignment `a` of the tasks. -/
theorem call_graham_bound (std : StdAlgorithms) (tp : TaskProcessorWithTransfer)
    (procs : List Processor) (tasks : List SimpleTask) (mips : ℚ) (hmips : 0 < mips)
    (hprocs : procs ≠ []) (hequal : ∀ p ∈ procs, p.mips = mips) (htasks : tasks ≠ [])
    (hcomplexity : ∀ t ∈ tasks, 0 ≤ t.complexity) (hbandwidth : 0 < tp.bandwidth)
    (hsetup : 0 ≤ tp.connectionSetup) :
    ∃ out T D, call std tp procs tasks = some out ∧
      IsGreatest {t | ∃ c ∈ out, c.timeEnd = t} T ∧
      IsGreatest {t | t ∈ tasks.map (tp.timeToProcess ⟨mips⟩)} D ∧
      procs.length * T ≤
        (tasks.map (tp.timeToProcess ⟨mips⟩)).sum + ((procs.length : ℚ) - 1) * D ∧
      ∀ a : ℕ → ℕ, (∀ k < tasks.length, a k < procs.length) → ∀ T',
        IsGreatest
          {t | ∃ v < procs.length, load (tp.duration procs tasks) a tasks.length v = t} T' →
        procs.length * T ≤ (2 * (procs.length : ℚ) - 1) * T' := by
  obtain ⟨out, w, hcall, hsched⟩ := call_schedule std tp tasks hprocs
  have hjob : ∀ k < tasks.length, 0 ≤ jobTime tp mips tasks k :=
    fun k hk => jobTime_nonneg hmips hcomplexity hbandwidth hsetup hk
  -- the task that ends last, and the longest one
  obtain ⟨T, hT⟩ := exists_isGreatest
    (show out.map (·.timeEnd) ≠ [] by simpa using hsched.ne_nil htasks)
  obtain ⟨D, hD⟩ := exists_isGreatest
    (show tasks.map (tp.timeToProcess ⟨mips⟩) ≠ [] by simpa using htasks)
  simp only [List.mem_map] at hT
  obtain ⟨c, hc, hcT⟩ := hT.1
  refine ⟨out, T, D, hcall, hT, hD, ?_, fun a ha T' hT' => ?_⟩
  · rw [← hcT]
    apply hsched.length_mul_timeEnd_le hequal hjob _ hc
    intro k hk
    exact hD.2 (mem_map_timeToProcess.mpr ⟨k, hk, rfl⟩)
  · rw [← hcT]
    apply hsched.length_mul_timeEnd_le_of_load hequal hjob ha _ hc
    intro v hv
    exact hT'.2 ⟨v, hv, rfl⟩

theorem call_graham_bound_two_workers :
    ∃ out T D, call .reference ⟨1, 1⟩ [⟨2⟩, ⟨2⟩] [⟨4, 1, 0⟩, ⟨2, 1, 0⟩, ⟨6, 1, 1⟩] = some out ∧
      IsGreatest {t | ∃ c ∈ out, c.timeEnd = t} T ∧
      IsGreatest {t | t ∈ [⟨4, 1, 0⟩, ⟨2, 1, 0⟩, ⟨6, 1, 1⟩].map
        (timeToProcess ⟨1, 1⟩ ⟨2⟩)} D := by
  obtain ⟨out, T, D, hcall, hT, hD, -⟩ := call_graham_bound .reference ⟨1, 1⟩ [⟨2⟩, ⟨2⟩]
    [⟨4, 1, 0⟩, ⟨2, 1, 0⟩, ⟨6, 1, 1⟩] 2 (by decide +kernel) (List.cons_ne_nil _ _)
    (by decide +kernel) (List.cons_ne_nil _ _) (by decide +kernel) (by decide +kernel)
    (by decide +kernel)
  exact ⟨out, T, D, hcall, hT, hD⟩

/-! ## Better hardware -/

section Hardware

variable {tpA tpB : TaskProcessorWithTransfer} {mipsA mipsB : ℚ}

/-- A faster processor with a better connection takes no longer for a task. -/
theorem timeToProcess_le (hmips : 0 < mipsA) (hfaster : mipsA ≤ mipsB)
    (hbandwidth : 0 < tpA.bandwidth) (hwider : tpA.bandwidth ≤ tpB.bandwidth)
    (hsetup : tpB.connectionSetup ≤ tpA.connectionSetup) {task : SimpleTask}
    (hcomplexity : 0 ≤ task.complexity) :
    tpB.timeToProcess ⟨mipsB⟩ task ≤ tpA.timeToProcess ⟨mipsA⟩ task := by
  unfold timeToProcess transferTime Processor.timeToComplete
  have hbits : (0 : ℚ) ≤ task.bitsToTransfer := Nat.cast_nonneg _
  gcongr

theorem jobTime_le {tasks : List SimpleTask} (hmips : 0 < mipsA) (hfaster : mipsA ≤ mipsB)
    (hbandwidth : 0 < tpA.bandwidth) (hwider : tpA.bandwidth ≤ tpB.bandwidth)
    (hsetup : tpB.connectionSetup ≤ tpA.connectionSetup)
    (hcomplexity : ∀ t ∈ tasks, 0 ≤ t.complexity) {k : ℕ} (hk : k < tasks.length) :
    jobTime tpB mipsB tasks k ≤ jobTime tpA mipsA tasks k := by
  rw [jobTime_eq hk, jobTime_eq hk]
  exact timeToProcess_le hmips hfaster hbandwidth hwider hsetup
    (hcomplexity _ (List.getElem_mem hk))

end Hardware

/-! ## Two runs -/

section TwoRuns

variable {tpA tpB : TaskProcessorWithTransfer} {procsA procsB : List Processor}
  {tasksA tasksB : List SimpleTask} {mipsA mipsB : ℚ} {wA wB : ℕ → ℕ}
  {outA outB : List (TaskCompletition TaskPtr)} {own : ℕ → Prop} [DecidablePred own]

/-- A run that has at least as many processors and, of the other run's tasks,
    only those in `own`, starts and ends these tasks no later. -/
theorem Schedule.start_le_and_finish_le (hA : Schedule tpA procsA tasksA wA outA)
    (hB : Schedule tpB procsB tasksB wB outB) (hequalA : ∀ p ∈ procsA, p.mips = mipsA)
    (hequalB : ∀ p ∈ procsB, p.mips = mipsB) (hlength : procsA.length ≤ procsB.length)
    (hdA : DurationsNonneg tpA procsA tasksA) (hdB : DurationsNonneg tpB procsB tasksB)
    (hown : OwnJobs own tasksA.length (jobTime tpA mipsA tasksA) tasksB.length
      (jobTime tpB mipsB tasksB)) {i : ℕ} (hi : i < tasksA.length) (ho : own i) :
    start (tpB.duration procsB tasksB) wB (Nat.count own i) ≤
        start (tpA.duration procsA tasksA) wA i ∧
      finish (tpB.duration procsB tasksB) wB (Nat.count own i) ≤
        finish (tpA.duration procsA tasksA) wA i := by
  have hpA : ∀ v ∈ Finset.range procsA.length, ∀ j < tasksA.length,
      tpA.duration procsA tasksA v j = jobTime tpA mipsA tasksA j :=
    fun v hv j _ => duration_eq_jobTime hequalA (Finset.mem_range.mp hv) j
  have hpB : ∀ v ∈ Finset.range procsB.length, ∀ j < tasksB.length,
      tpB.duration procsB tasksB v j = jobTime tpB mipsB tasksB j :=
    fun v hv j _ => duration_eq_jobTime hequalB (Finset.mem_range.mp hv) j
  have hjob : ∀ k < tasksA.length, 0 ≤ jobTime tpA mipsA tasksA k := by
    intro k hk
    rw [← hpA _ (Finset.mem_range.mpr (hA.worker_lt k hk)) k hk]
    exact hA.duration_nonneg hdA hk
  have hcard : (Finset.range procsA.length).card ≤ (Finset.range procsB.length).card := by
    simpa using hlength
  exact ⟨(hA.greedy hdA).start_le hpA hpB hjob hcard hown (hB.greedy hdB) hi ho,
    (hA.greedy hdA).finish_le hpA hpB hjob hcard hown (hB.greedy hdB) hi ho⟩

end TwoRuns

/-- Two runs on the same tasks, where the second has at least as many
    processors, at least as fast, and a connection at least as good: every task
    starts and ends no later there, and so does the last of any selection of
    tasks (all of them, or those of one user). -/
theorem call_mono_of_better_hardware (stdA stdB : StdAlgorithms)
    (tpA tpB : TaskProcessorWithTransfer) (procsA procsB : List Processor) (tasks : List SimpleTask)
    (mipsA mipsB : ℚ) (hprocs : procsA ≠ []) (hlength : procsA.length ≤ procsB.length)
    (hequalA : ∀ p ∈ procsA, p.mips = mipsA) (hequalB : ∀ p ∈ procsB, p.mips = mipsB)
    (hmips : 0 < mipsA) (hfaster : mipsA ≤ mipsB) (hbandwidth : 0 < tpA.bandwidth)
    (hwider : tpA.bandwidth ≤ tpB.bandwidth) (hsetup : 0 ≤ tpB.connectionSetup)
    (hquicker : tpB.connectionSetup ≤ tpA.connectionSetup)
    (hcomplexity : ∀ t ∈ tasks, 0 ≤ t.complexity) :
    ∃ outA outB, call stdA tpA procsA tasks = some outA ∧ call stdB tpB procsB tasks = some outB ∧
      (∀ k < tasks.length, ∃ cA cB, (∀ c, c ∈ outA ∧ c.task = k ↔ c = cA) ∧
        (∀ c, c ∈ outB ∧ c.task = k ↔ c = cB) ∧
        cB.timeStart ≤ cA.timeStart ∧ cB.timeEnd ≤ cA.timeEnd) ∧
      ∀ (selected : TaskPtr → Prop) (tA tB : ℚ),
        IsGreatest {t | ∃ c ∈ outA, selected c.task ∧ c.timeEnd = t} tA →
        IsGreatest {t | ∃ c ∈ outB, selected c.task ∧ c.timeEnd = t} tB → tB ≤ tA := by
  have hprocsB : procsB ≠ [] := by
    rintro rfl
    exact hprocs (List.length_eq_zero_iff.mp (Nat.le_zero.mp hlength))
  obtain ⟨outA, wA, hcallA, hA⟩ := call_schedule stdA tpA tasks hprocs
  obtain ⟨outB, wB, hcallB, hB⟩ := call_schedule stdB tpB tasks hprocsB
  have hjobA : ∀ k < tasks.length, 0 ≤ jobTime tpA mipsA tasks k :=
    fun k hk => jobTime_nonneg hmips hcomplexity hbandwidth (hsetup.trans hquicker) hk
  have hjobB : ∀ k < tasks.length, 0 ≤ jobTime tpB mipsB tasks k :=
    fun k hk => jobTime_nonneg (hmips.trans_le hfaster) hcomplexity (hbandwidth.trans_le hwider)
      hsetup hk
  -- both runs have all jobs
  have hcount : ∀ k, Nat.count (fun _ => True) k = k := Nat.count_true
  have hown : OwnJobs (fun _ => True) tasks.length (jobTime tpA mipsA tasks) tasks.length
      (jobTime tpB mipsB tasks) := by
    constructor
    · intro i hi _
      rwa [hcount]
    · intro i hi _
      rw [hcount]
      exact jobTime_le hmips hfaster hbandwidth hwider hquicker hcomplexity hi
  have hle : ∀ k < tasks.length,
      start (tpB.duration procsB tasks) wB k ≤ start (tpA.duration procsA tasks) wA k ∧
        finish (tpB.duration procsB tasks) wB k ≤ finish (tpA.duration procsA tasks) wA k := by
    intro k hk
    have hboth := hA.start_le_and_finish_le hB hequalA hequalB hlength
      (durationsNonneg_of_equal hequalA hjobA) (durationsNonneg_of_equal hequalB hjobB) hown hk
      trivial
    rwa [hcount] at hboth
  refine ⟨outA, outB, hcallA, hcallB, fun k hk => ?_, fun selected tA tB htA htB => ?_⟩
  · exact ⟨_, _, fun c => hA.mem_task_iff hk, fun c => hB.mem_task_iff hk, (hle k hk).1,
      (hle k hk).2⟩
  · obtain ⟨c, hc, hsel, rfl⟩ := htB.1
    obtain ⟨k, hk, rfl⟩ := hB.mem_iff.mp hc
    exact (hle k hk).2.trans (htA.2 ⟨_, hA.completion_mem hk, hsel, rfl⟩)

theorem call_mono_of_better_hardware_one_to_two :
    ∃ outA outB, call .reference ⟨1, 1⟩ [⟨2⟩] [⟨4, 1, 0⟩, ⟨2, 1, 0⟩] = some outA ∧
      call .reference ⟨2, 0⟩ [⟨3⟩, ⟨3⟩] [⟨4, 1, 0⟩, ⟨2, 1, 0⟩] = some outB := by
  obtain ⟨outA, outB, hA, hB, -⟩ := call_mono_of_better_hardware .reference .reference ⟨1, 1⟩ ⟨2, 0⟩
    [⟨2⟩] [⟨3⟩, ⟨3⟩] [⟨4, 1, 0⟩, ⟨2, 1, 0⟩] 2 3 (List.cons_ne_nil _ _)
    (by decide) (by decide +kernel) (by decide +kernel) (by decide +kernel) (by decide +kernel)
    (by decide +kernel) (by decide +kernel) (by decide +kernel) (by decide +kernel)
    (by decide +kernel)
  exact ⟨outA, outB, hA, hB⟩

end Smpp
