-- SUMMARY: What a run depends on: complexities, bits and the heap functions, but not on whose tasks they are.
import Smpp.Correctness.Lockstep
import Smpp.Correctness.Simulate

/-!
# Determinism

The task processor never looks at a user id, so a run is the same whoever the
tasks belong to. Together with the sorts this makes the log a function of the
multisets of processors and of tasks: sorted by complexity, tasks that are equal
up to their owner can only stand in one order.
-/

namespace Smpp

open TaskProcessorWithTransfer

/-! ## Owners -/

/-- The task when `σ u` takes the place of each user `u`. -/
def SimpleTask.withUser (σ : UInt8 → UInt8) (t : SimpleTask) : SimpleTask :=
  { t with userid := σ t.userid }

/-- A task without its owner. -/
def SimpleTask.anonymous (t : SimpleTask) : SimpleTask := { t with userid := 0 }

theorem timeToProcess_anonymous (tp : TaskProcessorWithTransfer) (proc : Processor)
    (t : SimpleTask) :
    tp.timeToProcess proc t.anonymous = tp.timeToProcess proc t := rfl

/-- The same state with other owners of the tasks. -/
def LoopState.withUser (σ : UInt8 → UInt8) (st : LoopState) : LoopState :=
  { st with tasks := st.tasks.map (SimpleTask.withUser σ) }

section Owners

variable {std : StdAlgorithms} {tp : TaskProcessorWithTransfer} {procs : List Processor}
  {σ : UInt8 → UInt8}

variable (std tp σ) in
theorem lockstep_withUser :
    Lockstep std tp std tp (SimpleTask.withUser σ) id id (LoopState.withUser σ) where
  locals st := by simp [LoopState.withUser]
  pushHeap l := by simp only [List.map_id]
  popHeap l := by simp only [List.map_id]
  workerIndex _ := rfl
  first _ _ _ _ := rfl
  next _ _ _ _ := rfl

/-- A call does not notice whose tasks it processes. -/
theorem call_withUser (tasks : List SimpleTask) :
    call std tp procs (tasks.map (SimpleTask.withUser σ)) = call std tp procs tasks := by
  have hcall := (lockstep_withUser std tp σ).call procs tasks
  rwa [List.map_id, List.map_id_fun, Option.map_id] at hcall

theorem call_congr_anonymous {tasks tasks' : List SimpleTask}
    (h : tasks.map SimpleTask.anonymous = tasks'.map SimpleTask.anonymous) :
    call std tp procs tasks = call std tp procs tasks' := by
  rw [← call_withUser (σ := fun _ => 0) tasks, ← call_withUser (σ := fun _ => 0) tasks']
  exact congrArg (call std tp procs) h

/-- With users renamed one to one, a user's first end is the one of the user's
    new name. -/
theorem firstEnd_withUser (hσ : Function.Injective σ) (tasks : List SimpleTask)
    (log : List (TaskCompletition TaskPtr)) (u : UInt8) :
    firstEnd (tasks.map (SimpleTask.withUser σ)) log (σ u) = firstEnd tasks log u := by
  have huser : ∀ c, userOf (tasks.map (SimpleTask.withUser σ)) c = some (σ u) ↔
      userOf tasks c = some u := by
    intro c
    have hmap : userOf (tasks.map (SimpleTask.withUser σ)) c = (userOf tasks c).map σ := by
      simp only [userOf, List.getElem?_map, Option.map_map]
      rfl
    rw [hmap, ← Option.map_some, (Option.map_injective hσ).eq_iff]
  simp only [firstEnd, huser]

end Owners

/-! ## Heap functions -/

section Heap

variable {std₁ std₂ : StdAlgorithms} {tp : TaskProcessorWithTransfer}

variable (tp) in
theorem lockstep_sameHeap (h : std₁.SameHeap std₂) : Lockstep std₂ tp std₁ tp id id id id where
  locals st := by simp
  pushHeap l := by simp only [List.map_id, h.pushHeap]
  popHeap l := by simp only [List.map_id, h.popHeap]
  workerIndex _ := rfl
  first _ _ _ _ := rfl
  next _ _ _ _ := rfl

/-- Of the library algorithms a call uses the heap functions only. -/
theorem call_congr_heap (h : std₁.SameHeap std₂) (procs : List Processor)
    (tasks : List SimpleTask) : call std₁ tp procs tasks = call std₂ tp procs tasks := by
  have hcall := (lockstep_sameHeap tp h).call procs tasks
  rwa [List.map_id, List.map_id, List.map_id_fun, Option.map_id] at hcall

end Heap

/-! ## Sorted inputs -/

/-- The task orders of the command line. Both look at complexities only. -/
def ByComplexity (taskComp : Comparator SimpleTask) : Prop :=
  taskComp = SimpleTask.smallFirst ∨ taskComp = SimpleTask.largeFirst

section Order

variable {taskComp : Comparator SimpleTask}

theorem ByComplexity.congr (h : ByComplexity taskComp) {a b a' b' : SimpleTask}
    (ha : a.anonymous = a'.anonymous) (hb : b.anonymous = b'.anonymous) :
    taskComp a b = taskComp a' b' := by
  have hca : a.complexity = a'.complexity := (SimpleTask.ext_iff.mp ha).1
  have hcb : b.complexity = b'.complexity := (SimpleTask.ext_iff.mp hb).1
  rcases h with rfl | rfl
  · simp only [SimpleTask.smallFirst, Comparator.less, hca, hcb]
  · simp only [SimpleTask.largeFirst, Comparator.greater, hca, hcb]

theorem ByComplexity.complexity_eq (h : ByComplexity taskComp) {a b : SimpleTask}
    (hab : taskComp a b = false) (hba : taskComp b a = false) : a.complexity = b.complexity := by
  rcases h with rfl | rfl
  · exact le_antisymm (Comparator.less_eq_false.mp hba) (Comparator.less_eq_false.mp hab)
  · exact le_antisymm (Comparator.greater_eq_false.mp hab) (Comparator.greater_eq_false.mp hba)

end Order

/-- The processor orders of the command line. Both look at rates only. -/
def ByMips (procComp : Comparator Processor) : Prop :=
  procComp = Processor.slowFirst ∨ procComp = Processor.fastFirst

theorem ByMips.eq {procComp : Comparator Processor} (h : ByMips procComp) {p q : Processor}
    (hpq : procComp p q = false) (hqp : procComp q p = false) : p = q := by
  obtain ⟨x⟩ := p
  obtain ⟨y⟩ := q
  congr 1
  rcases h with rfl | rfl
  · exact le_antisymm (Comparator.less_eq_false.mp hqp) (Comparator.less_eq_false.mp hpq)
  · exact le_antisymm (Comparator.greater_eq_false.mp hpq) (Comparator.greater_eq_false.mp hqp)

section Sorts

variable (std₁ std₂ : StdAlgorithms) (g₁ g₂ : Shuffle) (shuffle₁ shuffle₂ : Bool)
  {procs₁ procs₂ : List Processor} {procComp : Comparator Processor}
  {tasks₁ tasks₂ : List SimpleTask} {taskComp : Comparator SimpleTask}

theorem sort_eq_of_byMips (h : ByMips procComp) (hprocs : procs₁.Perm procs₂) :
    std₁.sort procComp procs₁ = std₂.sort procComp procs₂ := by
  apply (std₁.sort_sorted procComp procs₁).eq_of_perm (std₂.sort_sorted procComp procs₂)
  · exact (std₁.sort_perm _ _).trans (hprocs.trans (std₂.sort_perm _ _).symm)
  · intro p _ q _
    exact h.eq

/-- Tasks that only differ in their owners can be sorted in one way only. -/
theorem sortedTasks_anonymous_eq (h : ByComplexity taskComp) (htasks : tasks₁.Perm tasks₂)
    (hbits : ∀ a ∈ tasks₁, ∀ b ∈ tasks₁, a.complexity = b.complexity →
      a.bitsToTransfer = b.bitsToTransfer) :
    (sortedTasks std₁ g₁ tasks₁ taskComp shuffle₁).map SimpleTask.anonymous =
      (sortedTasks std₂ g₂ tasks₂ taskComp shuffle₂).map SimpleTask.anonymous := by
  have hperm₁ := sortedTasks_perm std₁ g₁ tasks₁ taskComp shuffle₁
  have hperm₂ := sortedTasks_perm std₂ g₂ tasks₂ taskComp shuffle₂
  apply (sortedTasks_sorted std₁ g₁ tasks₁ taskComp shuffle₁).map_eq_of_perm
    (sortedTasks_sorted std₂ g₂ tasks₂ taskComp shuffle₂)
  · exact (hperm₁.trans (htasks.trans hperm₂.symm)).map _
  · intro a b a' b'
    exact h.congr
  · intro a ha b hb hab hba
    have hcomplexity := h.complexity_eq hab hba
    exact SimpleTask.ext hcomplexity
      (hbits a (hperm₁.mem_iff.mp ha) b (hperm₁.mem_iff.mp hb) hcomplexity) rfl

/-- Tasks of which no two have the same complexity, other than equal ones, can be
    sorted in one way only, under whatever user names. -/
theorem sortedTasks_withUser_eq (h : ByComplexity taskComp) {σ : UInt8 → UInt8}
    (htasks : (tasks₁.map (SimpleTask.withUser σ)).Perm tasks₂)
    (heq : ∀ a ∈ tasks₂, ∀ b ∈ tasks₂, a.complexity = b.complexity → a = b) :
    (sortedTasks std₁ g₁ tasks₁ taskComp shuffle₁).map (SimpleTask.withUser σ) =
      sortedTasks std₂ g₂ tasks₂ taskComp shuffle₂ := by
  have hperm₂ := sortedTasks_perm std₂ g₂ tasks₂ taskComp shuffle₂
  have hrenamed : ((sortedTasks std₁ g₁ tasks₁ taskComp shuffle₁).map
      (SimpleTask.withUser σ)).Perm tasks₂ :=
    ((sortedTasks_perm std₁ g₁ tasks₁ taskComp shuffle₁).map _).trans htasks
  have hsorted := (sortedTasks_sorted std₁ g₁ tasks₁ taskComp shuffle₁).map
    (f := SimpleTask.withUser σ) (fun _ _ => h.congr rfl rfl)
  apply hsorted.eq_of_perm (sortedTasks_sorted std₂ g₂ tasks₂ taskComp shuffle₂)
  · exact hrenamed.trans hperm₂.symm
  · intro a ha b hb hab hba
    exact heq a (hrenamed.mem_iff.mp ha) b (hrenamed.mem_iff.mp hb) (h.complexity_eq hab hba)

end Sorts

/-! ## Two calls -/

/-- Two calls on the same processors and tasks, up to their order, produce the
    same log, whatever the sorts and the shuffles do, if the complexity of a task
    fixes its bits. If it also fixes the user, they report the same times. -/
theorem simulate_depends_on_multisets (std₁ std₂ : StdAlgorithms) (hheap : std₁.SameHeap std₂)
    (g₁ g₂ : Shuffle) (procs₁ procs₂ : List Processor) (procComp : Comparator Processor)
    (tasks₁ tasks₂ : List SimpleTask) (taskComp : Comparator SimpleTask)
    (tp : TaskProcessorWithTransfer) (nUserHint : UInt8) (shuffle₁ shuffle₂ : Bool)
    (hprocComp : procComp = Processor.slowFirst ∨ procComp = Processor.fastFirst)
    (htaskComp : taskComp = SimpleTask.smallFirst ∨ taskComp = SimpleTask.largeFirst)
    (hprocs : procs₁.Perm procs₂) (htasks : tasks₁.Perm tasks₂)
    (hbits : ∀ a ∈ tasks₁, ∀ b ∈ tasks₁, a.complexity = b.complexity →
      a.bitsToTransfer = b.bitsToTransfer) :
    ∃ out, call std₁ tp (std₁.sort procComp procs₁)
          (sortedTasks std₁ g₁ tasks₁ taskComp shuffle₁) = some out ∧
      call std₂ tp (std₂.sort procComp procs₂)
          (sortedTasks std₂ g₂ tasks₂ taskComp shuffle₂) = some out ∧
      (∀ r, simulate std₁ g₁ procs₁ procComp tasks₁ taskComp tp nUserHint shuffle₁ true = some r →
        r.processedTasks = out) ∧
      (∀ r, simulate std₂ g₂ procs₂ procComp tasks₂ taskComp tp nUserHint shuffle₂ true = some r →
        r.processedTasks = out) ∧
      ((∀ a ∈ tasks₁, ∀ b ∈ tasks₁, a.complexity = b.complexity → a.userid = b.userid) →
        ∀ return₁ return₂,
          (simulate std₁ g₁ procs₁ procComp tasks₁ taskComp tp nUserHint shuffle₁ return₁).map
              (·.times) =
            (simulate std₂ g₂ procs₂ procComp tasks₂ taskComp tp nUserHint shuffle₂ return₂).map
              (·.times)) := by
  obtain ⟨out, hcall₁, hsim₁, -, -⟩ :=
    simulate_log std₁ g₁ procs₁ procComp tasks₁ taskComp tp shuffle₁
  obtain ⟨out₂, hcall₂, hsim₂, -, -⟩ :=
    simulate_log std₂ g₂ procs₂ procComp tasks₂ taskComp tp shuffle₂
  have hprocs' : std₁.sort procComp procs₁ = std₂.sort procComp procs₂ :=
    sort_eq_of_byMips std₁ std₂ hprocComp hprocs
  have hout : out₂ = out := by
    have hanonymous := sortedTasks_anonymous_eq std₁ std₂ g₁ g₂ shuffle₁ shuffle₂ htaskComp htasks
      hbits
    rw [hprocs', call_congr_heap hheap, call_congr_anonymous hanonymous, hcall₂] at hcall₁
    exact Option.some.inj hcall₁
  subst hout
  refine ⟨_, hcall₁, hcall₂,
    fun r hr => (processed_of_reported ((hsim₁ nUserHint true).symm.trans hr)).1,
    fun r hr => (processed_of_reported ((hsim₂ nUserHint true).symm.trans hr)).1,
    fun husers return₁ return₂ => ?_⟩
  have hsorted : sortedTasks std₁ g₁ tasks₁ taskComp shuffle₁ =
      sortedTasks std₂ g₂ tasks₂ taskComp shuffle₂ := by
    have hid : ∀ l : List SimpleTask, l.map (SimpleTask.withUser id) = l := fun l => List.map_id l
    rw [← hid (sortedTasks std₁ g₁ tasks₁ taskComp shuffle₁)]
    apply sortedTasks_withUser_eq std₁ std₂ g₁ g₂ shuffle₁ shuffle₂ htaskComp
    · rw [hid]
      exact htasks
    · intro a ha b hb hab
      have ha' := htasks.mem_iff.mpr ha
      have hb' := htasks.mem_iff.mpr hb
      exact SimpleTask.ext hab (hbits a ha' b hb' hab) (husers a ha' b hb' hab)
  rw [hsim₁, hsim₂, hsorted, reported, reported, Option.map_map, Option.map_map]
  rfl

theorem simulate_depends_on_multisets_reversed :
    (simulate .reference .identity [⟨2⟩, ⟨1⟩] Processor.slowFirst [⟨4, 1, 0⟩, ⟨2, 1, 1⟩]
        SimpleTask.largeFirst ⟨1, 1⟩ 2 false false).map (·.times) =
      (simulate .reference .identity [⟨1⟩, ⟨2⟩] Processor.slowFirst [⟨2, 1, 1⟩, ⟨4, 1, 0⟩]
        SimpleTask.largeFirst ⟨1, 1⟩ 2 true true).map (·.times) := by
  obtain ⟨out, -, -, -, -, htimes⟩ := simulate_depends_on_multisets .reference .reference
    (.refl _) .identity .identity [⟨2⟩, ⟨1⟩] [⟨1⟩, ⟨2⟩] Processor.slowFirst
    [⟨4, 1, 0⟩, ⟨2, 1, 1⟩] [⟨2, 1, 1⟩, ⟨4, 1, 0⟩] SimpleTask.largeFirst ⟨1, 1⟩ 2 false true
    (.inl rfl) (.inr rfl) (.swap _ _ _) (.swap _ _ _) (by decide +kernel)
  exact htimes (by decide +kernel) false true

end Smpp
