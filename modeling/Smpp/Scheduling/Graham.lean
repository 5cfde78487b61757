-- SUMMARY: Graham's bound for greedy schedules on equal machines, and what no schedule can beat.
import Mathlib.Algebra.Order.Group.Basic
import Mathlib.Tactic.Abel
import Smpp.Scheduling.Load

/-!
# Graham's bound

On equal machines a greedy schedule is less than twice as long as any other
schedule of the same jobs: when its last job starts every machine is busy, so
the machines share the work done up to then evenly enough.
-/

namespace ListScheduling

variable {ι α : Type*} [DecidableEq ι] [AddCommGroup α] [LinearOrder α] [IsOrderedAddMonoid α]
  {d : ι → ℕ → α} {w : ℕ → ι} {S : Finset ι} {n : ℕ} {p : ℕ → α}

/-- The time by which every machine of `S` has done its jobs. -/
def makespan (d : ι → ℕ → α) (w : ℕ → ι) (n : ℕ) (S : Finset ι) (hS : S.Nonempty) : α :=
  S.sup' hS (load d w n)

omit [IsOrderedAddMonoid α] in
theorem load_le_makespan {v : ι} (hv : v ∈ S) : load d w n v ≤ makespan d w n S ⟨v, hv⟩ :=
  Finset.le_sup' (load d w n) hv

/-! ## What no schedule can beat -/

/-- Every job fits in the makespan. -/
theorem job_le_makespan (hS : S.Nonempty) (hw : ∀ j < n, w j ∈ S) (hd : ∀ j < n, 0 ≤ d (w j) j)
    {j : ℕ} (hj : j < n) : d (w j) j ≤ makespan d w n S hS := by
  have hstart : 0 ≤ start d w j := load_nonneg (fun i hi => hd i (hi.trans hj)) (w j)
  calc d (w j) j ≤ finish d w j := le_add_of_nonneg_left hstart
    _ ≤ load d w n (w j) := finish_le_load hj hd
    _ ≤ makespan d w n S hS := load_le_makespan (hw j hj)

/-- The machines can do no more than run all the time. -/
theorem sum_le_card_nsmul_makespan (hS : S.Nonempty) (hw : ∀ j < n, w j ∈ S) :
    ∑ j ∈ Finset.range n, d (w j) j ≤ S.card • makespan d w n S hS := by
  rw [← sum_load d w hw]
  exact Finset.sum_le_card_nsmul _ _ _ (fun v hv => load_le_makespan hv)

section Equal

variable (hp : ∀ v ∈ S, ∀ j < n, d v j = p j)

include hp

/-- On equal machines what they can do at most does not depend on who does what. -/
theorem sum_le_card_nsmul_makespan_of_equal (hS : S.Nonempty) {a : ℕ → ι}
    (ha : ∀ j < n, a j ∈ S) :
    ∑ j ∈ Finset.range n, p j ≤ S.card • makespan d a n S hS := by
  have hda : ∀ j ∈ Finset.range n, p j = d (a j) j := by
    intro j hj
    have hj := Finset.mem_range.mp hj
    exact (hp (a j) (ha j hj) j hj).symm
  rw [Finset.sum_congr rfl hda]
  exact sum_le_card_nsmul_makespan hS ha

theorem job_le_makespan_of_equal (hS : S.Nonempty) (hnonneg : ∀ j < n, 0 ≤ p j) {a : ℕ → ι}
    (ha : ∀ j < n, a j ∈ S) {j : ℕ} (hj : j < n) : p j ≤ makespan d a n S hS := by
  have hda : ∀ i < n, d (a i) i = p i := fun i hi => hp (a i) (ha i hi) i hi
  rw [← hda j hj]
  apply job_le_makespan hS ha _ hj
  intro i hi
  rw [hda i hi]
  exact hnonneg i hi

/-! ## What a greedy schedule achieves -/

/-- When job `j` starts, all machines have been busy, and only with jobs that
    came before it. -/
theorem Greedy.card_nsmul_start_le (h : Greedy d w S n) {j : ℕ} (hj : j < n) :
    S.card • start d w j ≤ ∑ i ∈ Finset.range j, p i := by
  calc S.card • start d w j ≤ ∑ v ∈ S, load d w j v :=
        Finset.card_nsmul_le_sum _ _ _ (fun v hv => h.least j hj v hv)
    _ = ∑ i ∈ Finset.range j, d (w i) i := sum_load d w (fun i hi => h.mem i (hi.trans hj))
    _ = ∑ i ∈ Finset.range j, p i := by
        apply Finset.sum_congr rfl
        intro i hi
        have hi := (Finset.mem_range.mp hi).trans hj
        exact hp (w i) (h.mem i hi) i hi

/-- Graham's bound on the finish time of a job. -/
theorem Greedy.card_nsmul_finish_le (h : Greedy d w S n) (hnonneg : ∀ j < n, 0 ≤ p j) {j : ℕ}
    (hj : j < n) :
    S.card • finish d w j ≤ (∑ i ∈ Finset.range n, p i) + (S.card - 1) • p j := by
  obtain ⟨m, hm⟩ : ∃ m, S.card = m + 1 :=
    Nat.exists_eq_succ_of_ne_zero (Finset.card_ne_zero_of_mem (h.mem j hj))
  have hstart := h.card_nsmul_start_le hp hj
  have hprefix : ∑ i ∈ Finset.range j, p i + p j ≤ ∑ i ∈ Finset.range n, p i := by
    rw [← Finset.sum_range_succ]
    refine Finset.sum_le_sum_of_subset_of_nonneg (Finset.range_subset_range.mpr hj) ?_
    intro i hi _
    exact hnonneg i (Finset.mem_range.mp hi)
  have hfinish : finish d w j = start d w j + p j := by
    rw [finish, hp (w j) (h.mem j hj) j hj]
  rw [hm] at hstart ⊢
  calc (m + 1) • finish d w j = (m + 1) • start d w j + p j + m • p j := by
        rw [hfinish, nsmul_add, add_assoc, ← succ_nsmul' (p j) m]
    _ ≤ ∑ i ∈ Finset.range j, p i + p j + m • p j := by
        gcongr
    _ ≤ (∑ i ∈ Finset.range n, p i) + (m + 1 - 1) • p j := by
        rw [Nat.add_sub_cancel]
        gcongr

/-- Graham's bound against any other schedule `a` of the same jobs. -/
theorem Greedy.card_nsmul_finish_le_makespan (h : Greedy d w S n) (hnonneg : ∀ j < n, 0 ≤ p j)
    {a : ℕ → ι} (ha : ∀ j < n, a j ∈ S) (hS : S.Nonempty) {j : ℕ} (hj : j < n) :
    S.card • finish d w j ≤ (2 * S.card - 1) • makespan d a n S hS := by
  have hsum := sum_le_card_nsmul_makespan_of_equal hp hS ha
  have hjob := job_le_makespan_of_equal hp hS hnonneg ha hj
  have hcard : 1 ≤ S.card := hS.card_pos
  calc S.card • finish d w j ≤ (∑ i ∈ Finset.range n, p i) + (S.card - 1) • p j :=
        h.card_nsmul_finish_le hp hnonneg hj
    _ ≤ S.card • makespan d a n S hS + (S.card - 1) • makespan d a n S hS := by
        gcongr
    _ = (2 * S.card - 1) • makespan d a n S hS := by
        rw [← add_nsmul]
        congr 1
        omega

end Equal

end ListScheduling
