-- SUMMARY: Greedy schedules on machines of different speeds: at most one job's time of their capacity is lost.
import Smpp.Scheduling.Load

/-!
# Balance

A machine gets its last job when no machine is free earlier. So it works on at most by
the length of this job after another machine has stopped, whatever the speeds are, and
the machines together leave at most one job's time of their capacity unused.
-/

namespace ListScheduling

variable {ι α : Type*} [DecidableEq ι]

section Order

variable [AddCommMonoid α] [PartialOrder α] [IsOrderedAddMonoid α] {d : ι → ℕ → α} {w : ℕ → ι}
  {S : Finset ι} {n : ℕ} {D : α}

/-- A job ends no later than any machine stops, but for its own length. -/
theorem Greedy.finish_le_load_add (h : Greedy d w S n) (hd : ∀ j < n, 0 ≤ d (w j) j) {j : ℕ}
    (hj : j < n) (hD : d (w j) j ≤ D) {v : ι} (hv : v ∈ S) :
    finish d w j ≤ load d w n v + D :=
  add_le_add (h.start_le_load hj hd hv) hD

end Order

section Capacity

variable [Semiring α] [PartialOrder α] [IsOrderedRing α] {d : ι → ℕ → α} {w : ℕ → ι}
  {S : Finset ι} {s : ι → α} {n : ℕ} {D : α}

/-- What the machines could do until a job ends, at speed `s v` each, is at most the work
    there is and what they could do in the time of this job. -/
theorem Greedy.sum_speed_mul_finish_le (h : Greedy d w S n) (hd : ∀ j < n, 0 ≤ d (w j) j)
    (hs : ∀ v ∈ S, 0 ≤ s v) {j : ℕ} (hj : j < n) (hD : d (w j) j ≤ D) :
    (∑ v ∈ S, s v) * finish d w j ≤
      ∑ i ∈ Finset.range n, s (w i) * d (w i) i + (∑ v ∈ S, s v) * D := by
  have hwork : ∑ v ∈ S, s v * load d w n v = ∑ i ∈ Finset.range n, s (w i) * d (w i) i := by
    rw [← sum_load (fun v i => s v * d v i) w h.mem]
    exact Finset.sum_congr rfl (fun v _ => Finset.mul_sum _ _ _)
  calc (∑ v ∈ S, s v) * finish d w j = ∑ v ∈ S, s v * finish d w j := Finset.sum_mul _ _ _
    _ ≤ ∑ v ∈ S, s v * (load d w n v + D) := by
        apply Finset.sum_le_sum
        intro v hv
        exact mul_le_mul_of_nonneg_left (h.finish_le_load_add hd hj hD hv) (hs v hv)
    _ = ∑ i ∈ Finset.range n, s (w i) * d (w i) i + (∑ v ∈ S, s v) * D := by
        rw [← hwork, Finset.sum_mul, ← Finset.sum_add_distrib]
        exact Finset.sum_congr rfl (fun v _ => mul_add _ _ _)

end Capacity

end ListScheduling
