-- SUMMARY: List scheduling on parallel machines: loads, start and finish times, and greedy schedules.
import Mathlib.Algebra.BigOperators.Fin
import Mathlib.Algebra.BigOperators.Ring.Finset
import Mathlib.Algebra.Order.BigOperators.Group.Finset
import Mathlib.Algebra.Order.Ring.Defs

/-!
# List scheduling

Jobs `0, 1, 2, …` are handed out in this order. Job `j` goes to machine `w j`,
where it takes `d (w j) j`, and starts as soon as the machine has done the jobs
it got before. A schedule is greedy when every job goes to a machine that is
free earliest.
-/

namespace ListScheduling

variable {ι α : Type*} [DecidableEq ι]

section Load

variable [AddCommMonoid α] (d : ι → ℕ → α) (w : ℕ → ι)

/-- The time machine `v` needs for those of the first `k` jobs that it got. -/
def load (k : ℕ) (v : ι) : α := ∑ j ∈ Finset.range k with w j = v, d v j

/-- Job `k` starts when its machine has done what it got before. -/
def start (k : ℕ) : α := load d w k (w k)

def finish (k : ℕ) : α := start d w k + d (w k) k

@[simp] theorem load_zero (v : ι) : load d w 0 v = 0 := by simp [load]

theorem load_succ (k : ℕ) (v : ι) :
    load d w (k + 1) v = load d w k v + if w k = v then d v k else 0 := by
  unfold load
  rw [Finset.range_add_one, Finset.filter_insert]
  split
  · rw [Finset.sum_insert (by simp), add_comm]
  · rw [add_zero]

theorem load_succ_self (k : ℕ) : load d w (k + 1) (w k) = finish d w k := by
  rw [load_succ, if_pos rfl]; rfl

theorem load_succ_of_ne {k : ℕ} {v : ι} (h : w k ≠ v) : load d w (k + 1) v = load d w k v := by
  rw [load_succ, if_neg h, add_zero]

/-- The load looks at the machines of the first `k` jobs only. -/
theorem load_congr {w w' : ℕ → ι} {k : ℕ} (h : ∀ j < k, w j = w' j) (v : ι) :
    load d w k v = load d w' k v := by
  unfold load
  congr 1
  apply Finset.filter_congr
  intro j hj
  rw [h j (Finset.mem_range.mp hj)]

theorem start_congr {w w' : ℕ → ι} {k : ℕ} (h : ∀ j ≤ k, w j = w' j) :
    start d w k = start d w' k := by
  rw [start, start, h k le_rfl, load_congr d (fun j hj => h j hj.le)]

/-- A machine that got nothing has no load; otherwise its load is the finish
    time of the last job it got. -/
theorem load_eq_finish (k : ℕ) (v : ι) :
    ((∀ j < k, w j ≠ v) ∧ load d w k v = 0) ∨ ∃ j < k, w j = v ∧ load d w k v = finish d w j := by
  induction k with
  | zero => exact .inl ⟨fun j hj => absurd hj (Nat.not_lt_zero j), load_zero d w v⟩
  | succ k ih =>
    by_cases hk : w k = v
    · subst hk
      exact .inr ⟨k, k.lt_succ_self, rfl, load_succ_self d w k⟩
    · rw [load_succ_of_ne d w hk]
      rcases ih with ⟨hnone, h0⟩ | ⟨j, hj, hjv, hfin⟩
      · refine .inl ⟨fun j hj => ?_, h0⟩
        rcases Nat.lt_succ_iff_lt_or_eq.mp hj with hj | rfl
        · exact hnone j hj
        · exact hk
      · exact .inr ⟨j, hj.trans k.lt_succ_self, hjv, hfin⟩

/-- The loads of all machines add up to the time all jobs take. -/
theorem sum_load {S : Finset ι} {k : ℕ} (hw : ∀ j < k, w j ∈ S) :
    ∑ v ∈ S, load d w k v = ∑ j ∈ Finset.range k, d (w j) j := by
  unfold load
  rw [← Finset.sum_fiberwise_of_maps_to (g := w) (t := S)
    (fun j hj => hw j (Finset.mem_range.mp hj))]
  refine Finset.sum_congr rfl (fun v _ => Finset.sum_congr rfl (fun j hj => ?_))
  rw [(Finset.mem_filter.mp hj).2]

end Load

section Order

variable [AddCommMonoid α] [PartialOrder α] [IsOrderedAddMonoid α] {d : ι → ℕ → α} {w : ℕ → ι}

theorem load_nonneg {k : ℕ} (hd : ∀ j < k, 0 ≤ d (w j) j) (v : ι) : 0 ≤ load d w k v := by
  apply Finset.sum_nonneg
  intro j hj
  obtain ⟨hjk, rfl⟩ := Finset.mem_filter.mp hj
  exact hd j (Finset.mem_range.mp hjk)

theorem load_mono {i k : ℕ} (hik : i ≤ k) (hd : ∀ j < k, 0 ≤ d (w j) j) (v : ι) :
    load d w i v ≤ load d w k v := by
  refine Finset.sum_le_sum_of_subset_of_nonneg ?_ (fun j hj _ => ?_)
  · exact Finset.filter_subset_filter _ (Finset.range_subset_range.mpr hik)
  · obtain ⟨hjk, rfl⟩ := Finset.mem_filter.mp hj
    exact hd j (Finset.mem_range.mp hjk)

/-- A machine is busy at least until the last of its jobs is done. -/
theorem finish_le_load {j k : ℕ} (hjk : j < k) (hd : ∀ i < k, 0 ≤ d (w i) i) :
    finish d w j ≤ load d w k (w j) := by
  rw [← load_succ_self]
  exact load_mono hjk hd (w j)

omit [IsOrderedAddMonoid α] in
/-- No machine is busy for longer than a bound on all finish times. -/
theorem load_le_of_finish_le {k : ℕ} {t : α} (ht : 0 ≤ t) (hfin : ∀ j < k, finish d w j ≤ t)
    (v : ι) : load d w k v ≤ t := by
  rcases load_eq_finish d w k v with ⟨-, h0⟩ | ⟨j, hj, -, hload⟩
  · rwa [h0]
  · rw [hload]
    exact hfin j hj

variable (d w) in
/-- Each of the first `n` jobs goes to a machine of `S` that is free earliest. -/
structure Greedy (S : Finset ι) (n : ℕ) : Prop where
  mem : ∀ k < n, w k ∈ S
  least : ∀ k < n, ∀ v ∈ S, start d w k ≤ load d w k v

/-- No machine is idle for good while a job waits to start. -/
theorem Greedy.start_le_load {S : Finset ι} {n k : ℕ} (h : Greedy d w S n) (hk : k < n)
    (hd : ∀ j < n, 0 ≤ d (w j) j) {v : ι} (hv : v ∈ S) : start d w k ≤ load d w n v :=
  (h.least k hk v hv).trans (load_mono hk.le hd v)

/-- A greedy schedule starts the jobs in the order they are handed out. -/
theorem Greedy.start_mono {S : Finset ι} {n i k : ℕ} (h : Greedy d w S n)
    (hd : ∀ j < n, 0 ≤ d (w j) j) (hik : i ≤ k) (hk : k < n) : start d w i ≤ start d w k :=
  calc start d w i ≤ load d w i (w k) := h.least i (hik.trans_lt hk) (w k) (h.mem k hk)
    _ ≤ start d w k := load_mono hik (fun j hj => hd j (hj.trans hk)) (w k)

end Order

section Capacity

variable [Semiring α] [PartialOrder α] [IsOrderedRing α] {d : ι → ℕ → α} {w : ℕ → ι}

/-- Machines that are done by time `t` have not done more work, at speed `s v`
    each, than they could do in this time without ever being idle. -/
theorem sum_speed_mul_le {S : Finset ι} {s : ι → α} (hs : ∀ v ∈ S, 0 ≤ s v) {k : ℕ}
    (hw : ∀ j < k, w j ∈ S) {t : α} (ht : 0 ≤ t) (hfin : ∀ j < k, finish d w j ≤ t) :
    ∑ j ∈ Finset.range k, s (w j) * d (w j) j ≤ (∑ v ∈ S, s v) * t := by
  calc ∑ j ∈ Finset.range k, s (w j) * d (w j) j
      = ∑ v ∈ S, load (fun v j => s v * d v j) w k v :=
        (sum_load (fun v j => s v * d v j) w hw).symm
    _ = ∑ v ∈ S, s v * load d w k v :=
        Finset.sum_congr rfl (fun v _ => (Finset.mul_sum _ _ _).symm)
    _ ≤ ∑ v ∈ S, s v * t := by
        apply Finset.sum_le_sum
        intro v hv
        exact mul_le_mul_of_nonneg_left (load_le_of_finish_le ht hfin v) (hs v hv)
    _ = (∑ v ∈ S, s v) * t := (Finset.sum_mul _ _ _).symm

end Capacity

/-- Summing by position is summing over the list. -/
theorem sum_range_getElem? [AddCommMonoid α] {β : Type*} (l : List β) (f : β → α) :
    ∑ k ∈ Finset.range l.length, ((l[k]?).map f).getD 0 = (l.map f).sum := by
  rw [Finset.sum_range, ← Fin.sum_univ_fun_getElem]
  apply Finset.sum_congr rfl
  intro k _
  simp

end ListScheduling
