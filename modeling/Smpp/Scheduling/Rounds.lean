-- SUMMARY: On equal machines a greedy schedule is determined up to who does what; equal jobs run in rounds.
import Mathlib.Data.Int.CardIntervalMod
import Smpp.Scheduling.Dominance

/-!
# Rounds

When several machines are free at the same time a greedy schedule may take any of them.
On equal machines this changes nothing in the times. So jobs of equal length start and
end as if they were handed out in turn, a round of jobs after the other.
-/

namespace ListScheduling

variable {ι κ α : Type*} [DecidableEq ι] [DecidableEq κ] [AddCommMonoid α] [LinearOrder α]
  [IsOrderedAddMonoid α]

/-! ## Choices do not matter -/

section Unique

variable {d : ι → ℕ → α} {w : ℕ → ι} {S : Finset ι} {d' : κ → ℕ → α} {w' : ℕ → κ} {S' : Finset κ}
  {n : ℕ} {p : ℕ → α}

omit [AddCommMonoid α] [IsOrderedAddMonoid α] in
/-- All jobs of one run are jobs of the other. -/
theorem OwnJobs.refl : OwnJobs (fun _ => True) n p n p := by
  constructor
  · intro i hi _
    rwa [Nat.count_true]
  · intro i _ _
    rw [Nat.count_true]

/-- Two greedy schedules of the same jobs on equally many equal machines start every
    job at the same time, … -/
theorem Greedy.start_unique (h : Greedy d w S n) (h' : Greedy d' w' S' n)
    (hd : ∀ v ∈ S, ∀ j < n, d v j = p j) (hd' : ∀ v ∈ S', ∀ j < n, d' v j = p j)
    (hnonneg : ∀ j < n, 0 ≤ p j) (hcard : S.card = S'.card) {j : ℕ} (hj : j < n) :
    start d w j = start d' w' j := by
  have hle := h.start_le hd hd' hnonneg hcard.le OwnJobs.refl h' hj trivial
  have hge := h'.start_le hd' hd hnonneg hcard.ge OwnJobs.refl h hj trivial
  rw [Nat.count_true] at hle hge
  exact le_antisymm hge hle

/-- … and so they end it at the same time. -/
theorem Greedy.finish_unique (h : Greedy d w S n) (h' : Greedy d' w' S' n)
    (hd : ∀ v ∈ S, ∀ j < n, d v j = p j) (hd' : ∀ v ∈ S', ∀ j < n, d' v j = p j)
    (hnonneg : ∀ j < n, 0 ≤ p j) (hcard : S.card = S'.card) {j : ℕ} (hj : j < n) :
    finish d w j = finish d' w' j := by
  rw [finish, finish, h.start_unique h' hd hd' hnonneg hcard hj, hd _ (h.mem j hj) j hj,
    hd' _ (h'.mem j hj) j hj]

end Unique

/-! ## Equal jobs -/

section EqualJobs

variable {d : ℕ → ℕ → α} {m n : ℕ} {p : α}

omit [LinearOrder α] [IsOrderedAddMonoid α] in
/-- With the jobs handed out in turn the loads differ by one job at most. -/
theorem load_roundRobin (hp : ∀ v < m, ∀ j < n, d v j = p) {k : ℕ} (hk : k ≤ n) {v : ℕ}
    (hv : v < m) :
    load d (· % m) k v = (k / m + if v < k % m then 1 else 0) • p := by
  have hm : 0 < m := Nat.zero_lt_of_lt hv
  have hcount : ((Finset.range k).filter fun j => j % m = v).card =
      k / m + if v < k % m then 1 else 0 := by
    have hcard := Nat.count_modEq_card k hm v
    rw [Nat.count_eq_card_filter_range, Nat.mod_eq_of_lt hv] at hcard
    rw [← hcard]
    simp only [Nat.ModEq, Nat.mod_eq_of_lt hv]
  rw [← hcount, ← Finset.sum_const]
  apply Finset.sum_congr rfl
  intro j hj
  exact hp v hv j ((Finset.mem_range.mp (Finset.mem_filter.mp hj).1).trans_le hk)

omit [LinearOrder α] [IsOrderedAddMonoid α] in
theorem start_roundRobin (hp : ∀ v < m, ∀ j < n, d v j = p) (hm : 0 < m) {k : ℕ} (hk : k < n) :
    start d (· % m) k = (k / m) • p := by
  rw [start, load_roundRobin hp hk.le (Nat.mod_lt k hm), if_neg (lt_irrefl _), add_zero]

theorem roundRobin_greedy (hp : ∀ v < m, ∀ j < n, d v j = p) (hm : 0 < m) (hnonneg : 0 ≤ p) :
    Greedy d (· % m) (Finset.range m) n := by
  constructor
  · intro k _
    exact Finset.mem_range.mpr (Nat.mod_lt k hm)
  · intro k hk v hv
    rw [start_roundRobin hp hm hk, load_roundRobin hp hk.le (Finset.mem_range.mp hv)]
    exact nsmul_le_nsmul_left hnonneg (Nat.le_add_right _ _)

/-- Jobs of equal length run in rounds. -/
theorem Greedy.start_eq_rounds {w : ℕ → ℕ} (h : Greedy d w (Finset.range m) n)
    (hp : ∀ v < m, ∀ j < n, d v j = p) (hnonneg : 0 ≤ p) {k : ℕ} (hk : k < n) :
    start d w k = (k / m) • p := by
  have hm : 0 < m := Nat.zero_lt_of_lt (Finset.mem_range.mp (h.mem k hk))
  have hd : ∀ v ∈ Finset.range m, ∀ j < n, d v j = p := fun v hv => hp v (Finset.mem_range.mp hv)
  rw [h.start_unique (roundRobin_greedy hp hm hnonneg) hd hd (fun _ _ => hnonneg) rfl hk,
    start_roundRobin hp hm hk]

/-- The last jobs of a round end when the next round would start. -/
theorem Greedy.finish_eq_rounds {w : ℕ → ℕ} (h : Greedy d w (Finset.range m) n)
    (hp : ∀ v < m, ∀ j < n, d v j = p) (hnonneg : 0 ≤ p) {k : ℕ} (hk : k < n) :
    finish d w k = (k / m + 1) • p := by
  rw [finish, h.start_eq_rounds hp hnonneg hk, hp _ (Finset.mem_range.mp (h.mem k hk)) k hk,
    succ_nsmul]

end EqualJobs

end ListScheduling
