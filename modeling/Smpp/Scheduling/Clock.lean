-- SUMMARY: Greedy schedules by the clock: which jobs run at a time, and that no machine idles while a job waits.
import Smpp.Scheduling.Load

/-!
# Schedules by the clock

At a time `t` a job waits, runs or is done. A machine works on its jobs without a break
from time 0 on, so it has a job running at every time before its load. In a greedy
schedule a job that waits has found all loads too long: then all machines run.
-/

namespace ListScheduling

open Finset

variable {ι α : Type*} [DecidableEq ι] [AddCommMonoid α] [LinearOrder α]

section Clock

variable (d : ι → ℕ → α) (w : ℕ → ι) (n : ℕ) (t : α)

/-- Of the first `n` jobs those that are not done by time `t`. -/
def unfinished : Finset ℕ := {k ∈ range n | t < finish d w k}

/-- … and those of them that have started. -/
def running : Finset ℕ := {k ∈ unfinished d w n t | start d w k ≤ t}

end Clock

variable {d : ι → ℕ → α} {w : ℕ → ι} {S : Finset ι} {n : ℕ} {t : α}

theorem mem_unfinished {k : ℕ} : k ∈ unfinished d w n t ↔ k < n ∧ t < finish d w k := by
  simp [unfinished]

theorem mem_running {k : ℕ} :
    k ∈ running d w n t ↔ k < n ∧ start d w k ≤ t ∧ t < finish d w k := by
  simp only [running, mem_filter, mem_unfinished]
  tauto

/-- Before its load is done a machine has a job running. -/
theorem exists_running_of_lt_load (ht : 0 ≤ t) {k : ℕ} {v : ι} (hload : t < load d w k v) :
    ∃ j < k, w j = v ∧ start d w j ≤ t ∧ t < finish d w j := by
  induction k with
  | zero =>
    rw [load_zero] at hload
    exact absurd ht (not_le.mpr hload)
  | succ k ih =>
    by_cases hlt : t < load d w k v
    · obtain ⟨j, hj, hrun⟩ := ih hlt
      exact ⟨j, hj.trans k.lt_succ_self, hrun⟩
    · by_cases hk : w k = v
      · subst hk
        rw [load_succ_self] at hload
        exact ⟨k, k.lt_succ_self, rfl, not_lt.mp hlt, hload⟩
      · rw [load_succ_of_ne d w hk] at hload
        exact absurd hload hlt

variable [IsOrderedAddMonoid α]

/-- A machine never runs two jobs at once. -/
theorem running_injOn (hd : ∀ j < n, 0 ≤ d (w j) j) :
    Set.InjOn w (running d w n t) := by
  have hbefore : ∀ i k, i < k → i ∈ running d w n t → k ∈ running d w n t → w i ≠ w k := by
    intro i k hik hi hk heq
    obtain ⟨-, -, hfinish⟩ := mem_running.mp hi
    obtain ⟨hkn, hstart, -⟩ := mem_running.mp hk
    have hle : finish d w i ≤ load d w k (w i) :=
      finish_le_load hik (fun j hj => hd j (hj.trans hkn))
    rw [heq] at hle
    exact absurd (hfinish.trans_le (hle.trans hstart)) (lt_irrefl t)
  intro i hi k hk heq
  rcases Nat.lt_trichotomy i k with hik | hik | hki
  · exact absurd heq (hbefore i k hik hi hk)
  · exact hik
  · exact absurd heq.symm (hbefore k i hki hk hi)

section Greedy

variable (hd : ∀ j < n, 0 ≤ d (w j) j)

include hd

/-- While a job waits every machine runs one. -/
theorem Greedy.exists_running (h : Greedy d w S n) (ht : 0 ≤ t) {k : ℕ} (hk : k < n)
    (hwait : t < start d w k) {v : ι} (hv : v ∈ S) : ∃ j ∈ running d w n t, w j = v := by
  obtain ⟨j, hj, hjv, hstart, hfinish⟩ :=
    exists_running_of_lt_load ht (hwait.trans_le (h.start_le_load hk hd hv))
  exact ⟨j, mem_running.mpr ⟨hj, hstart, hfinish⟩, hjv⟩

/-- As many machines run as there are, or as there are unfinished jobs. -/
theorem Greedy.card_running (h : Greedy d w S n) (ht : 0 ≤ t) :
    #(running d w n t) = min #S #(unfinished d w n t) := by
  have hsub : running d w n t ⊆ unfinished d w n t := filter_subset _ _
  have hle : #(running d w n t) ≤ #S := by
    apply card_le_card_of_injOn w _ (running_injOn hd)
    intro k hk
    exact h.mem k (mem_running.mp hk).1
  by_cases hwait : ∃ k < n, t < start d w k
  · -- nobody idles
    obtain ⟨k, hk, hstart⟩ := hwait
    have hall : S ⊆ (running d w n t).image w := by
      intro v hv
      obtain ⟨j, hj, hjv⟩ := h.exists_running hd ht hk hstart hv
      exact mem_image.mpr ⟨j, hj, hjv⟩
    have hge : #S ≤ #(running d w n t) := (card_le_card hall).trans card_image_le
    have hcard := card_le_card hsub
    omega
  · -- everything has started
    have hsame : running d w n t = unfinished d w n t := by
      apply hsub.antisymm
      intro k hk
      obtain ⟨hkn, hfinish⟩ := mem_unfinished.mp hk
      have hstart : start d w k ≤ t := by
        by_contra hlate
        exact hwait ⟨k, hkn, not_le.mp hlate⟩
      exact mem_running.mpr ⟨hkn, hstart, hfinish⟩
    rw [hsame] at hle ⊢
    exact (min_eq_right hle).symm

/-- Jobs that have started were handed out before those that wait. -/
theorem Greedy.lt_of_waiting (h : Greedy d w S n) {i k : ℕ} (hi : i < n)
    (hstarted : start d w i ≤ t) (hwait : t < start d w k) : i < k := by
  by_contra hge
  have hmono := h.start_mono hd (Nat.not_lt.mp hge) hi
  exact absurd (hwait.trans_le (hmono.trans hstarted)) (lt_irrefl t)

end Greedy

end ListScheduling
