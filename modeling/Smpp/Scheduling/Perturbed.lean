-- SUMMARY: Greedy schedules whose job lengths differ by a growing factor do not drift apart by more than this factor.
import Smpp.Scheduling.Dominance

/-!
# Perturbed schedules

Two greedy schedules of the same jobs need not use the same machines once job lengths
differ a little. Still, if no end of a job is off by more than its start is, times a
factor that may grow from job to job, then no start is off by more than the factor.
-/

namespace ListScheduling

variable {ι κ α : Type*} [DecidableEq ι] [DecidableEq κ] [LinearOrder α]

omit [DecidableEq ι] [DecidableEq κ] in
/-- Later on the left and earlier on the right. -/
theorem Dominated.mono {S : Finset ι} {L M : ι → α} {S' : Finset κ} {L' M' : κ → α}
    (h : Dominated S L S' L') (hM : ∀ v ∈ S, L v ≤ M v) (hM' : ∀ v ∈ S', M' v ≤ L' v) :
    Dominated S M S' M' := by
  intro x
  calc freeBy S M x ≤ freeBy S L x := by
        apply Finset.card_le_card
        intro v hv
        obtain ⟨hv, hx⟩ := Finset.mem_filter.mp hv
        exact Finset.mem_filter.mpr ⟨hv, (hM v hv).trans hx⟩
    _ ≤ freeBy S' L' x := h x
    _ ≤ freeBy S' M' x := by
        apply Finset.card_le_card
        intro v hv
        obtain ⟨hv, hx⟩ := Finset.mem_filter.mp hv
        exact Finset.mem_filter.mpr ⟨hv, (hM' v hv).trans hx⟩

section Scaled

variable [Semiring α] [IsOrderedRing α] {d : ι → ℕ → α} {w : ℕ → ι} {S : Finset ι}
  {d' : κ → ℕ → α} {w' : ℕ → κ} {S' : Finset κ} {n : ℕ} {c c' : ℕ → α}

/-- What the two schedules have to have in common: factors `c k` for the times of the
    first and `c' k` for those of the second that keep pace with the jobs. -/
structure Scaled (d : ι → ℕ → α) (w : ℕ → ι) (d' : κ → ℕ → α) (w' : ℕ → κ) (n : ℕ) (c c' : ℕ → α) :
    Prop where
  nonneg : ∀ k < n, 0 ≤ d (w k) k
  nonneg' : ∀ k < n, 0 ≤ d' (w' k) k
  factor_nonneg : ∀ k, 0 ≤ c k
  factor_nonneg' : ∀ k, 0 ≤ c' k
  monotone : Monotone c
  antitone : Antitone c'
  /-- A job that starts in time ends in time. -/
  finish_le : ∀ k < n, c' k * start d' w' k ≤ c k * start d w k →
    c' (k + 1) * finish d' w' k ≤ c (k + 1) * finish d w k

variable (h : Greedy d w S n) (h' : Greedy d' w' S' n) (hs : Scaled d w d' w' n c c')
  (hcard : S.card ≤ S'.card)

include h h' hs hcard

theorem Scaled.dominated : ∀ k ≤ n,
    Dominated S (fun v => c k * load d w k v) S' (fun v => c' k * load d' w' k v) := by
  intro k
  induction k with
  | zero =>
    intro _
    simp only [load_zero, mul_zero]
    exact .of_const (fun _ => rfl) (fun _ => rfl) hcard
  | succ k ih =>
    intro hk
    have hkn : k < n := hk
    have hdom := ih hkn.le
    have hmem := h.mem k hkn
    have hmem' := h'.mem k hkn
    have hload : ∀ v, 0 ≤ load d w k v := load_nonneg (fun j hj => hs.nonneg j (hj.trans hkn))
    have hload' : ∀ v, 0 ≤ load d' w' k v := load_nonneg (fun j hj => hs.nonneg' j (hj.trans hkn))
    have hstart : c' k * start d' w' k ≤ c k * start d w k :=
      hdom.le_of_least hmem (fun u hu =>
        mul_le_mul_of_nonneg_left (h'.least k hkn u hu) (hs.factor_nonneg' k))
    -- the factors of the next job can only help
    have hnext : Dominated S (fun v => c (k + 1) * load d w k v) S'
        (fun v => c' (k + 1) * load d' w' k v) :=
      hdom.mono
        (fun v _ => mul_le_mul_of_nonneg_right (hs.monotone (Nat.le_succ k)) (hload v))
        (fun v _ => mul_le_mul_of_nonneg_right (hs.antitone (Nat.le_succ k)) (hload' v))
    refine hnext.step_both hmem ?_ ?_ ?_ hmem' ?_ ?_
    · intro u hu
      exact mul_le_mul_of_nonneg_left (h.least k hkn u hu) (hs.factor_nonneg _)
    · intro u hu
      rw [load_succ_of_ne d w hu.symm]
    · rw [load_succ_self]
      exact mul_le_mul_of_nonneg_left (le_add_of_nonneg_right (hs.nonneg k hkn))
        (hs.factor_nonneg _)
    · intro u hu
      rw [load_succ_of_ne d' w' hu.symm]
    · rw [load_succ_self, load_succ_self]
      exact hs.finish_le k hkn hstart

/-- The factor bounds all starts … -/
theorem Scaled.start_le {k : ℕ} (hk : k < n) : c' k * start d' w' k ≤ c k * start d w k :=
  (hs.dominated h h' hcard k hk.le).le_of_least (h.mem k hk) (fun u hu =>
    mul_le_mul_of_nonneg_left (h'.least k hk u hu) (hs.factor_nonneg' k))

/-- … and with the next factor the ends. -/
theorem Scaled.finish_le_finish {k : ℕ} (hk : k < n) :
    c' (k + 1) * finish d' w' k ≤ c (k + 1) * finish d w k :=
  hs.finish_le k hk (hs.start_le h h' hcard hk)

end Scaled

end ListScheduling
