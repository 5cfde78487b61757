-- SUMMARY: With more and longer jobs, handed out in order of their lengths, the schedule ends later.
import Mathlib.Order.Interval.Finset.Nat
import Smpp.Scheduling.Dominance

/-!
# More jobs

A second list of jobs has more jobs of at least every length. With both lists in order,
the jobs of the first are then matched with some of the second that are no shorter: the
last ones if lengths increase, the first ones if they decrease.
-/

namespace ListScheduling

variable {α : Type*} [LinearOrder α] {n n' : ℕ} {p p' : ℕ → α}

/-- For every length at least as many of the `n` jobs as of the `n'` others have it. -/
def MoreJobs (n' : ℕ) (p' : ℕ → α) (n : ℕ) (p : ℕ → α) : Prop :=
  ∀ x, Nat.count (x ≤ p' ·) n' ≤ Nat.count (x ≤ p ·) n

theorem MoreJobs.le (h : MoreJobs n' p' n p) : n' ≤ n := by
  rcases Nat.eq_zero_or_pos n' with rfl | hpos
  · exact Nat.zero_le n
  -- all jobs have the length of the shortest
  obtain ⟨j, hj, hmin⟩ := Finset.exists_min_image (Finset.range n') p'
    (Finset.nonempty_range_iff.mpr hpos.ne')
  have hall : Nat.count (p' j ≤ p' ·) n' = n' :=
    Nat.count_iff_forall.mpr (fun i hi => hmin i (Finset.mem_range.mpr hi))
  have hle := h (p' j)
  rw [hall] at hle
  exact hle.trans (Nat.count_le _)

/-! ## Counting in order -/

section Counting

variable {q : ℕ → Prop} [DecidablePred q] {A : Finset ℕ}

theorem card_le_count (hA : ∀ i ∈ A, i < n ∧ q i) : A.card ≤ Nat.count q n := by
  rw [Nat.count_eq_card_filter_range]
  apply Finset.card_le_card
  intro i hi
  exact Finset.mem_filter.mpr ⟨Finset.mem_range.mpr (hA i hi).1, (hA i hi).2⟩

theorem count_le_card (hA : ∀ i < n, q i → i ∈ A) : Nat.count q n ≤ A.card := by
  rw [Nat.count_eq_card_filter_range]
  apply Finset.card_le_card
  intro i hi
  obtain ⟨hin, hqi⟩ := Finset.mem_filter.mp hi
  exact hA i (Finset.mem_range.mp hin) hqi

/-- Counting from `m` on … -/
theorem count_ge (m i : ℕ) : Nat.count (m ≤ ·) i = i - m := by
  rw [← Nat.card_Ico]
  apply le_antisymm
  · apply count_le_card
    intro j hj hmj
    exact Finset.mem_Ico.mpr ⟨hmj, hj⟩
  · apply card_le_count
    intro j hj
    exact (Finset.mem_Ico.mp hj).symm

/-- … and up to `m`. -/
theorem count_lt (m i : ℕ) : Nat.count (· < m) i = min i m := by
  rw [← Finset.card_range (min i m)]
  apply le_antisymm
  · apply count_le_card
    intro j hj hjm
    exact Finset.mem_range.mpr (lt_min hj hjm)
  · apply card_le_count
    intro j hj
    exact lt_min_iff.mp (Finset.mem_range.mp hj)

end Counting

/-! ## Matching the jobs -/

/-- If the lengths increase, the last jobs of the longer list are no shorter. -/
theorem MoreJobs.le_of_mono (h : MoreJobs n' p' n p)
    (hmono : ∀ i k, i ≤ k → k < n → p i ≤ p k) (hmono' : ∀ i k, i ≤ k → k < n' → p' i ≤ p' k)
    {i : ℕ} (hi : i < n) (hlast : n - n' ≤ i) : p' (i - (n - n')) ≤ p i := by
  by_contra hlt
  have hlt := not_le.mp hlt
  have hmany : (Finset.Ico (i - (n - n')) n').card ≤ Nat.count (p' (i - (n - n')) ≤ p' ·) n' := by
    apply card_le_count
    intro j hj
    obtain ⟨hij, hjn⟩ := Finset.mem_Ico.mp hj
    exact ⟨hjn, hmono' _ j hij hjn⟩
  have hfew : Nat.count (p' (i - (n - n')) ≤ p ·) n ≤ (Finset.Ico (i + 1) n).card := by
    apply count_le_card
    intro j hj hle
    apply Finset.mem_Ico.mpr
    exact ⟨Nat.lt_of_not_le fun hji => (hle.trans (hmono j i hji hi)).not_gt hlt, hj⟩
  have hmore := h (p' (i - (n - n')))
  have hle := h.le
  rw [Nat.card_Ico] at hmany hfew
  omega

/-- If they decrease, the first ones are. -/
theorem MoreJobs.le_of_anti (h : MoreJobs n' p' n p)
    (hanti : ∀ i k, i ≤ k → k < n → p k ≤ p i) (hanti' : ∀ i k, i ≤ k → k < n' → p' k ≤ p' i)
    {i : ℕ} (hfirst : i < n') : p' i ≤ p i := by
  by_contra hlt
  have hlt := not_le.mp hlt
  have hmany : (Finset.range (i + 1)).card ≤ Nat.count (p' i ≤ p' ·) n' := by
    apply card_le_count
    intro j hj
    have hji := Nat.le_of_lt_succ (Finset.mem_range.mp hj)
    exact ⟨hji.trans_lt hfirst, hanti' j i hji hfirst⟩
  have hfew : Nat.count (p' i ≤ p ·) n ≤ (Finset.range i).card := by
    apply count_le_card
    intro j hj hle
    apply Finset.mem_range.mpr
    exact Nat.lt_of_not_le fun hij => (hle.trans (hanti i j hij hj)).not_gt hlt
  have hmore := h (p' i)
  rw [Finset.card_range] at hmany hfew
  omega

theorem MoreJobs.ownJobs_of_mono (h : MoreJobs n' p' n p)
    (hmono : ∀ i k, i ≤ k → k < n → p i ≤ p k) (hmono' : ∀ i k, i ≤ k → k < n' → p' i ≤ p' k) :
    OwnJobs (n - n' ≤ ·) n p n' p' := by
  have hle := h.le
  constructor
  · intro i hi hlast
    rw [count_ge]
    omega
  · intro i hi hlast
    rw [count_ge]
    exact h.le_of_mono hmono hmono' hi hlast

theorem MoreJobs.ownJobs_of_anti (h : MoreJobs n' p' n p)
    (hanti : ∀ i k, i ≤ k → k < n → p k ≤ p i) (hanti' : ∀ i k, i ≤ k → k < n' → p' k ≤ p' i) :
    OwnJobs (· < n') n p n' p' := by
  constructor
  · intro i _ hfirst
    rwa [count_lt, min_eq_left hfirst.le]
  · intro i _ hfirst
    rw [count_lt, min_eq_left hfirst.le]
    exact h.le_of_anti hanti hanti' hfirst

end ListScheduling
