-- SUMMARY: The bound for greedy schedules that hand out the longest jobs first.
import Mathlib.Combinatorics.Pigeonhole
import Smpp.Scheduling.Graham

/-!
# Longest processing time first

A greedy schedule on `m` equal machines that hands out longer jobs before shorter
ones ends within `(4 m - 1) / (3 m)` of any other schedule. A job that is short
compared to the other schedule gets there by Graham's bound. Before a long job there
are only long ones, of which no machine of the other schedule has more than two, and
then the greedy schedule pairs them up at least as well.
-/

namespace ListScheduling

variable {ι α : Type*} [DecidableEq ι] [AddCommGroup α] [LinearOrder α] [IsOrderedAddMonoid α]
  {d : ι → ℕ → α} {w a : ℕ → ι} {S : Finset ι} {n j : ℕ} {p : ℕ → α}

/-! ## Long jobs in any schedule -/

section Assignment

variable (hp : ∀ v ∈ S, ∀ j < n, d v j = p j) (hnonneg : ∀ j < n, 0 ≤ p j) (hS : S.Nonempty)

include hp hnonneg in
/-- The jobs one machine has got fit in the makespan. -/
theorem sum_le_makespan {v : ι} (hv : v ∈ S) {J : Finset ℕ} (hJ : ∀ i ∈ J, i < n ∧ a i = v) :
    ∑ i ∈ J, p i ≤ makespan d a n S hS := by
  have hsub : J ⊆ (Finset.range n).filter (a · = v) := by
    intro i hi
    exact Finset.mem_filter.mpr ⟨Finset.mem_range.mpr (hJ i hi).1, (hJ i hi).2⟩
  calc ∑ i ∈ J, p i = ∑ i ∈ J, d v i :=
        Finset.sum_congr rfl (fun i hi => (hp v hv i (hJ i hi).1).symm)
    _ ≤ load d a n v := by
        apply Finset.sum_le_sum_of_subset_of_nonneg hsub
        intro i hi _
        have hin : i < n := Finset.mem_range.mp (Finset.mem_filter.mp hi).1
        rw [hp v hv i hin]
        exact hnonneg i hin
    _ ≤ makespan d a n S hS := load_le_makespan hv

variable (hanti : ∀ i k, i ≤ k → k < n → p k ≤ p i) (hj : j < n)
  (hlong : makespan d a n S hS < 3 • p j)

include hp hnonneg hanti hj hlong in
/-- Of jobs longer than a third of the makespan no machine has more than two. -/
theorem card_le_two {v : ι} (hv : v ∈ S) {J : Finset ℕ} (hJ : ∀ i ∈ J, i ≤ j ∧ a i = v) :
    J.card ≤ 2 := by
  by_contra hmany
  have hthree : 3 ≤ J.card := Nat.lt_of_not_le hmany
  have hjob : 0 ≤ p j := hnonneg j hj
  have hle : 3 • p j ≤ makespan d a n S hS := by
    calc 3 • p j ≤ J.card • p j := nsmul_le_nsmul_left hjob hthree
      _ ≤ ∑ i ∈ J, p i := Finset.card_nsmul_le_sum _ _ _ (fun i hi => hanti i j (hJ i hi).1 hj)
      _ ≤ makespan d a n S hS :=
          sum_le_makespan hp hnonneg hS hv (fun i hi => ⟨(hJ i hi).1.trans_lt hj, (hJ i hi).2⟩)
  exact absurd hlong (not_lt.mpr hle)

include hp hnonneg hanti hj hlong in
/-- So there are at most twice as many as machines. -/
theorem card_le_two_mul {J : Finset ℕ} {T : Finset ι} (hT : T ⊆ S) (hJ : ∀ i ∈ J, i ≤ j ∧ a i ∈ T) :
    J.card ≤ 2 * T.card := by
  apply Finset.card_le_mul_card_image_of_maps_to (f := a) (fun i hi => (hJ i hi).2)
  intro v hv
  apply card_le_two hp hnonneg hS hanti hj hlong (hT hv)
  intro i hi
  obtain ⟨hiJ, hiv⟩ := Finset.mem_filter.mp hi
  exact ⟨(hJ i hiJ).1, hiv⟩

include hp hnonneg hanti hj hlong in
theorem succ_le_two_mul (ha : ∀ i < n, a i ∈ S) : j + 1 ≤ 2 * S.card := by
  have hcard := card_le_two_mul hp hnonneg hS hanti hj hlong (J := Finset.range (j + 1)) subset_rfl
    (fun i hi => by
      have hij : i ≤ j := Nat.lt_succ_iff.mp (Finset.mem_range.mp hi)
      exact ⟨hij, ha i (hij.trans_lt hj)⟩)
  rwa [Finset.card_range] at hcard

include hp hnonneg hanti hj hlong in
/-- With more long jobs than machines some machine has two of them, one of them
    among the longest `2 m - j`: alone on their machines, these would leave too
    few machines for the others. -/
theorem exists_pair (ha : ∀ i < n, a i ∈ S) (hmany : S.card ≤ j) :
    ∃ i k, i ≤ 2 * S.card - 1 - j ∧ k ≤ j ∧ i ≠ k ∧ a i = a k := by
  by_contra hnone
  have halone : ∀ i k, i ≤ 2 * S.card - 1 - j → k ≤ j → a i = a k → i = k := by
    intro i k hi hk heq
    by_contra hne
    exact hnone ⟨i, k, hi, hk, hne, heq⟩
  have htotal := succ_le_two_mul hp hnonneg hS hanti hj hlong ha
  -- the machines of the longest jobs, and the jobs on the other machines
  let t := 2 * S.card - 1 - j
  let T := (Finset.range (t + 1)).image a
  have htj : t ≤ j := by omega
  have hTS : T ⊆ S := by
    intro v hv
    obtain ⟨i, hi, rfl⟩ := Finset.mem_image.mp hv
    exact ha i (by have := Finset.mem_range.mp hi; omega)
  have hTcard : T.card = t + 1 := by
    rw [Finset.card_image_of_injOn, Finset.card_range]
    intro i hi k hk heq
    have hi' := Finset.mem_range.mp (Finset.mem_coe.mp hi)
    have hk' := Finset.mem_range.mp (Finset.mem_coe.mp hk)
    exact halone i k (by omega) (by omega) heq
  have hothers := card_le_two_mul hp hnonneg hS hanti hj hlong (J := Finset.Ioc t j)
    (T := S \ T) Finset.sdiff_subset (fun k hk => by
      obtain ⟨htk, hkj⟩ := Finset.mem_Ioc.mp hk
      refine ⟨hkj, Finset.mem_sdiff.mpr ⟨ha k (hkj.trans_lt hj), fun hmem => ?_⟩⟩
      obtain ⟨i, hi, heq⟩ := Finset.mem_image.mp hmem
      have hi' := Finset.mem_range.mp hi
      have hik := halone i k (by omega) hkj heq
      omega)
  rw [Nat.card_Ioc, Finset.card_sdiff_of_subset hTS, hTcard] at hothers
  omega

end Assignment

/-! ## Long jobs in the greedy schedule -/

section Greedy

variable (hp : ∀ v ∈ S, ∀ j < n, d v j = p j)

omit [IsOrderedAddMonoid α] in
/-- While there are machines without a job, jobs start at once. -/
theorem Greedy.start_nonpos (h : Greedy d w S n) {k : ℕ} (hk : k < n) (hfirst : k < S.card) :
    start d w k ≤ 0 := by
  have hcard : ((Finset.range k).image w).card < S.card := by
    have hle : ((Finset.range k).image w).card ≤ k := by
      simpa using Finset.card_image_le (s := Finset.range k) (f := w)
    exact hle.trans_lt hfirst
  obtain ⟨v, hv, hfree⟩ := Finset.exists_mem_notMem_of_card_lt_card hcard
  have hload : load d w k v = 0 := by
    rcases load_eq_finish d w k v with ⟨-, h0⟩ | ⟨j, hj, hjv, -⟩
    · exact h0
    · exact absurd (Finset.mem_image.mpr ⟨j, Finset.mem_range.mpr hj, hjv⟩) hfree
  rw [← hload]
  exact h.least k hk v hv

include hp in
/-- So the first jobs go to different machines, if they take any time. -/
theorem Greedy.ne_of_lt_card (h : Greedy d w S n) {i k : ℕ} (hpos : ∀ i < k, 0 < p i) (hik : i < k)
    (hk : k < n) (hfirst : k < S.card) : w i ≠ w k := by
  intro heq
  have hdi : ∀ l < k, d (w l) l = p l := fun l hl => hp _ (h.mem l (hl.trans hk)) l (hl.trans hk)
  have hnonneg : ∀ l < k, 0 ≤ d (w l) l := fun l hl => by
    rw [hdi l hl]
    exact (hpos l hl).le
  have hbusy : 0 < load d w k (w i) := by
    calc 0 < d (w i) i := by rw [hdi i hik]; exact hpos i hik
      _ ≤ finish d w i :=
          le_add_of_nonneg_left (load_nonneg (fun l hl => hnonneg l (hl.trans hik)) (w i))
      _ ≤ load d w k (w i) := finish_le_load hik hnonneg
  have hidle : load d w k (w i) ≤ 0 := by
    rw [heq]
    exact h.start_nonpos hk hfirst
  exact absurd hbusy (not_lt.mpr hidle)

include hp in
/-- In the second round of jobs some machine still has a single one, which is
    among the shortest of the first round. -/
theorem Greedy.start_le_job (h : Greedy d w S n) (hpos : ∀ i < j, 0 < p i)
    (hanti : ∀ i k, i ≤ k → k < n → p k ≤ p i) (hj : j < n) (hfirst : S.card ≤ j)
    (hsecond : j < 2 * S.card) : start d w j ≤ p (2 * S.card - 1 - j) := by
  let t := 2 * S.card - 1 - j
  have hinj : Set.InjOn w (Finset.Ico t S.card : Finset ℕ) := by
    intro i hi k hk heq
    have hi' := (Finset.mem_Ico.mp (Finset.mem_coe.mp hi)).2
    have hk' := (Finset.mem_Ico.mp (Finset.mem_coe.mp hk)).2
    rcases Nat.lt_trichotomy i k with hik | rfl | hki
    · exact absurd heq (h.ne_of_lt_card hp (fun l hl => hpos l (by omega)) hik (by omega) hk')
    · rfl
    · exact absurd heq.symm (h.ne_of_lt_card hp (fun l hl => hpos l (by omega)) hki (by omega) hi')
  -- fewer jobs of the second round than machines of these jobs
  have hcard : ((Finset.Ico S.card j).image w).card < ((Finset.Ico t S.card).image w).card := by
    have hle : ((Finset.Ico S.card j).image w).card ≤ j - S.card := by
      simpa using Finset.card_image_le (s := Finset.Ico S.card j) (f := w)
    rw [Finset.card_image_of_injOn hinj, Nat.card_Ico]
    omega
  obtain ⟨v, hv, hsingle⟩ := Finset.exists_mem_notMem_of_card_lt_card hcard
  obtain ⟨i, hi, rfl⟩ := Finset.mem_image.mp hv
  obtain ⟨hti, him⟩ := Finset.mem_Ico.mp hi
  have hin : i < n := by omega
  have hload : load d w j (w i) = p i := by
    have honly : (Finset.range j).filter (w · = w i) = {i} := by
      ext l
      simp only [Finset.mem_filter, Finset.mem_range, Finset.mem_singleton]
      constructor
      · rintro ⟨hlj, hlw⟩
        have hlm : l < S.card := by
          by_contra hge
          exact hsingle (Finset.mem_image.mpr
            ⟨l, Finset.mem_Ico.mpr ⟨Nat.not_lt.mp hge, hlj⟩, hlw⟩)
        rcases Nat.lt_trichotomy l i with hli | rfl | hil
        · exact absurd hlw (h.ne_of_lt_card hp (fun k hk => hpos k (by omega)) hli hin him)
        · rfl
        · exact absurd hlw.symm
            (h.ne_of_lt_card hp (fun k hk => hpos k (by omega)) hil (by omega) hlm)
      · rintro rfl
        exact ⟨by omega, rfl⟩
    rw [load, honly, Finset.sum_singleton]
    exact hp _ (h.mem i hin) i hin
  calc start d w j ≤ load d w j (w i) := h.least j hj (w i) (h.mem i hin)
    _ = p i := hload
    _ ≤ p t := hanti t i hti hin

end Greedy

/-! ## The bound -/

section Bound

variable (hp : ∀ v ∈ S, ∀ j < n, d v j = p j) (hnonneg : ∀ j < n, 0 ≤ p j) (hS : S.Nonempty)
  (hanti : ∀ i k, i ≤ k → k < n → p k ≤ p i) (ha : ∀ i < n, a i ∈ S) (hj : j < n)

include hp hnonneg hanti ha in
/-- A long job is done by the end of any other schedule. -/
theorem Greedy.finish_le_of_long (h : Greedy d w S n) (hj : j < n)
    (hlong : makespan d a n S hS < 3 • p j) : finish d w j ≤ makespan d a n S hS := by
  have hjob := job_le_makespan_of_equal hp hS hnonneg ha hj
  have hpj : 0 < p j := by
    by_contra hle
    have hthree : 3 • p j ≤ makespan d a n S hS :=
      (nsmul_nonpos (not_lt.mp hle) 3).trans ((hnonneg j hj).trans hjob)
    exact absurd hlong (not_lt.mpr hthree)
  have hpos : ∀ i < j, 0 < p i := fun i hi => hpj.trans_le (hanti i j hi.le hj)
  have hfinish : finish d w j = start d w j + p j := by
    rw [finish, hp (w j) (h.mem j hj) j hj]
  rw [hfinish]
  rcases Nat.lt_or_ge j S.card with hfirst | hfirst
  · calc start d w j + p j ≤ 0 + p j := by gcongr; exact h.start_nonpos hj hfirst
      _ = p j := zero_add _
      _ ≤ makespan d a n S hS := hjob
  · obtain ⟨i, k, hi, hk, hne, heq⟩ := exists_pair hp hnonneg hS hanti hj hlong ha hfirst
    have hsecond := succ_le_two_mul hp hnonneg hS hanti hj hlong ha
    have hin : i < n := by omega
    calc start d w j + p j ≤ p (2 * S.card - 1 - j) + p j := by
          gcongr
          exact h.start_le_job hp hpos hanti hj hfirst hsecond
      _ ≤ p i + p k := add_le_add (hanti i _ hi (by omega)) (hanti k j hk hj)
      _ = ∑ l ∈ {i, k}, p l := (Finset.sum_pair hne).symm
      _ ≤ makespan d a n S hS := by
          apply sum_le_makespan hp hnonneg hS (ha i hin)
          intro l hl
          rcases Finset.mem_insert.mp hl with rfl | hl
          · exact ⟨hin, rfl⟩
          · rw [Finset.mem_singleton.mp hl]
            exact ⟨hk.trans_lt hj, heq.symm⟩

include hp hnonneg hanti ha in
/-- The bound against any other schedule `a` of the same jobs. -/
theorem Greedy.card_nsmul_finish_le_of_anti (h : Greedy d w S n) (hj : j < n) :
    (3 * S.card) • finish d w j ≤ (4 * S.card - 1) • makespan d a n S hS := by
  have hcard : 1 ≤ S.card := hS.card_pos
  have hsum := sum_le_card_nsmul_makespan_of_equal hp hS ha
  have hjob := job_le_makespan_of_equal hp hS hnonneg ha hj
  have hspan : 0 ≤ makespan d a n S hS := (hnonneg j hj).trans hjob
  rcases lt_or_ge (makespan d a n S hS) (3 • p j) with hlong | hshort
  · calc (3 * S.card) • finish d w j ≤ (3 * S.card) • makespan d a n S hS :=
          nsmul_le_nsmul_right (h.finish_le_of_long hp hnonneg hS hanti ha hj hlong) _
      _ ≤ (4 * S.card - 1) • makespan d a n S hS := nsmul_le_nsmul_left hspan (by omega)
  · calc (3 * S.card) • finish d w j = 3 • S.card • finish d w j := mul_nsmul' _ _ _
      _ ≤ 3 • (S.card • makespan d a n S hS + (S.card - 1) • p j) := by
          apply nsmul_le_nsmul_right
          exact (h.card_nsmul_finish_le hp hnonneg hj).trans (by gcongr)
      _ = (3 * S.card) • makespan d a n S hS + (S.card - 1) • 3 • p j := by
          rw [nsmul_add, ← mul_nsmul', ← mul_nsmul', mul_nsmul (p j) 3]
      _ ≤ (3 * S.card) • makespan d a n S hS + (S.card - 1) • makespan d a n S hS := by
          gcongr
      _ = (4 * S.card - 1) • makespan d a n S hS := by
          rw [← add_nsmul]
          congr 1
          omega

end Bound

end ListScheduling
