-- SUMMARY: On equal machines the shortest jobs first give the least total completion time.
import Mathlib.Algebra.Order.BigOperators.Group.List
import Mathlib.Data.List.Sort
import Smpp.Base.StdAlgorithms
import Smpp.Scheduling.Load

/-!
# Total completion time

A job delays itself and every job its machine gets after it, so the total completion
time of a schedule counts each job once for each of these. No count can be small for
too many jobs: every machine has one job that is its last, one that is its last but
one, and so on. The least total therefore counts the longest jobs least, and a greedy
schedule of the jobs in increasing order attains it.
-/

namespace ListScheduling

open Finset

variable {ι κ α : Type*} [DecidableEq ι] [DecidableEq κ]

/-! ## What a job delays -/

/-- How many of the first `n` jobs job `j` delays: those from `j` on that go to the
    same machine, job `j` itself included. -/
def delayed (w : ℕ → ι) (n j : ℕ) : ℕ := #{k ∈ range n | j ≤ k ∧ w k = w j}

section Delayed

variable {w : ℕ → ι} {n : ℕ}

/-- Of two jobs of one machine the earlier one delays more. -/
theorem delayed_lt {i j : ℕ} (hij : i < j) (hj : j < n) (hw : w i = w j) :
    delayed w n j < delayed w n i := by
  apply card_lt_card
  refine ⟨fun k hk => ?_, fun hsub => ?_⟩
  · obtain ⟨hkn, hjk, hkj⟩ := mem_filter.mp hk
    exact mem_filter.mpr ⟨hkn, hij.le.trans hjk, hkj.trans hw.symm⟩
  · have hi : i ∈ {k ∈ range n | i ≤ k ∧ w k = w i} :=
      mem_filter.mpr ⟨mem_range.mpr (hij.trans hj), le_rfl, rfl⟩
    exact absurd (mem_filter.mp (hsub hi)).2.1 (Nat.not_le.mpr hij)

theorem delayed_pos {j : ℕ} (hj : j < n) : 0 < delayed w n j :=
  card_pos.mpr ⟨j, mem_filter.mpr ⟨mem_range.mpr hj, le_rfl, rfl⟩⟩

/-- At most `t` jobs of a machine delay at most `t` jobs. -/
theorem card_delayed_le {S : Finset ι} (hw : ∀ j < n, w j ∈ S) (t : ℕ) :
    #{j ∈ range n | delayed w n j ≤ t} ≤ S.card * t := by
  have hcard : (S ×ˢ Icc 1 t).card = S.card * t := by
    rw [card_product, Nat.card_Icc, Nat.add_sub_cancel]
  rw [← hcard]
  apply card_le_card_of_injOn (fun j => (w j, delayed w n j))
  · intro j hj
    obtain ⟨hjn, hle⟩ := mem_filter.mp hj
    have hjn := mem_range.mp hjn
    exact mem_product.mpr ⟨hw j hjn, mem_Icc.mpr ⟨delayed_pos hjn, hle⟩⟩
  · intro i hi j hj heq
    obtain ⟨hwij, hdelayed⟩ := Prod.ext_iff.mp heq
    have hin := mem_range.mp (mem_filter.mp hi).1
    have hjn := mem_range.mp (mem_filter.mp hj).1
    rcases Nat.lt_trichotomy i j with hij | hij | hji
    · exact absurd hdelayed (delayed_lt hij hjn hwij).ne'
    · exact hij
    · exact absurd hdelayed (delayed_lt hji hin hwij.symm).ne

/-- A schedule is as long in total as its jobs, each counted once for every job it
    delays. -/
theorem sum_finish [AddCommMonoid α] {d : ι → ℕ → α} {p : ℕ → α} {S : Finset ι}
    (hw : ∀ j < n, w j ∈ S) (hd : ∀ v ∈ S, ∀ j < n, d v j = p j) :
    ∑ k ∈ range n, finish d w k = ∑ j ∈ range n, delayed w n j • p j := by
  have hfinish : ∀ k ∈ range n,
      finish d w k = ∑ j ∈ range n, if j ≤ k ∧ w k = w j then p j else 0 := by
    intro k hk
    have hkn := mem_range.mp hk
    rw [← load_succ_self, load, ← sum_filter]
    have hjobs : {j ∈ range (k + 1) | w j = w k} = {j ∈ range n | j ≤ k ∧ w k = w j} := by
      ext j
      simp only [mem_filter, mem_range]
      constructor
      · rintro ⟨hjk, hwj⟩
        exact ⟨by omega, by omega, hwj.symm⟩
      · rintro ⟨hjn, hjk, hwj⟩
        exact ⟨by omega, hwj.symm⟩
    rw [hjobs]
    apply sum_congr rfl
    intro j hj
    obtain ⟨hjn, -, hwj⟩ := mem_filter.mp hj
    exact hd (w k) (hw k hkn) j (mem_range.mp hjn)
  rw [sum_congr rfl hfinish, sum_comm]
  apply sum_congr rfl
  intro j _
  rw [← sum_filter, sum_const, delayed]

end Delayed

/-! ## The least counts -/

/-- The least that `n` counts add up to, if each number up to `t` is the count of at
    most `m * t` jobs in all. -/
def leastDelays (m n : ℕ) : ℕ := ∑ i ∈ range n, (i / m + 1)

theorem leastDelays_succ (m n : ℕ) : leastDelays m (n + 1) = leastDelays m n + (n / m + 1) :=
  sum_range_succ _ _

/-- As many counts as this have a large one among them. -/
theorem exists_large_count {m : ℕ} {counts : List ℕ} {n : ℕ} (hlen : counts.length = n + 1)
    (hfew : ∀ t, counts.countP (· ≤ t) ≤ m * t) : ∃ c ∈ counts, n / m + 1 ≤ c := by
  by_contra hsmall
  push Not at hsmall
  have hall : counts.countP (· ≤ n / m) = n + 1 := by
    rw [← hlen, List.countP_eq_length]
    intro c hc
    simpa using Nat.le_of_lt_succ (hsmall c hc)
  have hle := hfew (n / m)
  have hdiv := Nat.mul_div_le n m
  omega

theorem leastDelays_le_sum {m : ℕ} {counts : List ℕ}
    (hfew : ∀ t, counts.countP (· ≤ t) ≤ m * t) : leastDelays m counts.length ≤ counts.sum := by
  generalize hlen : counts.length = n
  induction n generalizing counts with
  | zero => exact Nat.zero_le _
  | succ n ih =>
    obtain ⟨c, hc, hlarge⟩ := exists_large_count hlen hfew
    have hperm := List.perm_cons_erase hc
    have hfew' : ∀ t, (counts.erase c).countP (· ≤ t) ≤ m * t := by
      intro t
      exact ((List.erase_sublist).countP_le).trans (hfew t)
    have hlen' : (counts.erase c).length = n := by
      rw [List.length_erase_of_mem hc, hlen, Nat.add_sub_cancel]
    have hrest := ih hfew' hlen'
    rw [leastDelays_succ, hperm.sum_eq, List.sum_cons, add_comm c]
    exact Nat.add_le_add hrest hlarge

section Weights

variable [AddCommMonoid α]

/-- The total of jobs in this order when each has the least count that the number of
    jobs behind it allows. -/
def leastTotal (m : ℕ) : List α → α
  | [] => 0
  | p :: rest => (rest.length / m + 1) • p + leastTotal m rest

/-- The total of increasing jobs that come with counts. What the counts have beyond the
    least is charged at the first, the smallest job. -/
theorem leastTotal_add_le [LinearOrder α] [IsOrderedAddMonoid α] (m : ℕ) {jobs : List (α × ℕ)}
    (hsorted : jobs.Pairwise (·.1 ≤ ·.1))
    (hfew : ∀ t, (jobs.map Prod.snd).countP (· ≤ t) ≤ m * t) (p : α)
    (hp : ∀ job ∈ jobs, p ≤ job.1) :
    leastTotal m (jobs.map Prod.fst) +
        ((jobs.map Prod.snd).sum - leastDelays m jobs.length) • p ≤
      (jobs.map fun job => job.2 • job.1).sum := by
  induction jobs generalizing p with
  | nil => simp [leastTotal]
  | cons job rest ih =>
    obtain ⟨hjob, hrest⟩ := List.pairwise_cons.mp hsorted
    have hfew' : ∀ t, (rest.map Prod.snd).countP (· ≤ t) ≤ m * t := by
      intro t
      exact ((List.sublist_cons_self job rest).map Prod.snd).countP_le.trans (hfew t)
    have hleast : leastDelays m rest.length ≤ (rest.map Prod.snd).sum := by
      simpa using leastDelays_le_sum hfew'
    have hleast' : leastDelays m (rest.length + 1) ≤ job.2 + (rest.map Prod.snd).sum := by
      simpa using leastDelays_le_sum hfew
    have hstep := ih hrest hfew' job.1 hjob
    have hpjob : p ≤ job.1 := hp job List.mem_cons_self
    simp only [List.map_cons, leastTotal, List.sum_cons, List.length_map, List.length_cons]
    rw [leastDelays_succ] at hleast' ⊢
    set excess := (rest.map Prod.snd).sum - leastDelays m rest.length with hexcess
    have hcounts : rest.length / m + 1 +
        (job.2 + (rest.map Prod.snd).sum - (leastDelays m rest.length + (rest.length / m + 1))) =
          job.2 + excess := by
      omega
    calc (rest.length / m + 1) • job.1 + leastTotal m (rest.map Prod.fst) +
          (job.2 + (rest.map Prod.snd).sum -
            (leastDelays m rest.length + (rest.length / m + 1))) • p
        ≤ (rest.length / m + 1) • job.1 + leastTotal m (rest.map Prod.fst) +
          (job.2 + (rest.map Prod.snd).sum -
            (leastDelays m rest.length + (rest.length / m + 1))) • job.1 := by
          gcongr
      _ = (job.2 + excess) • job.1 + leastTotal m (rest.map Prod.fst) := by
          rw [add_right_comm, ← add_nsmul, hcounts]
      _ = job.2 • job.1 + (leastTotal m (rest.map Prod.fst) + excess • job.1) := by
          rw [add_nsmul, add_assoc, add_comm (excess • job.1)]
      _ ≤ job.2 • job.1 + (rest.map fun job => job.2 • job.1).sum := by
          gcongr

/-- The least total, each job with its count. -/
theorem leastTotal_range (m n : ℕ) (p : ℕ → α) :
    leastTotal m ((List.range n).map p) = ∑ j ∈ range n, ((n - 1 - j) / m + 1) • p j := by
  induction n generalizing p with
  | zero => rfl
  | succ n ih =>
    have hrest : leastTotal m ((List.range n).map (p ∘ Nat.succ)) =
        ∑ j ∈ range n, ((n + 1 - 1 - (j + 1)) / m + 1) • p (j + 1) := by
      rw [ih]
      apply sum_congr rfl
      intro j _
      rw [Nat.add_sub_cancel, Nat.add_comm j 1, Nat.sub_sub, Nat.add_comm 1 j, Function.comp_apply]
    rw [List.range_succ_eq_map, List.map_cons, List.map_map, leastTotal, List.length_map,
      List.length_range, hrest, sum_range_succ', add_comm]
    rfl

/-- Job `k` and those that are a multiple of `m` before it: what one of `m` machines gets
    up to job `k` when the machines take turns. -/
def turns (m : ℕ) (p : ℕ → α) (k : ℕ) : α := ∑ j ∈ range (k + 1) with m ∣ k - j, p j

/-- The least total is the one of machines that take turns. -/
theorem leastTotal_eq_sum_turns (m n : ℕ) (p : ℕ → α) :
    leastTotal m ((List.range n).map p) = ∑ k ∈ range n, turns m p k := by
  induction n with
  | zero => rfl
  | succ n ih =>
    rw [leastTotal_range] at ih ⊢
    rw [sum_range_succ _ n, sum_range_succ (turns m p) n, ← ih, turns, sum_filter,
      sum_range_succ _ n, ← add_assoc, ← sum_add_distrib]
    congr 1
    · apply sum_congr rfl
      intro j hj
      have hsucc : n + 1 - 1 - j = n - 1 - j + 1 := by
        have := mem_range.mp hj
        omega
      have hdvd : m ∣ n - j ↔ m ∣ n - 1 - j + 1 := by
        rw [← hsucc, Nat.add_sub_cancel]
      rw [hsucc, Nat.succ_div]
      by_cases h : m ∣ n - 1 - j + 1
      · rw [if_pos h, if_pos (hdvd.mpr h), add_right_comm, succ_nsmul]
      · rw [if_neg h, if_neg (fun h' => h (hdvd.mp h')), add_zero, add_zero]
    · rw [Nat.add_sub_cancel, Nat.sub_self, Nat.zero_div, zero_add, one_nsmul,
        if_pos (dvd_zero m)]

theorem turns_of_lt {m k : ℕ} (hk : k < m) (p : ℕ → α) : turns m p k = p k := by
  have hjobs : {j ∈ range (k + 1) | m ∣ k - j} = {k} := by
    ext j
    simp only [mem_filter, mem_range, mem_singleton]
    constructor
    · rintro ⟨hj, hdvd⟩
      have hzero := Nat.eq_zero_of_dvd_of_lt hdvd ((Nat.sub_le k j).trans_lt hk)
      omega
    · rintro rfl
      exact ⟨Nat.lt_succ_self j, by simp⟩
  rw [turns, hjobs, sum_singleton]

theorem turns_of_ge {m k : ℕ} (hm : 0 < m) (hk : m ≤ k) (p : ℕ → α) :
    turns m p k = turns m p (k - m) + p k := by
  have hjobs : {j ∈ range (k + 1) | m ∣ k - j} =
      insert k {j ∈ range (k - m + 1) | m ∣ k - m - j} := by
    ext j
    simp only [mem_filter, mem_range, mem_insert]
    constructor
    · rintro ⟨hj, hdvd⟩
      rcases Nat.lt_succ_iff_lt_or_eq.mp hj with hlt | rfl
      · have hle := Nat.le_of_dvd (Nat.sub_pos_of_lt hlt) hdvd
        refine .inr ⟨by omega, ?_⟩
        rw [Nat.sub_right_comm]
        exact Nat.dvd_sub hdvd dvd_rfl
      · exact .inl rfl
    · rintro (rfl | ⟨hj, hdvd⟩)
      · exact ⟨Nat.lt_succ_self j, by simp⟩
      · refine ⟨by omega, ?_⟩
        have hsum : k - j = k - m - j + m := by omega
        rw [hsum]
        exact Nat.dvd_add hdvd dvd_rfl
  have hnew : k ∉ {j ∈ range (k - m + 1) | m ∣ k - m - j} := by
    rw [mem_filter, mem_range]
    omega
  rw [turns, hjobs, sum_insert hnew, add_comm, turns]

end Weights

/-! ## Machines left out -/

section LeftOut

variable {w : ℕ → ι} {S : Finset ι}

variable (w) in
/-- Fewer jobs in a row than there are machines leave one out. -/
theorem exists_left_out {j k : ℕ} (hjk : k - j < S.card) :
    ∃ v ∈ S, ∀ i, j ≤ i → i < k → w i ≠ v := by
  have hcard : ((Ico j k).image w).card < S.card := by
    apply card_image_le.trans_lt
    rwa [Nat.card_Ico]
  obtain ⟨v, hv, hnone⟩ := exists_mem_notMem_of_card_lt_card hcard
  refine ⟨v, hv, fun i hji hik heq => hnone ?_⟩
  exact mem_image.mpr ⟨i, mem_Ico.mpr ⟨hji, hik⟩, heq⟩

theorem load_eq_of_left_out [AddCommMonoid α] {d : ι → ℕ → α} {j k : ℕ} (hjk : j ≤ k) {v : ι}
    (hnone : ∀ i, j ≤ i → i < k → w i ≠ v) :
    load d w k v = load d w j v := by
  induction k, hjk using Nat.le_induction with
  | base => rfl
  | succ k hjk ih =>
    rw [load_succ_of_ne d w (hnone k hjk k.lt_succ_self),
      ih (fun i hji hik => hnone i hji (hik.trans k.lt_succ_self))]

end LeftOut

/-! ## All schedules -/

section Schedules

variable [AddCommMonoid α] [LinearOrder α] [IsOrderedAddMonoid α] {d : ι → ℕ → α} {w : ℕ → ι}
  {S : Finset ι} {n : ℕ} {p : ℕ → α}

/-- No schedule on at most `m` machines is shorter in total. -/
theorem leastTotal_le_sum_finish {m : ℕ} (hcard : S.card ≤ m) (hw : ∀ j < n, w j ∈ S)
    (hd : ∀ v ∈ S, ∀ j < n, d v j = p j) (hnonneg : ∀ j < n, 0 ≤ p j) {jobs : List α}
    (hperm : jobs.Perm ((List.range n).map p)) (hsorted : jobs.Pairwise (· ≤ ·)) :
    leastTotal m jobs ≤ ∑ k ∈ range n, finish d w k := by
  -- the jobs of the schedule with their counts, in the order of the jobs
  let counted := (List.range n).map fun j => (p j, delayed w n j)
  let ordered := counted.insertionSort (·.1 ≤ ·.1)
  have hordered : ordered.Perm counted := List.perm_insertionSort _ counted
  have hincreasing : ordered.Pairwise (·.1 ≤ ·.1) := by
    have : Std.Total (fun a b : α × ℕ => a.1 ≤ b.1) := ⟨fun a b => le_total a.1 b.1⟩
    have : IsTrans (α × ℕ) (fun a b => a.1 ≤ b.1) := ⟨fun _ _ _ => le_trans⟩
    exact List.pairwise_insertionSort _ counted
  have hjobs : ordered.map Prod.fst = jobs := by
    have hfst : (counted.map Prod.fst).Perm jobs := by
      rw [List.map_map]
      exact hperm.symm
    apply List.Perm.eq_of_pairwise _ (List.pairwise_map.mpr hincreasing) hsorted
      ((hordered.map _).trans hfst)
    intro a b _ _ hab hba
    exact le_antisymm hab hba
  have hfew : ∀ t, (ordered.map Prod.snd).countP (· ≤ t) ≤ m * t := by
    intro t
    have hcount : (counted.map Prod.snd).countP (· ≤ t) = #{j ∈ range n | delayed w n j ≤ t} := by
      rw [List.map_map, List.countP_map, List.countP_eq_length_filter]
      rfl
    rw [(hordered.map _).countP_eq, hcount]
    exact (card_delayed_le hw t).trans (Nat.mul_le_mul_right t hcard)
  have hzero : ∀ job ∈ ordered, 0 ≤ job.1 := by
    intro job hjob
    obtain ⟨j, hj, rfl⟩ := List.mem_map.mp (hordered.mem_iff.mp hjob)
    exact hnonneg j (List.mem_range.mp hj)
  have hsum : (ordered.map fun job => job.2 • job.1).sum = ∑ j ∈ range n, delayed w n j • p j := by
    rw [(hordered.map _).sum_eq, List.map_map]
    rfl
  calc leastTotal m jobs
      = leastTotal m (ordered.map Prod.fst) +
          ((ordered.map Prod.snd).sum - leastDelays m ordered.length) • (0 : α) := by
        rw [hjobs, nsmul_zero, add_zero]
    _ ≤ (ordered.map fun job => job.2 • job.1).sum := leastTotal_add_le m hincreasing hfew 0 hzero
    _ = ∑ k ∈ range n, finish d w k := by rw [hsum, sum_finish hw hd]

section Greedy

variable (hp : ∀ v ∈ S, ∀ j < n, d v j = p j) (hnonneg : ∀ j < n, 0 ≤ p j)
  (hmono : ∀ i k, i ≤ k → k < n → p i ≤ p k)

include hp hnonneg hmono

/-- Increasing jobs end in the order they are handed out. -/
theorem Greedy.finish_mono (h : Greedy d w S n) {i k : ℕ} (hik : i ≤ k) (hk : k < n) :
    finish d w i ≤ finish d w k := by
  have hi : i < n := hik.trans_lt hk
  have hd : ∀ j < n, 0 ≤ d (w j) j := by
    intro j hj
    rw [hp _ (h.mem j hj) j hj]
    exact hnonneg j hj
  unfold finish
  rw [hp _ (h.mem i hi) i hi, hp _ (h.mem k hk) k hk]
  exact add_le_add (h.start_mono hd hik hk) (hmono i k hik hk)

/-- With increasing jobs the machines take turns. -/
theorem Greedy.finish_le_turns (h : Greedy d w S n) {k : ℕ} (hk : k < n) :
    finish d w k ≤ turns S.card p k := by
  have hm : 0 < S.card := card_pos.mpr ⟨_, h.mem k hk⟩
  induction k using Nat.strong_induction_on with
  | _ k ih =>
    have hjob : d (w k) k = p k := hp _ (h.mem k hk) k hk
    rcases Nat.lt_or_ge k S.card with hlt | hge
    · -- a machine that has not got anything yet
      obtain ⟨v, hv, hnone⟩ := exists_left_out w (j := 0) (by omega : k - 0 < S.card)
      have hstart : start d w k ≤ 0 := by
        rw [← load_zero d w v, ← load_eq_of_left_out k.zero_le hnone]
        exact h.least k hk v hv
      rw [turns_of_lt hlt, finish, hjob]
      exact add_le_of_nonpos_left hstart
    · -- a machine that has got nothing after job `k - m`
      obtain ⟨v, hv, hnone⟩ := exists_left_out w (j := k - S.card + 1) (k := k)
        (by omega : k - (k - S.card + 1) < S.card)
      have hback : k - S.card < n := by omega
      have hturns : finish d w (k - S.card) ≤ turns S.card p (k - S.card) :=
        ih _ (by omega) hback
      have hzero : 0 ≤ finish d w (k - S.card) := by
        have hd : ∀ j < k - S.card + 1, 0 ≤ d (w j) j := by
          intro j hj
          rw [hp _ (h.mem j (by omega)) j (by omega)]
          exact hnonneg j (by omega)
        rw [← load_succ_self]
        exact load_nonneg hd _
      have hstart : start d w k ≤ finish d w (k - S.card) := by
        apply (h.least k hk v hv).trans
        rw [load_eq_of_left_out (by omega : k - S.card + 1 ≤ k) hnone]
        apply load_le_of_finish_le hzero
        intro j hj
        exact h.finish_mono hp hnonneg hmono (Nat.lt_succ_iff.mp hj) hback
      rw [turns_of_ge hm hge, finish, hjob]
      exact add_le_add_left (hstart.trans hturns) _

/-- Shortest first: a greedy schedule of increasing jobs is no longer in total than any
    schedule of the same jobs, in whatever order, on as many machines. -/
theorem Greedy.sum_finish_le (h : Greedy d w S n) {d' : κ → ℕ → α} {w' : ℕ → κ} {S' : Finset κ}
    {p' : ℕ → α} (hcard : S'.card ≤ S.card) (hw' : ∀ j < n, w' j ∈ S')
    (hp' : ∀ v ∈ S', ∀ j < n, d' v j = p' j)
    (hperm : ((List.range n).map p').Perm ((List.range n).map p)) :
    ∑ k ∈ range n, finish d w k ≤ ∑ k ∈ range n, finish d' w' k := by
  have hsorted : ((List.range n).map p).Pairwise (· ≤ ·) := by
    apply List.pairwise_map.mpr
    apply List.pairwise_lt_range.imp_of_mem
    intro i k _ hk hik
    exact hmono i k hik.le (List.mem_range.mp hk)
  have hnonneg' : ∀ j < n, 0 ≤ p' j := by
    intro j hj
    have hmem : p' j ∈ (List.range n).map p :=
      hperm.mem_iff.mp (List.mem_map_of_mem (List.mem_range.mpr hj))
    obtain ⟨i, hi, heq⟩ := List.mem_map.mp hmem
    rw [← heq]
    exact hnonneg i (List.mem_range.mp hi)
  calc ∑ k ∈ range n, finish d w k ≤ ∑ k ∈ range n, turns S.card p k := by
        apply sum_le_sum
        intro k hk
        exact h.finish_le_turns hp hnonneg hmono (mem_range.mp hk)
    _ = leastTotal S.card ((List.range n).map p) := (leastTotal_eq_sum_turns _ n p).symm
    _ ≤ ∑ k ∈ range n, finish d' w' k :=
        leastTotal_le_sum_finish hcard hw' hp' hnonneg' hperm.symm hsorted

end Greedy

end Schedules

end ListScheduling
