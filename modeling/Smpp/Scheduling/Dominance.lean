-- SUMMARY: Comparing two greedy schedules on equal machines: more machines, shorter jobs or fewer jobs start no job later.
import Mathlib.Algebra.BigOperators.Ring.Finset
import Mathlib.Data.Nat.Count
import Smpp.Scheduling.Load

/-!
# Dominance between schedules

Two greedy schedules on equal machines place their jobs on different machines,
so their loads cannot be compared machine by machine. What can be compared is
how many machines are free by a given time. One schedule dominates another when
it has at least as many free machines at every time, and handing a job out on
both sides keeps this.
-/

namespace ListScheduling

variable {ι κ α : Type*} [LinearOrder α]

/-- How many machines of `S` are free by time `x` when `L` gives the times at
    which they become free. -/
def freeBy (S : Finset ι) (L : ι → α) (x : α) : ℕ := (S.filter (L · ≤ x)).card

/-- At every time at least as many machines are free on the right. -/
def Dominated (S : Finset ι) (L : ι → α) (S' : Finset κ) (L' : κ → α) : Prop :=
  ∀ x, freeBy S L x ≤ freeBy S' L' x

variable {S : Finset ι} {L L₂ : ι → α} {S' : Finset κ} {L' L₂' : κ → α}

theorem freeBy_pos {x : α} : 0 < freeBy S L x ↔ ∃ v ∈ S, L v ≤ x := by
  unfold freeBy
  rw [Finset.card_pos]
  simp [Finset.Nonempty]

/-- The earliest free machine on the right is free no later than any machine on
    the left. -/
theorem Dominated.le_of_least (h : Dominated S L S' L') {v : ι} (hv : v ∈ S) {b : κ}
    (hb : ∀ u ∈ S', L' b ≤ L' u) : L' b ≤ L v := by
  have hpos : 0 < freeBy S' L' (L v) := (freeBy_pos.mpr ⟨v, hv, le_rfl⟩).trans_le (h (L v))
  obtain ⟨u, hu, hle⟩ := freeBy_pos.mp hpos
  exact (hb u hu).trans hle

/-- Changing the time of one machine moves only that machine. -/
theorem freeBy_change [DecidableEq ι] {v : ι} (hv : v ∈ S) (hother : ∀ u, u ≠ v → L₂ u = L u)
    (x : α) :
    freeBy S L₂ x + (if L v ≤ x then 1 else 0) = freeBy S L x + (if L₂ v ≤ x then 1 else 0) := by
  have hrest : ∑ u ∈ S.erase v, (if L₂ u ≤ x then 1 else 0)
      = ∑ u ∈ S.erase v, (if L u ≤ x then 1 else 0) := by
    apply Finset.sum_congr rfl
    intro u hu
    rw [hother u (Finset.ne_of_mem_erase hu)]
  unfold freeBy
  rw [Finset.card_filter, Finset.card_filter, ← Finset.add_sum_erase S _ hv,
    ← Finset.add_sum_erase S _ hv, hrest]
  omega

/-- A job on the left only delays machines there. -/
theorem Dominated.step_left [DecidableEq ι] (h : Dominated S L S' L') {v : ι} (hv : v ∈ S)
    (hother : ∀ u, u ≠ v → L₂ u = L u) (hle : L v ≤ L₂ v) : Dominated S L₂ S' L' := by
  intro x
  have hchange := freeBy_change hv hother x
  have hx := h x
  by_cases h₂ : L₂ v ≤ x
  · have h₁ : L v ≤ x := hle.trans h₂
    simp only [h₁, h₂, if_true] at hchange
    omega
  · simp only [h₂, if_false] at hchange
    omega

/-- A job handed out on both sides to an earliest free machine keeps dominance
    when it ends no later on the right. -/
theorem Dominated.step_both [DecidableEq ι] [DecidableEq κ] (h : Dominated S L S' L') {v : ι}
    (hv : v ∈ S) (hleast : ∀ u ∈ S, L v ≤ L u) (hother : ∀ u, u ≠ v → L₂ u = L u) (hle : L v ≤ L₂ v)
    {b : κ} (hb : b ∈ S') (hother' : ∀ u, u ≠ b → L₂' u = L' u) (hend : L₂' b ≤ L₂ v) :
    Dominated S L₂ S' L₂' := by
  intro x
  have hchange := freeBy_change hv hother x
  have hchange' := freeBy_change hb hother' x
  have hx := h x
  by_cases hxv : L v ≤ x
  · -- the machine of the left side was free by `x`, so were as many on the right
    by_cases h₂ : L₂ v ≤ x
    · have h₂' : L₂' b ≤ x := hend.trans h₂
      simp only [hxv, h₂, h₂', if_true] at hchange hchange'
      split at hchange' <;> omega
    · simp only [hxv, h₂, if_true, if_false] at hchange
      split at hchange' <;> split at hchange' <;> omega
  · -- before the earliest machine of the left side is free, none is
    have hnone : freeBy S L₂ x = 0 := by
      apply Nat.eq_zero_of_not_pos
      intro hpos
      obtain ⟨u, hu, hux⟩ := freeBy_pos.mp hpos
      have hLu : L u ≤ x := by
        by_cases huv : u = v
        · subst huv; exact hle.trans hux
        · rwa [← hother u huv]
      exact hxv ((hleast u hu).trans hLu)
    omega

/-- With at most as many machines on the left, all of them free, the right
    dominates. -/
theorem Dominated.of_const {t : α} (hL : ∀ v, L v = t) (hL' : ∀ v, L' v = t)
    (hcard : S.card ≤ S'.card) : Dominated S L S' L' := by
  intro x
  unfold freeBy
  by_cases ht : t ≤ x
  · simpa [hL, hL', ht] using hcard
  · simp [hL, ht]

section Greedy

variable [DecidableEq ι] [DecidableEq κ] [AddCommMonoid α] [IsOrderedAddMonoid α]
  {d : ι → ℕ → α} {w : ℕ → ι} {n : ℕ} {p : ℕ → α}
  {d' : κ → ℕ → α} {w' : ℕ → κ} {n' : ℕ} {p' : ℕ → α}
  {own : ℕ → Prop} [DecidablePred own]

/-- Of the first `n` jobs on the left those in `own` are, one by one, the jobs
    on the right, where they take no longer; the others are on the left only. -/
structure OwnJobs (own : ℕ → Prop) [DecidablePred own] (n : ℕ) (p : ℕ → α) (n' : ℕ) (p' : ℕ → α) :
    Prop where
  lt : ∀ i < n, own i → Nat.count own i < n'
  le : ∀ i < n, own i → p' (Nat.count own i) ≤ p i

variable (hd : ∀ v ∈ S, ∀ j < n, d v j = p j) (hd' : ∀ v ∈ S', ∀ j < n', d' v j = p' j)
  (hnonneg : ∀ j < n, 0 ≤ p j) (hcard : S.card ≤ S'.card) (hown : OwnJobs own n p n' p')

include hd hd' hnonneg hcard hown

/-- Throughout the left run, the right run is at least as far with the jobs they
    share. -/
theorem Greedy.dominated (h : Greedy d w S n) (h' : Greedy d' w' S' n') :
    ∀ i ≤ n, Dominated S (load d w i) S' (load d' w' (Nat.count own i)) := by
  intro i
  induction i with
  | zero =>
    intro _
    rw [Nat.count_zero]
    exact .of_const (load_zero d w) (load_zero d' w') hcard
  | succ i ih =>
    intro hi
    have hin : i < n := hi
    have hdom := ih hin.le
    have hmem := h.mem i hin
    have hother : ∀ u, u ≠ w i → load d w (i + 1) u = load d w i u :=
      fun u hu => load_succ_of_ne d w hu.symm
    have hfin : load d w (i + 1) (w i) = load d w i (w i) + p i := by
      rw [load_succ_self, finish, start, hd (w i) hmem i hin]
    have hle : load d w i (w i) ≤ load d w (i + 1) (w i) := by
      rw [hfin]
      exact le_add_of_nonneg_right (hnonneg i hin)
    rw [Nat.count_succ]
    by_cases ho : own i
    · rw [if_pos ho]
      have hcn := hown.lt i hin ho
      refine hdom.step_both hmem (h.least i hin) hother hle (h'.mem _ hcn)
        (fun u hu => load_succ_of_ne d' w' hu.symm) ?_
      rw [load_succ_self, finish, hfin, hd' _ (h'.mem _ hcn) _ hcn]
      exact add_le_add (hdom.le_of_least hmem (h'.least _ hcn)) (hown.le i hin ho)
    · rw [if_neg ho]
      exact hdom.step_left hmem hother hle

/-- A job both runs have starts no later on the right. -/
theorem Greedy.start_le (h : Greedy d w S n) (h' : Greedy d' w' S' n') {i : ℕ} (hi : i < n)
    (ho : own i) : start d' w' (Nat.count own i) ≤ start d w i :=
  (h.dominated hd hd' hnonneg hcard hown h' i hi.le).le_of_least (h.mem i hi)
    (h'.least _ (hown.lt i hi ho))

/-- … and is done no later. -/
theorem Greedy.finish_le (h : Greedy d w S n) (h' : Greedy d' w' S' n') {i : ℕ} (hi : i < n)
    (ho : own i) : finish d' w' (Nat.count own i) ≤ finish d w i := by
  have hcn := hown.lt i hi ho
  unfold finish
  rw [hd (w i) (h.mem i hi) i hi, hd' _ (h'.mem _ hcn) _ hcn]
  exact add_le_add (h.start_le hd hd' hnonneg hcard hown h' hi ho) (hown.le i hi ho)

end Greedy

/-! ## Jobs given as lists -/

section Lists

variable {β : Type*}

/-- Counting reaches every number below the total, at an index that counts. -/
theorem exists_count_eq {own : ℕ → Prop} [DecidablePred own] {n k : ℕ}
    (hk : k < Nat.count own n) : ∃ i < n, own i ∧ Nat.count own i = k := by
  induction n with
  | zero => simp at hk
  | succ n ih =>
    rw [Nat.count_succ] at hk
    rcases Nat.lt_or_ge k (Nat.count own n) with hlt | hge
    · obtain ⟨i, hi, ho, hcount⟩ := ih hlt
      exact ⟨i, hi.trans n.lt_succ_self, ho, hcount⟩
    · by_cases ho : own n
      · rw [if_pos ho] at hk
        exact ⟨n, n.lt_succ_self, ho, by omega⟩
      · rw [if_neg ho] at hk
        omega

theorem count_eq_countP (q : β → Bool) (l : List β) (i : ℕ) :
    Nat.count (fun k => (l[k]?).any q) i = (l.take i).countP q := by
  induction i with
  | zero => simp
  | succ i ih =>
    rw [Nat.count_succ, List.take_add_one, List.countP_append, ih]
    cases l[i]? <;> simp

/-- All of a list counted is the length of what a filter keeps. -/
theorem count_length (q : β → Bool) (l : List β) :
    Nat.count (fun k => (l[k]?).any q) l.length = (l.filter q).length := by
  rw [count_eq_countP, List.take_length, List.countP_eq_length_filter]

/-- An element that a filter keeps is found where the count says. -/
theorem getElem?_filter_count {q : β → Bool} {l : List β} {i : ℕ} {x : β} (hx : l[i]? = some x)
    (hq : q x = true) :
    (l.filter q)[Nat.count (fun k => (l[k]?).any q) i]? = some x := by
  obtain ⟨hi, hxi⟩ := List.getElem?_eq_some_iff.mp hx
  have hdrop : l.drop i = x :: l.drop (i + 1) := by rw [List.drop_eq_getElem_cons hi, hxi]
  have hsplit : l.filter q = (l.take i).filter q ++ x :: (l.drop (i + 1)).filter q := by
    rw [← List.filter_cons_of_pos hq, ← hdrop, ← List.filter_append, List.take_append_drop]
  rw [count_eq_countP, List.countP_eq_length_filter, hsplit,
    List.getElem?_append_right le_rfl, Nat.sub_self, List.getElem?_cons_zero]

/-- The jobs of a list that a filter keeps are the jobs of a second list, when
    they take the same times there. -/
theorem OwnJobs.of_filter [Zero α] {time : β → α} {q : β → Bool} {l l' : List β}
    (hsame : (l.filter q).map time = l'.map time) :
    OwnJobs (fun k => (l[k]?).any q) l.length (fun k => ((l[k]?).map time).getD 0)
      l'.length (fun k => ((l'[k]?).map time).getD 0) := by
  have hentry : ∀ i, (l[i]?).any q → ((l'[Nat.count (fun k => (l[k]?).any q) i]?).map time) =
      (l[i]?).map time := by
    intro i ho
    obtain ⟨x, hx, hq⟩ := (Option.any_eq_true _ _).mp ho
    rw [← List.getElem?_map, ← hsame, List.getElem?_map, getElem?_filter_count hx hq, hx]
  refine ⟨fun i hi ho => ?_, fun i _ ho => by rw [hentry i ho]⟩
  have hsome := hentry i ho
  rw [List.getElem?_eq_getElem hi] at hsome
  obtain ⟨y, hy, -⟩ := Option.map_eq_some_iff.mp hsome
  exact (List.getElem?_eq_some_iff.mp hy).1

end Lists

end ListScheduling
