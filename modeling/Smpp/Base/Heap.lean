-- SUMMARY: Binary heaps on a list: sift-up, sift-down, and the heap contracts of `push_heap` and `pop_heap`.
import Mathlib.Data.List.Basic
import Mathlib.Tactic.Common
import Smpp.Base.Comparator

/-!
# Binary heaps on a vector

The standard library keeps a heap in a random access range: the children of
position `i` are `2 * i + 1` and `2 * i + 2`, and no element goes after one of
its children in the order. `pushHeap` moves the last element up to its place,
`popHeap` moves the first element to the back and repairs the rest.

Both sifts work around a hole: a single position whose relation to its
neighbours is not known yet. `UpHole` and `DownHole` say what is known about all
the other pairs while the hole travels.
-/

namespace Heap

variable {α : Type*}

/-- The parent of a position. Position 0 is its own parent. -/
def parent (i : ℕ) : ℕ := (i - 1) / 2

theorem parent_lt {i : ℕ} (h : 0 < i) : parent i < i := by
  unfold parent; omega

theorem child_cases {i p : ℕ} (hi : 0 < i) (h : parent i = p) : i = 2 * p + 1 ∨ i = 2 * p + 2 := by
  unfold parent at h; omega

theorem parent_left (p : ℕ) : parent (2 * p + 1) = p := by
  unfold parent; omega

theorem parent_right (p : ℕ) : parent (2 * p + 2) = p := by
  unfold parent; omega

/-! ## The heap predicate -/

/-- The value at `p` may stay above the value at `c`. Positions outside the
    list are in order with everything. -/
def InOrder (cmp : Comparator α) (l : List α) (p c : ℕ) : Prop :=
  ∀ a b, l[p]? = some a → l[c]? = some b → cmp a b = false

/-- The list is a heap: every position is in order with its parent. -/
def IsHeap (cmp : Comparator α) (l : List α) : Prop :=
  ∀ i, 0 < i → InOrder cmp l (parent i) i

variable {cmp : Comparator α}

theorem InOrder.trans {l : List α} {p q c : ℕ} (hpq : InOrder cmp l p q) (hqc : InOrder cmp l q c)
    (hq : q < l.length) : InOrder cmp l p c := by
  intro a b ha hb
  exact cmp.negTrans (hpq a l[q] ha (List.getElem?_eq_getElem hq))
    (hqc l[q] b (List.getElem?_eq_getElem hq) hb)

theorem InOrder.refl {l : List α} (i : ℕ) : InOrder cmp l i i := by
  intro a b ha hb
  rw [ha] at hb
  cases hb
  exact cmp.irrefl a

/-- A prefix of a heap is a heap. -/
theorem IsHeap.dropLast {l : List α} (h : IsHeap cmp l) : IsHeap cmp l.dropLast := by
  intro i hi a b ha hb
  rw [List.getElem?_dropLast] at ha hb
  split at ha <;> split at hb <;> simp_all [h i hi a b]

/-- The root goes after nothing in the heap. -/
theorem IsHeap.root_inOrder {l : List α} (h : IsHeap cmp l) :
    ∀ i, i < l.length → InOrder cmp l 0 i := by
  intro i
  induction i using Nat.strongRecOn with
  | ind i ih =>
    intro hi
    rcases Nat.eq_zero_or_pos i with rfl | hpos
    · exact .refl 0
    · have hp : parent i < l.length := (parent_lt hpos).trans hi
      exact (ih (parent i) (parent_lt hpos) hp).trans (h i hpos) hp

theorem IsHeap.head_max {l : List α} {r : α} (h : IsHeap cmp l) (hr : l.head? = some r) :
    ∀ y ∈ l, cmp r y = false := by
  intro y hy
  obtain ⟨i, hi, rfl⟩ := List.mem_iff_getElem.mp hy
  exact h.root_inOrder i hi r l[i] (by rwa [← List.head?_eq_getElem?]) (List.getElem?_eq_getElem hi)

/-! ## Swapping two positions -/

/-- `std::iter_swap` on two positions of the vector. -/
def swap (l : List α) (i j : ℕ) : List α :=
  match l[i]?, l[j]? with
  | some a, some b => (l.set i b).set j a
  | _, _ => l

theorem swap_eq {l : List α} {i j : ℕ} (hi : i < l.length) (hj : j < l.length) :
    swap l i j = (l.set i l[j]).set j l[i] := by
  simp [swap, hi, hj]

theorem swap_perm (l : List α) (i j : ℕ) : (swap l i j).Perm l := by
  unfold swap
  split
  · rename_i a b ha hb
    obtain ⟨hi, rfl⟩ := List.getElem?_eq_some_iff.mp ha
    obtain ⟨hj, rfl⟩ := List.getElem?_eq_some_iff.mp hb
    exact List.set_set_perm hi hj
  · exact .refl l

@[simp] theorem length_swap (l : List α) (i j : ℕ) : (swap l i j).length = l.length :=
  (swap_perm l i j).length_eq

theorem swap_getElem?_left {l : List α} {i j : ℕ} (hi : i < l.length) (hj : j < l.length) :
    (swap l i j)[i]? = l[j]? := by
  rw [swap_eq hi hj]; grind

theorem swap_getElem?_right {l : List α} {i j : ℕ} (hi : i < l.length) (hj : j < l.length) :
    (swap l i j)[j]? = l[i]? := by
  rw [swap_eq hi hj]; grind

theorem swap_getElem?_of_ne {l : List α} {i j k : ℕ} (hki : k ≠ i) (hkj : k ≠ j) :
    (swap l i j)[k]? = l[k]? := by
  unfold swap
  split
  · rw [List.getElem?_set_ne hkj.symm, List.getElem?_set_ne hki.symm]
  · rfl

/-! ## Sift-up -/

/-- Move the value at `i` up while its parent goes after it. Each round halves
    the position, so `i` rounds are more than enough. -/
def siftUp (cmp : Comparator α) : ℕ → List α → ℕ → List α
  | 0, l, _ => l
  | fuel + 1, l, i =>
    match l[parent i]?, l[i]? with
    | some p, some x =>
      if 0 < i ∧ cmp p x = true then siftUp cmp fuel (swap l (parent i) i) (parent i) else l
    | _, _ => l

/-- `std::push_heap`: the last element of the range joins the heap before it. -/
def pushHeap (cmp : Comparator α) (l : List α) : List α :=
  siftUp cmp l.length l (l.length - 1)

/-- Only the pair of `hole` and its parent may be out of order, and the children
    of the hole are in order with the parent of the hole. -/
structure UpHole (cmp : Comparator α) (l : List α) (hole : ℕ) : Prop where
  lt : hole < l.length
  except : ∀ i, 0 < i → i ≠ hole → InOrder cmp l (parent i) i
  grand : 0 < hole → ∀ c, 0 < c → parent c = hole → InOrder cmp l (parent hole) c

theorem siftUp_perm (fuel : ℕ) (l : List α) (i : ℕ) : (siftUp cmp fuel l i).Perm l := by
  induction fuel generalizing l i with
  | zero => exact .refl l
  | succ fuel ih =>
    unfold siftUp
    split
    · split
      · exact (ih _ _).trans (swap_perm l _ _)
      · exact .refl l
    · exact .refl l

theorem UpHole.swap {l : List α} {hole : ℕ} {p x : α} (h : UpHole cmp l hole) (hpos : 0 < hole)
    (hp : l[parent hole]? = some p) (hx : l[hole]? = some x) (hlt : cmp p x = true) :
    UpHole cmp (swap l (parent hole) hole) (parent hole) := by
  have hph : parent hole < hole := parent_lt hpos
  have hpl : parent hole < l.length := hph.trans h.lt
  have hatp : (Heap.swap l (parent hole) hole)[parent hole]? = some x := by
    rw [swap_getElem?_left hpl h.lt, hx]
  have hath : (Heap.swap l (parent hole) hole)[hole]? = some p := by
    rw [swap_getElem?_right hpl h.lt, hp]
  constructor
  · simpa using hpl
  · intro i hi hip a b ha hb
    by_cases hih : i = hole
    · -- the pair that was just swapped
      subst hih
      rw [hatp] at ha; rw [hath] at hb
      cases ha; cases hb
      exact cmp.asymm hlt
    · rw [swap_getElem?_of_ne hip hih] at hb
      by_cases hpih : parent i = hole
      · -- a child of the old hole now sits below `p`
        rw [hpih, hath] at ha
        cases ha
        exact h.grand hpos i hi hpih p b hp hb
      · by_cases hpip : parent i = parent hole
        · -- the sibling of the old hole now sits below `x`
          rw [hpip, hatp] at ha
          cases ha
          have hpb : cmp p b = false := h.except i hi hih p b (by rw [hpip, hp]) hb
          by_contra hxb
          rw [cmp.trans hlt (by simpa using hxb)] at hpb
          cases hpb
        · rw [swap_getElem?_of_ne hpip hpih] at ha
          exact h.except i hi hih a b ha hb
  · intro hpp c hc hcp a b ha hb
    have hlt' : parent (parent hole) < parent hole := parent_lt hpp
    rw [swap_getElem?_of_ne (by omega) (by omega)] at ha
    have hap : cmp a p = false := h.except (parent hole) hpp (by omega) a p ha hp
    by_cases hch : c = hole
    · subst hch
      rw [hath] at hb
      cases hb
      exact hap
    · have hcp' : c ≠ parent hole := by have := parent_lt hc; omega
      rw [swap_getElem?_of_ne hcp' hch] at hb
      exact cmp.negTrans hap (h.except c hc hch p b (by rw [hcp, hp]) hb)

theorem UpHole.isHeap {l : List α} {hole : ℕ} (h : UpHole cmp l hole)
    (hstop : 0 < hole → InOrder cmp l (parent hole) hole) : IsHeap cmp l := by
  intro i hi
  by_cases hih : i = hole
  · subst hih; exact hstop hi
  · exact h.except i hi hih

theorem siftUp_isHeap (fuel : ℕ) {l : List α} {i : ℕ} (h : UpHole cmp l i) (hfuel : i ≤ fuel) :
    IsHeap cmp (siftUp cmp fuel l i) := by
  induction fuel generalizing l i with
  | zero => exact h.isHeap (fun hpos => by omega)
  | succ fuel ih =>
    unfold siftUp
    split
    · rename_i p x hp hx
      split
      · rename_i hc
        have hlt := parent_lt hc.1
        exact ih (h.swap hc.1 hp hx hc.2) (by omega)
      · rename_i hc
        apply h.isHeap
        intro hpos a b ha hb
        rw [hp] at ha; rw [hx] at hb
        cases ha; cases hb
        simpa [hpos] using hc
    · rename_i hnone
      refine h.isHeap (fun _ a b ha hb => (hnone a b ha hb).elim)

theorem pushHeap_perm (l : List α) : (pushHeap cmp l).Perm l := siftUp_perm _ _ _

/-- `push_heap` on a heap followed by one more element gives a heap. -/
theorem pushHeap_isHeap {l : List α} (x : α) (h : IsHeap cmp l) :
    IsHeap cmp (pushHeap cmp (l ++ [x])) := by
  have hlen : (l ++ [x]).length - 1 = l.length := by simp
  unfold pushHeap
  rw [hlen]
  refine siftUp_isHeap _ ⟨by simp, ?_, ?_⟩ (by simp)
  · intro i hi hne a b ha hb
    have hib : i < l.length := by
      have := (List.getElem?_eq_some_iff.mp hb).1
      simp at this; omega
    have := parent_lt hi
    rw [List.getElem?_append_left (by omega)] at ha hb
    exact h i hi a b ha hb
  · -- the new position is a leaf
    intro _ c hc hcl a b _ hb
    have := (List.getElem?_eq_some_iff.mp hb).1
    have := parent_lt hc
    simp at *; omega

/-! ## Sift-down -/

/-- The child of `i` that goes before no other child of `i`. -/
def largerChild (cmp : Comparator α) (l : List α) (i : ℕ) : ℕ :=
  match l[2 * i + 1]?, l[2 * i + 2]? with
  | some a, some b => if cmp a b = true then 2 * i + 2 else 2 * i + 1
  | _, _ => 2 * i + 1

/-- Move the value at `i` down while it goes before its larger child. -/
def siftDown (cmp : Comparator α) : ℕ → List α → ℕ → List α
  | 0, l, _ => l
  | fuel + 1, l, i =>
    match l[i]?, l[largerChild cmp l i]? with
    | some x, some y =>
      if cmp x y = true then
        siftDown cmp fuel (swap l i (largerChild cmp l i)) (largerChild cmp l i)
      else l
    | _, _ => l

/-- `std::pop_heap`: the first element goes to the back, the last one takes its
    place at the root and sinks. -/
def popHeap (cmp : Comparator α) : List α → List α
  | [] => []
  | first :: rest =>
    match rest.getLast? with
    | none => [first]
    | some last => siftDown cmp rest.length (last :: rest.dropLast) 0 ++ [first]

/-- Only the pairs of `hole` and its children may be out of order, and these
    children are in order with the parent of the hole. -/
structure DownHole (cmp : Comparator α) (l : List α) (hole : ℕ) : Prop where
  except : ∀ i, 0 < i → parent i ≠ hole → InOrder cmp l (parent i) i
  grand : 0 < hole → ∀ c, 0 < c → parent c = hole → InOrder cmp l (parent hole) c

theorem largerChild_cases (cmp : Comparator α) (l : List α) (i : ℕ) :
    largerChild cmp l i = 2 * i + 1 ∨ largerChild cmp l i = 2 * i + 2 := by
  unfold largerChild
  split
  · split
    · exact .inr rfl
    · exact .inl rfl
  · exact .inl rfl

theorem parent_largerChild (cmp : Comparator α) (l : List α) (i : ℕ) :
    parent (largerChild cmp l i) = i := by
  rcases largerChild_cases cmp l i with h | h <;> rw [h]
  · exact parent_left i
  · exact parent_right i

theorem lt_largerChild (cmp : Comparator α) (l : List α) (i : ℕ) : i < largerChild cmp l i := by
  rcases largerChild_cases cmp l i with h | h <;> omega

/-- A position with a child in the list has its larger child in the list. -/
theorem largerChild_lt (cmp : Comparator α) {l : List α} {i c : ℕ} (hc : 0 < c)
    (hci : parent c = i) (hcl : c < l.length) : largerChild cmp l i < l.length := by
  have hcases := child_cases hc hci
  unfold largerChild
  split
  · rename_i a b ha hb
    have hb' := (List.getElem?_eq_some_iff.mp hb).1
    split <;> omega
  · omega

theorem largerChild_inOrder {l : List α} {i c : ℕ} (hc : 0 < c) (hci : parent c = i) :
    InOrder cmp l (largerChild cmp l i) c := by
  intro y b hy hb
  have hcases := child_cases hc hci
  unfold largerChild at hy
  split at hy
  · rename_i a₁ a₂ h₁ h₂
    split at hy <;> rename_i hlt <;> rcases hcases with rfl | rfl
    · rw [hy] at h₂; rw [hb] at h₁
      cases h₁; cases h₂
      exact cmp.asymm hlt
    · rw [hy] at hb
      cases hb
      exact cmp.irrefl y
    · rw [hy] at hb
      cases hb
      exact cmp.irrefl y
    · rw [hy] at h₁; rw [hb] at h₂
      cases h₁; cases h₂
      simpa using hlt
  · rename_i hnone
    rcases hcases with rfl | rfl
    · rw [hy] at hb
      cases hb
      exact cmp.irrefl y
    · exact (hnone y b hy hb).elim

theorem siftDown_perm (fuel : ℕ) (l : List α) (i : ℕ) : (siftDown cmp fuel l i).Perm l := by
  induction fuel generalizing l i with
  | zero => exact .refl l
  | succ fuel ih =>
    unfold siftDown
    split
    · split
      · exact (ih _ _).trans (swap_perm l _ _)
      · exact .refl l
    · exact .refl l

theorem DownHole.swap {l : List α} {hole c : ℕ} {x y : α} (h : DownHole cmp l hole)
    (hc : 0 < c) (hch : parent c = hole) (hmax : ∀ d, 0 < d → parent d = hole → InOrder cmp l c d)
    (hx : l[hole]? = some x) (hy : l[c]? = some y) (hlt : cmp x y = true) :
    DownHole cmp (swap l hole c) c := by
  have hhc : hole < c := hch ▸ parent_lt hc
  have hcl : c < l.length := (List.getElem?_eq_some_iff.mp hy).1
  have hath : (Heap.swap l hole c)[hole]? = some y := by
    rw [swap_getElem?_left (hhc.trans hcl) hcl, hy]
  have hatc : (Heap.swap l hole c)[c]? = some x := by
    rw [swap_getElem?_right (hhc.trans hcl) hcl, hx]
  constructor
  · intro i hi hpi a b ha hb
    by_cases hic : i = c
    · -- the pair that was just swapped
      subst hic
      rw [hch, hath] at ha; rw [hatc] at hb
      cases ha; cases hb
      exact cmp.asymm hlt
    · by_cases hpih : parent i = hole
      · -- the other child of the old hole now sits below `y`
        have hih : i ≠ hole := by have := parent_lt hi; omega
        rw [hpih, hath] at ha; rw [swap_getElem?_of_ne hih hic] at hb
        cases ha
        exact hmax i hi hpih y b hy hb
      · rw [swap_getElem?_of_ne hpih hpi] at ha
        by_cases hih : i = hole
        · -- the old hole itself now holds `y`
          subst hih
          rw [hath] at hb
          cases hb
          exact h.grand hi c hc hch a y ha hy
        · rw [swap_getElem?_of_ne hih hic] at hb
          exact h.except i hi hpih a b ha hb
  · intro _ d hd hdc a b ha hb
    have hcd : c < d := hdc ▸ parent_lt hd
    rw [hch, hath] at ha; rw [swap_getElem?_of_ne (by omega) (by omega)] at hb
    cases ha
    exact h.except d hd (by omega) y b (by rw [hdc, hy]) hb

theorem DownHole.isHeap {l : List α} {hole : ℕ} (h : DownHole cmp l hole)
    (hstop : ∀ c, 0 < c → parent c = hole → InOrder cmp l hole c) : IsHeap cmp l := by
  intro i hi
  by_cases hih : parent i = hole
  · rw [hih]; exact hstop i hi hih
  · exact h.except i hi hih

theorem siftDown_isHeap (fuel : ℕ) {l : List α} {i : ℕ} (h : DownHole cmp l i)
    (hfuel : l.length ≤ i + fuel) : IsHeap cmp (siftDown cmp fuel l i) := by
  induction fuel generalizing l i with
  | zero =>
    apply h.isHeap
    intro c _ _ a _ ha _
    have := (List.getElem?_eq_some_iff.mp ha).1
    omega
  | succ fuel ih =>
    unfold siftDown
    have hci := parent_largerChild cmp l i
    have hic := lt_largerChild cmp l i
    have hmax : ∀ d, 0 < d → parent d = i → InOrder cmp l (largerChild cmp l i) d :=
      fun d hd hdi => largerChild_inOrder hd hdi
    split
    · rename_i x y hx hy
      split
      · rename_i hlt
        refine ih (h.swap (by omega) hci hmax hx hy hlt) ?_
        rw [length_swap]; omega
      · rename_i hlt
        apply h.isHeap
        intro c hc hpc
        have hil : InOrder cmp l i (largerChild cmp l i) := by
          intro a b ha hb
          rw [hx] at ha; rw [hy] at hb
          cases ha; cases hb
          simpa using hlt
        exact hil.trans (hmax c hc hpc) (List.getElem?_eq_some_iff.mp hy).1
    · rename_i hnone
      apply h.isHeap
      intro c hc hpc a b ha hb
      have hcl := (List.getElem?_eq_some_iff.mp hb).1
      have hl := largerChild_lt cmp hc hpc hcl
      exact (hnone a _ ha (List.getElem?_eq_getElem hl)).elim

theorem dropLast_perm {l : List α} {last : α} (h : l.getLast? = some last) :
    (last :: l.dropLast).Perm l := by
  obtain ⟨init, rfl⟩ := List.getLast?_eq_some_iff.mp h
  simpa using (List.perm_append_singleton last init).symm

theorem popHeap_perm (l : List α) : (popHeap cmp l).Perm l := by
  cases l with
  | nil => exact .refl []
  | cons first rest =>
    simp only [popHeap]
    split
    · rename_i hnone
      simp only [List.getLast?_eq_none_iff] at hnone
      rw [hnone]
    · rename_i last hlast
      exact (List.perm_append_singleton _ _).trans
        (((siftDown_perm _ _ _).trans (dropLast_perm hlast)).cons first)

/-- `pop_heap` moves the root to the back of the range. -/
theorem popHeap_getLast? (l : List α) : (popHeap cmp l).getLast? = l.head? := by
  cases l with
  | nil => rfl
  | cons first rest =>
    simp only [popHeap]
    split <;> simp

/-- `pop_heap` leaves a heap in front of the element it moved to the back. -/
theorem popHeap_isHeap {l : List α} (h : IsHeap cmp l) : IsHeap cmp (popHeap cmp l).dropLast := by
  cases l with
  | nil => intro i hi a b ha; simp [popHeap] at ha
  | cons first rest =>
    simp only [popHeap]
    split
    · intro i hi a b ha; simp at ha
    · rename_i last hlast
      rw [List.dropLast_concat]
      have hlen : (last :: rest.dropLast).length = rest.length := (dropLast_perm hlast).length_eq
      refine siftDown_isHeap _ ⟨?_, ?_⟩ (by omega)
      · -- below the root nothing has moved
        intro i hi hpi a b ha hb
        have hsame : ∀ k c, 0 < k → (last :: rest.dropLast)[k]? = some c →
            (first :: rest)[k]? = some c := by
          intro k c hk hkc
          obtain ⟨k, rfl⟩ := Nat.exists_eq_succ_of_ne_zero hk.ne'
          simp only [Nat.succ_eq_add_one, List.getElem?_cons_succ] at hkc ⊢
          rw [List.getElem?_dropLast] at hkc
          split at hkc
          · exact hkc
          · cases hkc
        exact h i hi a b (hsame _ _ (by omega) ha) (hsame _ _ hi hb)
      · intro h0; omega

/-! ## Only comparisons count -/

section Map

variable {β : Type*} {cmp' : Comparator β} {f : α → β}

theorem swap_map (f : α → β) (l : List α) (i j : ℕ) : swap (l.map f) i j = (swap l i j).map f := by
  simp only [swap, List.getElem?_map]
  cases l[i]? with
  | none => rfl
  | some a =>
    cases l[j]? with
    | none => rfl
    | some b => simp only [Option.map_some, List.map_set]

variable (hf : ∀ a b, cmp' (f a) (f b) = cmp a b)

include hf

theorem siftUp_map (fuel : ℕ) (l : List α) (i : ℕ) :
    siftUp cmp' fuel (l.map f) i = (siftUp cmp fuel l i).map f := by
  induction fuel generalizing l i with
  | zero => rfl
  | succ fuel ih =>
    simp only [siftUp, List.getElem?_map]
    cases l[parent i]? with
    | none => rfl
    | some p =>
      cases l[i]? with
      | none => rfl
      | some x =>
        simp only [Option.map_some, hf, swap_map, ih]
        split <;> rfl

/-- Elements that compare alike are moved alike. -/
theorem pushHeap_map (l : List α) : pushHeap cmp' (l.map f) = (pushHeap cmp l).map f := by
  unfold pushHeap
  rw [List.length_map, siftUp_map hf]

theorem largerChild_map (l : List α) (i : ℕ) :
    largerChild cmp' (l.map f) i = largerChild cmp l i := by
  simp only [largerChild, List.getElem?_map]
  cases l[2 * i + 1]? with
  | none => rfl
  | some a =>
    cases l[2 * i + 2]? with
    | none => rfl
    | some b => simp only [Option.map_some, hf]

theorem siftDown_map (fuel : ℕ) (l : List α) (i : ℕ) :
    siftDown cmp' fuel (l.map f) i = (siftDown cmp fuel l i).map f := by
  induction fuel generalizing l i with
  | zero => rfl
  | succ fuel ih =>
    simp only [siftDown, largerChild_map hf, List.getElem?_map]
    cases l[i]? with
    | none => rfl
    | some x =>
      cases l[largerChild cmp l i]? with
      | none => rfl
      | some y =>
        simp only [Option.map_some, hf, swap_map, ih]
        split <;> rfl

theorem popHeap_map (l : List α) : popHeap cmp' (l.map f) = (popHeap cmp l).map f := by
  cases l with
  | nil => rfl
  | cons first rest =>
    simp only [List.map_cons, popHeap, List.getLast?_map]
    cases rest.getLast? with
    | none => rfl
    | some last =>
      have hrest : f last :: (rest.map f).dropLast = (last :: rest.dropLast).map f := by
        rw [List.map_cons, List.map_dropLast]
      simp only [Option.map_some, List.length_map, hrest, siftDown_map hf, List.map_append,
        List.map_singleton]

end Map

end Heap
