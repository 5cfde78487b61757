-- SUMMARY: The library algorithms a program calls, with the contracts they promise, and one implementation that meets them.
import Mathlib.Data.Finset.Max
import Mathlib.Data.List.Sort
import Smpp.Base.Heap

/-!
# Standard algorithms as a parameter

A program that calls `std::sort`, `std::push_heap` or `std::pop_heap` relies on
their contracts and on nothing else. `StdAlgorithms` is a choice of these
functions together with the proof that each meets its contract. A theorem stated
for every `StdAlgorithms` holds for every order in which a sort may leave
elements that compare equal, and for every arrangement of such elements in a
heap.
-/

open Heap

/-- An implementation of the algorithms, with its contracts. -/
structure StdAlgorithms where
  sort : {α : Type} → Comparator α → List α → List α
  pushHeap : {α : Type} → Comparator α → List α → List α
  popHeap : {α : Type} → Comparator α → List α → List α
  /-- `std::sort` rearranges the range … -/
  sort_perm : ∀ {α : Type} (cmp : Comparator α) (l : List α), (sort cmp l).Perm l
  /-- … into one that is sorted. It need not be stable. -/
  sort_sorted : ∀ {α : Type} (cmp : Comparator α) (l : List α), cmp.Sorted (sort cmp l)
  /-- `std::push_heap` rearranges a heap followed by one more element … -/
  pushHeap_perm : ∀ {α : Type} {cmp : Comparator α} {l : List α} (x : α), IsHeap cmp l →
    (pushHeap cmp (l ++ [x])).Perm (l ++ [x])
  /-- … into a heap. -/
  pushHeap_isHeap : ∀ {α : Type} {cmp : Comparator α} {l : List α} (x : α), IsHeap cmp l →
    IsHeap cmp (pushHeap cmp (l ++ [x]))
  /-- `std::pop_heap` rearranges a heap, … -/
  popHeap_perm : ∀ {α : Type} {cmp : Comparator α} {l : List α}, IsHeap cmp l →
    (popHeap cmp l).Perm l
  /-- … moving the first element to the back … -/
  popHeap_getLast? : ∀ {α : Type} {cmp : Comparator α} {l : List α}, IsHeap cmp l →
    (popHeap cmp l).getLast? = l.head?
  /-- … and leaving a heap in front of it. -/
  popHeap_isHeap : ∀ {α : Type} {cmp : Comparator α} {l : List α}, IsHeap cmp l →
    IsHeap cmp (popHeap cmp l).dropLast

/-- One outcome of `std::shuffle`: some rearrangement of the range. -/
structure Shuffle where
  shuffle : {α : Type} → List α → List α
  shuffle_perm : ∀ {α : Type} (l : List α), (shuffle l).Perm l

namespace StdAlgorithms

/-- Insertion sort by a comparison object. -/
def insertionSort {α : Type*} (cmp : Comparator α) (l : List α) : List α :=
  l.insertionSort (fun a b => cmp b a = false)

theorem insertionSort_perm {α : Type*} (cmp : Comparator α) (l : List α) :
    (insertionSort cmp l).Perm l :=
  List.perm_insertionSort _ l

theorem insertionSort_sorted {α : Type*} (cmp : Comparator α) (l : List α) :
    cmp.Sorted (insertionSort cmp l) := by
  have : Std.Total (fun a b : α => cmp b a = false) := ⟨fun a b => cmp.total b a⟩
  have : IsTrans α (fun a b : α => cmp b a = false) := ⟨fun _ _ _ hab hbc => cmp.negTrans hbc hab⟩
  exact List.pairwise_insertionSort _ l

/-- Insertion sort and binary heaps. -/
def reference : StdAlgorithms where
  sort := insertionSort
  pushHeap := Heap.pushHeap
  popHeap := Heap.popHeap
  sort_perm := insertionSort_perm
  sort_sorted := insertionSort_sorted
  pushHeap_perm _ _ := Heap.pushHeap_perm _
  pushHeap_isHeap x h := Heap.pushHeap_isHeap x h
  popHeap_perm _ := Heap.popHeap_perm _
  popHeap_getLast? _ := Heap.popHeap_getLast? _
  popHeap_isHeap h := Heap.popHeap_isHeap h

/-- The two choices use the same heap functions. Their sorts may differ. -/
structure SameHeap (std₁ std₂ : StdAlgorithms) : Prop where
  pushHeap : ∀ {α : Type} (cmp : Comparator α) (l : List α),
    std₁.pushHeap cmp l = std₂.pushHeap cmp l
  popHeap : ∀ {α : Type} (cmp : Comparator α) (l : List α),
    std₁.popHeap cmp l = std₂.popHeap cmp l

theorem SameHeap.refl (std : StdAlgorithms) : SameHeap std std := ⟨fun _ _ => rfl, fun _ _ => rfl⟩

/-- The heap functions see the elements through the comparison object only: they
    move elements alike that compare alike. -/
structure ComparisonBased (std : StdAlgorithms) : Prop where
  pushHeap_map : ∀ {α β : Type} {cmp : Comparator α} {cmp' : Comparator β} {f : α → β},
    (∀ a b, cmp' (f a) (f b) = cmp a b) → ∀ l,
      std.pushHeap cmp' (l.map f) = (std.pushHeap cmp l).map f
  popHeap_map : ∀ {α β : Type} {cmp : Comparator α} {cmp' : Comparator β} {f : α → β},
    (∀ a b, cmp' (f a) (f b) = cmp a b) → ∀ l,
      std.popHeap cmp' (l.map f) = (std.popHeap cmp l).map f

theorem reference_comparisonBased : reference.ComparisonBased where
  pushHeap_map hf l := Heap.pushHeap_map hf l
  popHeap_map hf l := Heap.popHeap_map hf l

end StdAlgorithms

namespace Shuffle

/-- The shuffle that happens to leave everything where it is. -/
def identity : Shuffle where
  shuffle := id
  shuffle_perm l := .refl l

end Shuffle

/-! ## Largest and smallest elements -/

section Extrema

variable {α : Type*} [LinearOrder α] {l : List α}

/-- A list that is not empty has a largest element. -/
theorem exists_isGreatest (h : l ≠ []) : ∃ m, IsGreatest {t | t ∈ l} m := by
  have hne : l.toFinset.Nonempty := List.toFinset_nonempty_iff l |>.mpr h
  have hmax := l.toFinset.isGreatest_max' hne
  simp only [List.coe_toFinset] at hmax
  exact ⟨_, hmax⟩

/-- … and a smallest one. -/
theorem exists_isLeast (h : l ≠ []) : ∃ m, IsLeast {t | t ∈ l} m := by
  have hne : l.toFinset.Nonempty := List.toFinset_nonempty_iff l |>.mpr h
  have hmin := l.toFinset.isLeast_min' hne
  simp only [List.coe_toFinset] at hmin
  exact ⟨_, hmin⟩

end Extrema
