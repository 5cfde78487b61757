-- SUMMARY: The priority queue adaptor: a vector kept as a heap by the standard heap functions.
import Smpp.Base.StdAlgorithms

namespace Smpp

/-- `priority_queue<Type, Compare>`: the container and the comparison object it
    was constructed with. -/
structure PriorityQueue (α : Type) where
  container : List α
  comparator : Comparator α

namespace PriorityQueue

variable {α : Type} (std : StdAlgorithms)

/-- The constructor. -/
def new (compare : Comparator α) : PriorityQueue α := ⟨[], compare⟩

def push (q : PriorityQueue α) (element : α) : PriorityQueue α :=
  { q with container := std.pushHeap q.comparator (q.container ++ [element]) }

/-- `emplace` builds the element from its arguments; the caller here passes it
    built. -/
def emplace (q : PriorityQueue α) (element : α) : PriorityQueue α :=
  { q with container := std.pushHeap q.comparator (q.container ++ [element]) }

/-- `pop_heap`, then move the last element out. On an empty container the
    behaviour is undefined. -/
def pop (q : PriorityQueue α) : Option (α × PriorityQueue α) := do
  let container := std.popHeap q.comparator q.container
  let result ← container.getLast?
  some (result, { q with container := container.dropLast })

def empty (q : PriorityQueue α) : Bool := q.container.isEmpty

/-- `front()` of the container, undefined when it is empty. -/
def top (q : PriorityQueue α) : Option α := q.container.head?

/-! ## What the operations do -/

/-- The container is a heap for the queue's comparison object. -/
def Valid (q : PriorityQueue α) : Prop := Heap.IsHeap q.comparator q.container

theorem new_valid (compare : Comparator α) : (new compare).Valid := by
  intro i _ a b ha
  simp [new] at ha

@[simp] theorem new_container (compare : Comparator α) : (new compare).container = [] := rfl

theorem Valid.emplace {q : PriorityQueue α} (h : q.Valid) (x : α) : (q.emplace std x).Valid :=
  std.pushHeap_isHeap x h

theorem Valid.emplace_perm {q : PriorityQueue α} (h : q.Valid) (x : α) :
    (q.emplace std x).container.Perm (q.container ++ [x]) :=
  std.pushHeap_perm x h

theorem empty_eq_true {q : PriorityQueue α} : q.empty = true ↔ q.container = [] := by
  simp [PriorityQueue.empty]

/-- What `pop` returns: an element that no other one goes after, and the queue
    without it. -/
structure Popped (q : PriorityQueue α) (x : α) (q' : PriorityQueue α) : Prop where
  valid : q'.Valid
  comparator : q'.comparator = q.comparator
  perm : q.container.Perm (x :: q'.container)
  top : q.top = some x
  best : ∀ y ∈ q'.container, q.comparator x y = false

theorem pop_comparator {std : StdAlgorithms} {q q' : PriorityQueue α} {x : α}
    (hpop : q.pop std = some (x, q')) : q'.comparator = q.comparator := by
  simp only [PriorityQueue.pop, Option.bind_eq_bind, Option.bind_eq_some_iff, Option.some.injEq,
    Prod.mk.injEq] at hpop
  obtain ⟨last, -, -, rfl⟩ := hpop
  rfl

theorem Valid.popped {q q' : PriorityQueue α} {x : α} (h : q.Valid)
    (hpop : q.pop std = some (x, q')) : q.Popped x q' := by
  simp only [PriorityQueue.pop, Option.bind_eq_bind, Option.bind_eq_some_iff, Option.some.injEq,
    Prod.mk.injEq] at hpop
  obtain ⟨last, hlast, rfl, rfl⟩ := hpop
  have htop : q.container.head? = some last := by rw [← std.popHeap_getLast? h, hlast]
  have hperm : q.container.Perm (last :: (std.popHeap q.comparator q.container).dropLast) :=
    ((Heap.dropLast_perm hlast).trans (std.popHeap_perm h)).symm
  refine ⟨std.popHeap_isHeap h, rfl, hperm, htop, fun y hy => ?_⟩
  exact Heap.IsHeap.head_max h htop y (hperm.mem_iff.mpr (List.mem_cons_of_mem _ hy))

/-- `pop` is defined on every queue that is not empty. -/
theorem Valid.exists_pop {q : PriorityQueue α} (h : q.Valid) (hne : q.container ≠ []) :
    ∃ x q', q.pop std = some (x, q') := by
  have hhead := List.head?_eq_some_head hne
  refine ⟨q.container.head hne,
    { q with container := (std.popHeap q.comparator q.container).dropLast }, ?_⟩
  simp only [PriorityQueue.pop, std.popHeap_getLast? h, hhead, Option.bind_eq_bind,
    Option.bind_some]

/-- `push` and `emplace` differ in how the element gets into the container only. -/
theorem push_eq_emplace (q : PriorityQueue α) (x : α) : q.push std x = q.emplace std x := rfl

/-! ## Queues of corresponding elements -/

/-- The queue with `f x` in the place of each `x`. -/
def map (f : α → α) (q : PriorityQueue α) : PriorityQueue α :=
  { q with container := q.container.map f }

section Map

variable {std} {std' : StdAlgorithms} {f : α → α} {q : PriorityQueue α}

@[simp] theorem empty_map : (q.map f).empty = q.empty := by
  simp [map, PriorityQueue.empty]

@[simp] theorem map_id : q.map id = q := by
  simp [map]

theorem emplace_map
    (hpush : ∀ l, std'.pushHeap q.comparator (l.map f) = (std.pushHeap q.comparator l).map f)
    (x : α) : (q.map f).emplace std' (f x) = (q.emplace std x).map f := by
  have hcontainer : q.container.map f ++ [f x] = (q.container ++ [x]).map f := by
    rw [List.map_append, List.map_singleton]
  simp only [map, emplace, hcontainer, hpush]

theorem pop_map
    (hpop : ∀ l, std'.popHeap q.comparator (l.map f) = (std.popHeap q.comparator l).map f) :
    (q.map f).pop std' = (q.pop std).map (Prod.map f (map f)) := by
  simp only [pop, map, hpop, List.getLast?_map]
  cases (std.popHeap q.comparator q.container).getLast? with
  | none => rfl
  | some last =>
    simp only [Option.map_some, Option.bind_eq_bind, Option.bind_some, List.map_dropLast,
      Prod.map_apply, map]

end Map

end PriorityQueue

end Smpp
