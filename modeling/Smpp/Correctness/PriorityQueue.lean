-- SUMMARY: Any history of operations on the priority queue: nothing is lost, and pop returns a best element.
import Smpp.Model.PriorityQueue

/-!
# Histories of the priority queue

The queue is a bag: `push` and `emplace` put an element in, `pop` takes one out, and the
one it takes out is best, as no other element in the bag goes after it. Everything is
proved for one operation first and then for a history of them by induction.
-/

namespace Smpp

namespace PriorityQueue

variable {α : Type}

/-- One call of a member function that changes the queue. -/
inductive Operation (α : Type) where
  | push (element : α)
  | emplace (element : α)
  | pop

/-- What the operation puts in. -/
def Operation.inserted : Operation α → List α
  | .push element => [element]
  | .emplace element => [element]
  | .pop => []

/-- What a history puts in, in this order. -/
def inserted (operations : List (Operation α)) : List α :=
  operations.flatMap Operation.inserted

/-- The history pops only when the queue is not empty, starting from `size` elements. -/
def PopsNonEmpty : ℕ → List (Operation α) → Prop
  | _, [] => True
  | size, .push _ :: rest => PopsNonEmpty (size + 1) rest
  | size, .emplace _ :: rest => PopsNonEmpty (size + 1) rest
  | 0, .pop :: _ => False
  | size + 1, .pop :: rest => PopsNonEmpty size rest

section Run

variable (std : StdAlgorithms)

/-- The elements one operation returns (`push` and `emplace` return none), and the
    queue after it. -/
def runOperation (q : PriorityQueue α) : Operation α → Option (List α × PriorityQueue α)
  | .push element => some ([], q.push std element)
  | .emplace element => some ([], q.emplace std element)
  | .pop => do
    let (result, q') ← q.pop std
    some ([result], q')

/-- The elements a history returns, in this order, and the queue after it. -/
def runOperations : List (Operation α) → PriorityQueue α → Option (List α × PriorityQueue α)
  | [], q => some ([], q)
  | operation :: rest, q => do
    let (returned, q') ← runOperation std q operation
    let (returned', q'') ← runOperations rest q'
    some (returned ++ returned', q'')

end Run

/-! ## What a history changes -/

/-- From `q` to `q'`, the elements `elements` were put in and `returned` taken out. -/
structure Change (q : PriorityQueue α) (elements returned : List α) (q' : PriorityQueue α) :
    Prop where
  valid : q'.Valid
  comparator : q'.comparator = q.comparator
  bag : (returned ++ q'.container).Perm (elements ++ q.container)

namespace Change

variable {q q' q'' : PriorityQueue α} {elements elements' returned returned' : List α}

theorem refl (h : q.Valid) : q.Change [] [] q := ⟨h, rfl, .refl _⟩

theorem trans (h : q.Change elements returned q') (h' : q'.Change elements' returned' q'') :
    q.Change (elements ++ elements') (returned ++ returned') q'' where
  valid := h'.valid
  comparator := h'.comparator.trans h.comparator
  bag := by
    have hlater := h'.bag.append_left returned
    have hswap := List.perm_append_comm_assoc returned elements' q'.container
    have hearlier := h.bag.append_left elements'
    have hback := List.perm_append_comm_assoc elements' elements q.container
    rw [List.append_assoc, List.append_assoc]
    exact hlater.trans (hswap.trans (hearlier.trans hback))

end Change

section Run

variable {std : StdAlgorithms} {q q' : PriorityQueue α} {returned : List α}

/-- Every operation keeps the heap and changes the bag as it should. -/
theorem Valid.runOperation_change (h : q.Valid) {operation : Operation α}
    (hrun : runOperation std q operation = some (returned, q')) :
    q.Change operation.inserted returned q' := by
  have hinsert : ∀ x, q.Change [x] [] (q.emplace std x) := by
    intro x
    exact ⟨h.emplace std x, rfl, (h.emplace_perm std x).trans List.perm_append_comm⟩
  cases operation with
  | push x =>
    cases hrun
    exact hinsert x
  | emplace x =>
    cases hrun
    exact hinsert x
  | pop =>
    simp only [runOperation, Option.bind_eq_bind, Option.bind_eq_some_iff, Option.some.injEq,
      Prod.mk.injEq] at hrun
    obtain ⟨⟨x, q''⟩, hpop, rfl, rfl⟩ := hrun
    have hpopped := h.popped std hpop
    exact ⟨hpopped.valid, hpopped.comparator, hpopped.perm.symm⟩

/-- … and so does every history. -/
theorem Valid.runOperations_change (h : q.Valid) {operations : List (Operation α)}
    (hrun : runOperations std operations q = some (returned, q')) :
    q.Change (inserted operations) returned q' := by
  induction operations generalizing q returned with
  | nil =>
    cases hrun
    exact .refl h
  | cons operation rest ih =>
    simp only [runOperations, Option.bind_eq_bind, Option.bind_eq_some_iff, Option.some.injEq,
      Prod.mk.injEq] at hrun
    obtain ⟨⟨returned₁, q₁⟩, hfirst, ⟨returned₂, q₂⟩, hrest, rfl, rfl⟩ := hrun
    have hchange := h.runOperation_change hfirst
    exact hchange.trans (ih hchange.valid hrest)

/-! ## When a history is defined -/

theorem Valid.exists_runOperation (std : StdAlgorithms) (h : q.Valid) {operation : Operation α}
    {rest : List (Operation α)}
    (hpops : PopsNonEmpty q.container.length (operation :: rest)) :
    ∃ returned q', runOperation std q operation = some (returned, q') ∧
      PopsNonEmpty q'.container.length rest := by
  have hinsert : ∀ x, (q.emplace std x).container.length = q.container.length + 1 := by
    intro x
    simpa using (h.emplace_perm std x).length_eq
  cases operation with
  | push x =>
    refine ⟨[], q.push std x, rfl, ?_⟩
    rw [push_eq_emplace, hinsert]
    exact hpops
  | emplace x =>
    refine ⟨[], q.emplace std x, rfl, ?_⟩
    rw [hinsert]
    exact hpops
  | pop =>
    cases hsize : q.container.length with
    | zero =>
      rw [hsize] at hpops
      exact hpops.elim
    | succ size =>
      rw [hsize] at hpops
      obtain ⟨x, q', hpop⟩ := h.exists_pop std (List.ne_nil_of_length_eq_add_one hsize)
      have hlength := (h.popped std hpop).perm.length_eq
      rw [hsize, List.length_cons, Nat.add_right_cancel_iff] at hlength
      refine ⟨[x], q', ?_, ?_⟩
      · rw [runOperation, hpop]
        rfl
      · rw [← hlength]
        exact hpops

theorem Valid.exists_runOperations (std : StdAlgorithms) (h : q.Valid)
    {operations : List (Operation α)} (hpops : PopsNonEmpty q.container.length operations) :
    ∃ returned q', runOperations std operations q = some (returned, q') := by
  induction operations generalizing q with
  | nil => exact ⟨[], q, rfl⟩
  | cons operation rest ih =>
    obtain ⟨returned, q₁, hfirst, hrest⟩ := h.exists_runOperation std hpops
    obtain ⟨returned', q₂, hrun⟩ := ih (h.runOperation_change hfirst).valid hrest
    exact ⟨returned ++ returned', q₂, by simp [runOperations, hfirst, hrun]⟩

/-- A history can be cut in two at any point. -/
theorem runOperations_append_cases {before after : List (Operation α)}
    (hrun : runOperations std (before ++ after) q = some (returned, q')) :
    ∃ returned₁ q₁ returned₂, runOperations std before q = some (returned₁, q₁) ∧
      runOperations std after q₁ = some (returned₂, q') ∧ returned = returned₁ ++ returned₂ := by
  induction before generalizing q returned with
  | nil => exact ⟨[], q, returned, rfl, hrun, rfl⟩
  | cons operation rest ih =>
    simp only [List.cons_append, runOperations, Option.bind_eq_bind, Option.bind_eq_some_iff,
      Option.some.injEq, Prod.mk.injEq] at hrun
    obtain ⟨⟨returned₀, q₀⟩, hfirst, ⟨returned', q''⟩, hrest, rfl, rfl⟩ := hrun
    obtain ⟨returned₁, q₁, returned₂, hbefore, hafter, rfl⟩ := ih hrest
    refine ⟨returned₀ ++ returned₁, q₁, returned₂, ?_, hafter, (List.append_assoc _ _ _).symm⟩
    simp only [runOperations, hfirst, hbefore, Option.bind_eq_bind, Option.bind_some]

/-! ## Draining -/

/-- Popping until nothing is left returns every element, each one before those
    that it goes after. -/
theorem Valid.drain (std : StdAlgorithms) (h : q.Valid) :
    ∃ drained q', runOperations std (List.replicate q.container.length .pop) q =
        some (drained, q') ∧ q'.empty = true ∧ drained.Perm q.container ∧
      drained.Pairwise (fun x y => q.comparator x y = false) := by
  generalize hsize : q.container.length = size
  induction size generalizing q with
  | zero =>
    have hnil : q.container = [] := List.eq_nil_of_length_eq_zero hsize
    exact ⟨[], q, rfl, empty_eq_true.mpr hnil, hnil ▸ .nil, .nil⟩
  | succ size ih =>
    have hne : q.container ≠ [] := List.ne_nil_of_length_eq_add_one hsize
    obtain ⟨x, q₁, hpop⟩ := h.exists_pop std hne
    have hpopped := h.popped std hpop
    have hsize₁ : q₁.container.length = size := by
      have hlength := hpopped.perm.length_eq
      rw [List.length_cons] at hlength
      omega
    obtain ⟨drained, q', hrun, hempty, hperm, hdescending⟩ := ih hpopped.valid hsize₁
    refine ⟨x :: drained, q', ?_, hempty, (hperm.cons x).trans hpopped.perm.symm, ?_⟩
    · simp [List.replicate_succ, runOperations, runOperation, hpop, hrun]
    · rw [hpopped.comparator] at hdescending
      apply List.Pairwise.cons _ hdescending
      intro y hy
      exact hpopped.best y (hperm.mem_iff.mp hy)

end Run

/-! ## The queue as a bag -/

/-- What holds of a queue between two operations of a history, after the operations
    `before`, which returned `returned`. -/
structure After (std : StdAlgorithms) (compare : Comparator α) (before : List (Operation α))
    (returned : List α) (q : PriorityQueue α) : Prop where
  heap : Heap.IsHeap compare q.container
  /-- The queue holds what was inserted and has not been returned. -/
  bag : (returned ++ q.container).Perm (inserted before)
  /-- `pop` would return what `top` shows, and nothing that is left goes after it. -/
  pop : q.empty = false → ∃ x q', q.pop std = some (x, q') ∧ q.top = some x ∧
    ∀ y ∈ q'.container, compare x y = false
  /-- Popping until nothing is left would return the elements in descending order. -/
  drain : ∃ drained q', runOperations std (List.replicate q.container.length .pop) q =
      some (drained, q') ∧ q'.empty = true ∧ drained.Perm q.container ∧
    drained.Pairwise (fun x y => compare x y = false)

/-- A history that pops only when the queue is not empty is defined, and at every
    point of it the queue is a bag whose `pop` returns a best element. With
    `StdAlgorithms.reference` the heap functions are sift-up and sift-down. -/
theorem history_extracts_best (std : StdAlgorithms) (compare : Comparator α)
    (before after : List (Operation α)) (hpops : PopsNonEmpty 0 (before ++ after)) :
    ∃ returned q rest q', runOperations std before (new compare) = some (returned, q) ∧
      After std compare before returned q ∧
      runOperations std after q = some (rest, q') := by
  have hnew := new_valid compare
  obtain ⟨_, q', hrun⟩ := hnew.exists_runOperations std hpops
  obtain ⟨returned, q, rest, hbefore, hafter, -⟩ := runOperations_append_cases hrun
  have hchange := hnew.runOperations_change hbefore
  have hcompare : q.comparator = compare := hchange.comparator
  refine ⟨returned, q, rest, q', hbefore, ⟨?_, ?_, ?_, ?_⟩, hafter⟩
  · exact hcompare ▸ hchange.valid
  · simpa using hchange.bag
  · intro hempty
    have hne : q.container ≠ [] := by
      intro hnil
      rw [empty_eq_true.mpr hnil] at hempty
      cases hempty
    obtain ⟨x, q₁, hpop⟩ := hchange.valid.exists_pop std hne
    have hpopped := hchange.valid.popped std hpop
    exact ⟨x, q₁, hpop, hpopped.top, hcompare ▸ hpopped.best⟩
  · exact hcompare ▸ hchange.valid.drain std

theorem history_extracts_best_largest :
    ∃ returned q rest q', runOperations .reference [.push 3, .emplace 5, .push 5, .pop]
        (new (Comparator.less (id : ℕ → ℕ))) = some (returned, q) ∧
      After .reference (Comparator.less id) [.push 3, .emplace 5, .push 5, .pop] returned q ∧
      runOperations .reference [.push 4, .pop, .pop, .pop] q = some (rest, q') :=
  history_extracts_best .reference (Comparator.less id) [.push 3, .emplace 5, .push 5, .pop]
    [.push 4, .pop, .pop, .pop] trivial

example : (runOperations .reference [.push 3, .emplace 5, .push 5, .pop, .push 4, .pop, .pop, .pop]
    (new (Comparator.less (id : ℕ → ℕ)))).map Prod.fst = some [5, 5, 4, 3] := by decide

end PriorityQueue

end Smpp
