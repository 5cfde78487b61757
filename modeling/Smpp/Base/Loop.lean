-- SUMMARY: Loops over a list whose rounds may be undefined: `mapM` in `Option`.
import Mathlib.Data.List.Forall2
import Mathlib.Logic.Basic

/-!
# Loops that can fail

A loop that computes a value for each element of a list, or is undefined as soon as one
round is, is `List.mapM` in `Option`.
-/

variable {α β : Type*} {f g : α → Option β} {l : List α} {ys : List β}

theorem mapM_congr (h : ∀ x ∈ l, f x = g x) : l.mapM f = l.mapM g := by
  induction l with
  | nil => rfl
  | cons x rest ih =>
    rw [List.mapM_cons, List.mapM_cons, h x List.mem_cons_self,
      ih (fun x' hx' => h x' (List.mem_cons_of_mem _ hx'))]

/-- The results are those of the rounds, in order. -/
theorem mapM_eq_some_iff : l.mapM f = some ys ↔ List.Forall₂ (fun x y => f x = some y) l ys := by
  induction l generalizing ys with
  | nil => simp [eq_comm]
  | cons x rest ih =>
    simp only [List.mapM_cons, Option.bind_eq_bind, Option.bind_eq_some_iff, Option.pure_def,
      Option.some.injEq, List.forall₂_cons_left_iff, ← ih]
    constructor
    · rintro ⟨y, hy, rest', hrest, rfl⟩
      exact ⟨y, rest', hy, hrest, rfl⟩
    · rintro ⟨y, rest', hy, hrest, rfl⟩
      exact ⟨y, hy, rest', hrest, rfl⟩

/-- Every round has to be defined. -/
theorem exists_mapM_iff : (∃ ys, l.mapM f = some ys) ↔ ∀ x ∈ l, ∃ y, f x = some y := by
  induction l with
  | nil => simp
  | cons x rest ih =>
    rw [List.forall_mem_cons, ← ih]
    simp only [List.mapM_cons, Option.bind_eq_bind, Option.bind_eq_some_iff, Option.pure_def,
      Option.some.injEq]
    constructor
    · rintro ⟨-, y, hy, rest', hrest, -⟩
      exact ⟨⟨y, hy⟩, rest', hrest⟩
    · rintro ⟨⟨y, hy⟩, rest', hrest⟩
      exact ⟨_, y, hy, rest', hrest, rfl⟩

/-- Every result is that of some round. -/
theorem exists_of_mem_mapM (h : l.mapM f = some ys) {y : β} (hy : y ∈ ys) :
    ∃ x ∈ l, f x = some y := by
  rw [mapM_eq_some_iff] at h
  induction h with
  | nil => cases hy
  | @cons x y' l ys hx _ ih =>
    rcases List.mem_cons.mp hy with rfl | hy
    · exact ⟨x, List.mem_cons_self, hx⟩
    · obtain ⟨x', hx', hy'⟩ := ih hy
      exact ⟨x', List.mem_cons_of_mem _ hx', hy'⟩

/-- A part of the list gives that part of the results. -/
theorem mapM_drop_take (h : l.mapM f = some ys) (a n : ℕ) :
    ((l.drop a).take n).mapM f = some ((ys.drop a).take n) := by
  rw [mapM_eq_some_iff] at *
  exact List.forall₂_take n (List.forall₂_drop a h)

/-- The entries of a part of a list, with their numbers in the whole list. -/
theorem zipIdx_append_drop_take (before middle after : List α) :
    ((before ++ middle ++ after).zipIdx.drop before.length).take middle.length =
      middle.zipIdx.map fun x => (x.1, before.length + x.2) := by
  have hnumbered : (before ++ middle ++ after).zipIdx =
      before.zipIdx ++
        (middle.zipIdx before.length ++ after.zipIdx (before.length + middle.length)) := by
    rw [List.zipIdx_append, List.zipIdx_append, List.append_assoc, List.length_append, Nat.zero_add,
      Nat.zero_add]
  rw [hnumbered, List.drop_left' List.length_zipIdx, List.take_left' List.length_zipIdx,
    List.zipIdx_eq_map_add]

theorem mapM_map_some {γ : Type*} (h : β → γ) :
    l.mapM (fun x => (f x).map h) = (l.mapM f).map (List.map h) := by
  induction l with
  | nil => rfl
  | cons x rest ih =>
    rw [List.mapM_cons, List.mapM_cons, ih]
    cases f x <;> cases rest.mapM f <;> rfl

/-- A loop that hands on a state, where each round computes a value on its own and adds
    it to the state. -/
theorem foldlM_map_some {σ : Type*} (add : σ → β → σ) (s : σ) :
    l.foldlM (fun s x => (f x).map (add s)) s = (l.mapM f).map fun ys => ys.foldl add s := by
  induction l generalizing s with
  | nil => rfl
  | cons x rest ih =>
    rw [List.foldlM_cons, List.mapM_cons]
    cases f x with
    | none => rfl
    | some y =>
      simp only [Option.map_some, Option.bind_eq_bind, Option.bind_some, ih, Option.pure_def]
      cases rest.mapM f <;> rfl
