-- SUMMARY: Strict weak orders as comparison objects, and what it means for a list to be sorted by one.
import Mathlib.Data.List.Sort
import Mathlib.Order.Basic

/-!
# Comparison objects

A C++ algorithm that takes a comparison object promises nothing unless the
object is a strict weak order. A `Comparator` is a comparison function together
with the proof that it is one, so that the contracts of the algorithms built on
top of it need no side condition.
-/

/-- A strict weak order, given as the Boolean function a program calls.
    `lt a b` says that `a` goes strictly before `b`. -/
structure Comparator (α : Type*) where
  lt : α → α → Bool
  asymm : ∀ {a b : α}, lt a b = true → lt b a = false
  negTrans : ∀ {a b c : α}, lt a b = false → lt b c = false → lt a c = false

namespace Comparator

variable {α β γ : Type*}

instance : CoeFun (Comparator α) (fun _ => α → α → Bool) := ⟨lt⟩

theorem irrefl (cmp : Comparator α) (a : α) : cmp a a = false := by
  cases h : cmp a a with
  | false => rfl
  | true => exact h.symm.trans (cmp.asymm h)

/-- Of two elements at least one does not go before the other. -/
theorem total (cmp : Comparator α) (a b : α) : cmp a b = false ∨ cmp b a = false := by
  cases h : cmp a b with
  | false => exact .inl rfl
  | true => exact .inr (cmp.asymm h)

theorem trans (cmp : Comparator α) {a b c : α} (hab : cmp a b = true) (hbc : cmp b c = true) :
    cmp a c = true := by
  by_contra hac
  have hcb : cmp c b = false := cmp.asymm hbc
  have hab' : cmp a b = false := cmp.negTrans (by simpa using hac) hcb
  simp [hab] at hab'

/-! ## Orders by a key -/

section Key

variable [LinearOrder β]

/-- Smaller keys first. -/
def less (key : α → β) : Comparator α where
  lt l r := decide (key l < key r)
  asymm h := by
    simp only [decide_eq_true_eq, decide_eq_false_iff_not, not_lt] at h ⊢
    exact h.le
  negTrans hab hbc := by
    simp only [decide_eq_false_iff_not, not_lt] at hab hbc ⊢
    exact hbc.trans hab

/-- Larger keys first. -/
def greater (key : α → β) : Comparator α where
  lt l r := decide (key l > key r)
  asymm h := by
    simp only [decide_eq_true_eq, decide_eq_false_iff_not, not_lt] at h ⊢
    exact h.le
  negTrans hab hbc := by
    simp only [decide_eq_false_iff_not, not_lt] at hab hbc ⊢
    exact hab.trans hbc

@[simp] theorem less_eq_false {key : α → β} {l r : α} : less key l r = false ↔ key r ≤ key l := by
  simp [less]

@[simp] theorem greater_eq_false {key : α → β} {l r : α} :
    greater key l r = false ↔ key l ≤ key r := by
  simp [greater]

end Key

/-! ## Sorted lists -/

/-- No element of the list goes before an element in front of it. -/
def Sorted (cmp : Comparator α) (l : List α) : Prop :=
  l.Pairwise (fun a b => cmp b a = false)

theorem Sorted.filter {cmp : Comparator α} {l : List α} (h : cmp.Sorted l) (p : α → Bool) :
    cmp.Sorted (l.filter p) :=
  List.Pairwise.filter p h

/-- Changing the elements in what the order does not look at leaves them sorted. -/
theorem Sorted.map {cmp : Comparator α} {l : List α} (h : cmp.Sorted l) {f : α → α}
    (hf : ∀ a b, cmp (f a) (f b) = cmp a b) : cmp.Sorted (l.map f) := by
  apply List.pairwise_map.mpr
  apply h.imp
  intro a b hab
  rwa [hf b a]

/-- What goes before something else stands in front of it. -/
theorem Sorted.index_lt {cmp : Comparator α} {l : List α} (h : cmp.Sorted l) {i k : ℕ} {a b : α}
    (ha : l[i]? = some a) (hb : l[k]? = some b) (hab : cmp a b = true) : i < k := by
  obtain ⟨hi, rfl⟩ := List.getElem?_eq_some_iff.mp ha
  obtain ⟨hk, rfl⟩ := List.getElem?_eq_some_iff.mp hb
  rcases Nat.lt_trichotomy i k with hik | rfl | hki
  · exact hik
  · rw [cmp.irrefl] at hab
    cases hab
  · have hfalse := List.pairwise_iff_getElem.mp h k i hk hi hki
    rw [hab] at hfalse
    cases hfalse

/-- Two sorted arrangements of the same values are equal as soon as elements
    that the order cannot tell apart have the same value. The elements
    themselves may differ in whatever `value` leaves out. -/
theorem Sorted.map_eq_of_perm {cmp : Comparator α} {value : α → γ} {l l' : List α}
    (hl : cmp.Sorted l) (hl' : cmp.Sorted l') (hperm : (l.map value).Perm (l'.map value))
    (hlift : ∀ a b a' b', value a = value a' → value b = value b' → cmp a b = cmp a' b')
    (hvalue : ∀ a ∈ l, ∀ b ∈ l, cmp a b = false → cmp b a = false → value a = value b) :
    l.map value = l'.map value := by
  -- The order only looks at values, so it orders the two lists of values.
  let R : γ → γ → Prop := fun x y => ∀ a b, value a = x → value b = y → cmp b a = false
  have hR : ∀ {k : List α}, cmp.Sorted k → (k.map value).Pairwise R := by
    intro k hk
    refine List.pairwise_map.mpr (hk.imp ?_)
    intro a b hab a' b' ha' hb'
    rw [hlift b' a' b a hb' ha', hab]
  refine List.Perm.eq_of_pairwise ?_ (hR hl) (hR hl') hperm
  intro x y hx hy hxy hyx
  obtain ⟨a, ha, rfl⟩ := List.mem_map.mp hx
  obtain ⟨b, hb, rfl⟩ := List.mem_map.mp (hperm.mem_iff.mpr hy)
  exact hvalue a ha b hb (hyx b a rfl rfl) (hxy a b rfl rfl)

/-- Two sorted arrangements of the same elements are equal if the order can tell
    all of them apart. -/
theorem Sorted.eq_of_perm {cmp : Comparator α} {l l' : List α} (hl : cmp.Sorted l)
    (hl' : cmp.Sorted l') (hperm : l.Perm l')
    (heq : ∀ a ∈ l, ∀ b ∈ l, cmp a b = false → cmp b a = false → a = b) : l = l' := by
  have hmap : l.map id = l'.map id := by
    apply hl.map_eq_of_perm hl' (hperm.map id) _ heq
    rintro a b _ _ rfl rfl
    rfl
  simpa using hmap

end Comparator
