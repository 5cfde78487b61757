-- SUMMARY: Cutting a length into strips, and a square into the tiles that pairs of strips span.
import Mathlib.Algebra.BigOperators.Ring.Finset
import Mathlib.Algebra.BigOperators.Ring.Multiset
import Mathlib.Algebra.Order.Floor.Div
import Mathlib.Data.Multiset.Bind
import Mathlib.GroupTheory.GroupAction.Ring
import Mathlib.Tactic.Ring

/-!
# Strips and tiles

A length `N` is cut into strips of height `s` and a last, lower one for what
remains. Pairs of strips span the tiles of an `N × N` square. A program that
adds tiles in blocks of equal ones has all of them when what it computes of a
tile does not depend on which side is which.
-/

namespace Tiling

variable {α β : Type*} {N s : ℕ}

/-! ## Strips -/

/-- The height of strip `a` of the `N ⌈/⌉ s` strips: `s`, except for a last strip
    that has only `N % s` left. -/
def stripHeight (N s a : ℕ) : ℕ := if a < N / s then s else N % s

/-- The heights of all strips. -/
def heights (N s : ℕ) : Multiset ℕ := (Multiset.range (N ⌈/⌉ s)).map (stripHeight N s)

theorem ceilDiv_eq (hs : 0 < s) : N ⌈/⌉ s = N / s + if N % s = 0 then 0 else 1 := by
  have hdiv := Nat.div_add_mod N s
  rw [Nat.ceilDiv_eq_add_pred_div]
  split
  · rename_i h0
    have hlast : (s - 1) / s = 0 := Nat.div_eq_of_lt (Nat.sub_lt hs Nat.one_pos)
    rw [h0, add_zero] at hdiv
    calc (N + s - 1) / s = (s * (N / s) + (s - 1)) / s := by rw [hdiv, Nat.add_sub_assoc hs]
      _ = N / s + (s - 1) / s := Nat.mul_add_div hs _ _
      _ = N / s + 0 := by rw [hlast]
  · rename_i h0
    have hrest : N % s - 1 < s := (Nat.sub_le _ _).trans_lt (Nat.mod_lt N hs)
    have hsplit : N + s - 1 = s * (N / s + 1) + (N % s - 1) := by
      rw [Nat.mul_add, mul_one]
      omega
    calc (N + s - 1) / s = (s * (N / s + 1) + (N % s - 1)) / s := by rw [hsplit]
      _ = N / s + 1 + (N % s - 1) / s := Nat.mul_add_div hs _ _
      _ = N / s + 1 := by rw [Nat.div_eq_of_lt hrest, add_zero]

theorem ceilDiv_pos (hs : 0 < s) (hN : 0 < N) : 0 < N ⌈/⌉ s := by
  refine Nat.pos_of_ne_zero (fun h0 => hN.not_ge ?_)
  have hle : N ≤ s * (N ⌈/⌉ s) := (ceilDiv_le_iff_le_mul hs).mp le_rfl
  rwa [h0, mul_zero] at hle

/-- `N / s` full strips, and one with the remainder if there is any. -/
theorem heights_eq (hs : 0 < s) :
    heights N s = Multiset.replicate (N / s) s + if N % s = 0 then 0 else {N % s} := by
  have hfull : (Multiset.range (N / s)).map (stripHeight N s) = Multiset.replicate (N / s) s := by
    rw [← Multiset.card_range (N / s), ← Multiset.map_const', Multiset.card_range]
    apply Multiset.map_congr rfl
    intro a ha
    rw [stripHeight, if_pos (Multiset.mem_range.mp ha)]
  unfold heights
  rw [ceilDiv_eq hs]
  split
  · rw [add_zero, add_zero, hfull]
  · rw [Multiset.range_succ, Multiset.map_cons, hfull, stripHeight, if_neg (lt_irrefl _),
      ← Multiset.singleton_add, add_comm]

/-- The strips make up the whole length. -/
theorem sum_heights (hs : 0 < s) : (heights N s).sum = N := by
  rw [heights_eq hs, Multiset.sum_add, Multiset.sum_replicate, smul_eq_mul, mul_comm]
  split
  · rename_i h0
    have hdiv := Nat.div_add_mod N s
    rwa [h0] at hdiv
  · rw [Multiset.sum_singleton]
    exact Nat.div_add_mod N s

theorem mem_heights_iff (hs : 0 < s) {h : ℕ} :
    h ∈ heights N s ↔ (0 < N / s ∧ h = s) ∨ (N % s ≠ 0 ∧ h = N % s) := by
  rw [heights_eq hs, Multiset.mem_add, Multiset.mem_replicate, Nat.pos_iff_ne_zero]
  by_cases hrest : N % s = 0
  · simp [hrest]
  · simp [hrest]

theorem card_heights (N s : ℕ) : (heights N s).card = N ⌈/⌉ s := by
  rw [heights, Multiset.card_map, Multiset.card_range]

/-- Higher strips are no more in number. -/
theorem ceilDiv_anti {s' : ℕ} (hs : 0 < s) (hle : s ≤ s') : N ⌈/⌉ s' ≤ N ⌈/⌉ s := by
  have hcover : N ≤ s * (N ⌈/⌉ s) := (ceilDiv_le_iff_le_mul hs).mp le_rfl
  apply (ceilDiv_le_iff_le_mul (hs.trans_le hle)).mpr
  exact hcover.trans (Nat.mul_le_mul_right _ hle)

/-! ## Tiles -/

/-- `f` at the two heights of each tile. -/
def grid (f : ℕ → ℕ → α) (N s : ℕ) : Multiset α :=
  (Multiset.range (N ⌈/⌉ s) ×ˢ Multiset.range (N ⌈/⌉ s)).map fun p =>
    f (stripHeight N s p.1) (stripHeight N s p.2)

theorem grid_eq_bind (f : ℕ → ℕ → α) (N s : ℕ) :
    grid f N s = (heights N s).bind fun h => (heights N s).map (f h) := by
  have hproduct : ∀ t u : Multiset ℕ, t ×ˢ u = t.bind fun a => u.map (Prod.mk a) := fun _ _ => rfl
  simp only [grid, heights, hproduct, Multiset.map_bind, Multiset.bind_map, Multiset.map_map]
  rfl

theorem map_grid (g : α → β) (f : ℕ → ℕ → α) (N s : ℕ) :
    (grid f N s).map g = grid (fun h h' => g (f h h')) N s := by
  simp only [grid, Multiset.map_map]
  rfl

theorem card_grid (f : ℕ → ℕ → α) (N s : ℕ) : (grid f N s).card = (N ⌈/⌉ s) ^ 2 := by
  rw [grid, Multiset.card_map, Multiset.card_product, Multiset.card_range, sq]

theorem mem_grid {f : ℕ → ℕ → α} {x : α} :
    x ∈ grid f N s ↔ ∃ h ∈ heights N s, ∃ h' ∈ heights N s, f h h' = x := by
  simp only [grid_eq_bind, Multiset.mem_bind, Multiset.mem_map]

/-- The tiles in blocks of equal ones. Those along the two edges fall together
    because `f` is symmetric. -/
theorem grid_eq_blocks {f : ℕ → ℕ → α} (hf : ∀ h h', f h h' = f h' h) (hs : 0 < s) :
    grid f N s = Multiset.replicate (N / s * (N / s)) (f s s) +
      if N % s = 0 then 0
      else Multiset.replicate (2 * (N / s)) (f (N % s) s) + {f (N % s) (N % s)} := by
  have hbind : ∀ (n : ℕ) (g : ℕ → Multiset α), (Multiset.replicate n s).bind g = n • g s := by
    intro n g
    rw [Multiset.bind, Multiset.map_replicate, Multiset.join, Multiset.sum_replicate]
  rw [grid_eq_bind, heights_eq hs]
  split
  · rw [add_zero, hbind, Multiset.map_replicate, Multiset.nsmul_replicate, add_zero]
  · rw [Multiset.add_bind, Multiset.singleton_bind, hbind, Multiset.map_add, Multiset.map_add,
      Multiset.map_replicate, Multiset.map_replicate, Multiset.map_singleton,
      Multiset.map_singleton, smul_add, Multiset.nsmul_replicate, Multiset.nsmul_singleton,
      hf s (N % s), two_mul, Multiset.replicate_add, add_assoc, add_assoc]

/-- Tiles of at most the same area have sides of at most the same length together. -/
theorem add_le_add_of_area_le (hs : 0 < s) {h h' k k' : ℕ} (hh : h ∈ heights N s)
    (hh' : h' ∈ heights N s) (hk : k ∈ heights N s) (hk' : k' ∈ heights N s)
    (harea : h * h' ≤ k * k') : h + h' ≤ k + k' := by
  have hlt : N % s < s := Nat.mod_lt N hs
  rw [mem_heights_iff hs] at hh hh' hk hk'
  have hedge : N % s * s < s * s := Nat.mul_lt_mul_of_pos_right hlt hs
  have hcorner : N % s ≠ 0 → N % s * (N % s) < N % s * s :=
    fun h0 => Nat.mul_lt_mul_of_pos_left hlt (Nat.pos_of_ne_zero h0)
  have hcomm : s * (N % s) = N % s * s := mul_comm _ _
  -- every side has one of two lengths, and a lower strip makes the area smaller
  rcases hh with ⟨-, rfl⟩ | ⟨h0, rfl⟩ <;> rcases hh' with ⟨-, rfl⟩ | ⟨h0', rfl⟩ <;>
    rcases hk with ⟨-, rfl⟩ | ⟨k0, rfl⟩ <;> rcases hk' with ⟨-, rfl⟩ | ⟨k0', rfl⟩ <;>
    omega

/-- Tiles of one area are of one shape: their sides have the same sum, too. -/
theorem eq_of_area_eq {f : ℕ → ℕ → α} (hf : ∀ h h', f h h' = f h' h) (hs : 0 < s) {h h' k k' : ℕ}
    (hh : h ∈ heights N s) (hh' : h' ∈ heights N s) (hk : k ∈ heights N s) (hk' : k' ∈ heights N s)
    (harea : h * h' = k * k') : f h h' = f k k' := by
  have hsum : h + h' = k + k' :=
    le_antisymm (add_le_add_of_area_le hs hh hh' hk hk' harea.le)
      (add_le_add_of_area_le hs hk hk' hh hh' harea.ge)
  have hroots : ((h : ℤ) - k) * (h - k') = 0 := by
    have hsum' : (h : ℤ) + h' = k + k' := by exact_mod_cast hsum
    have harea' : (h : ℤ) * h' = k * k' := by exact_mod_cast harea
    calc ((h : ℤ) - k) * (h - k') = h * (h - (k + k')) + k * k' := by ring
      _ = h * (h - (h + h')) + h * h' := by rw [hsum', harea']
      _ = 0 := by ring
  rcases mul_eq_zero.mp hroots with hzero | hzero
  · have hhk : h = k := by omega
    have hhk' : h' = k' := by omega
    rw [hhk, hhk']
  · have hhk : h = k' := by omega
    have hhk' : h' = k := by omega
    rw [hhk, hhk', hf]

theorem sum_grid_add [AddCommMonoid α] (f g : ℕ → ℕ → α) (N s : ℕ) :
    (grid (fun h h' => f h h' + g h h') N s).sum = (grid f N s).sum + (grid g N s).sum :=
  Multiset.sum_map_add

/-- What depends on the two sides of a tile apart adds up apart. -/
theorem sum_grid_mul {R : Type*} [CommSemiring R] (f g : ℕ → R) (N s : ℕ) :
    (grid (fun h h' => f h * g h') N s).sum =
      ((heights N s).map f).sum * ((heights N s).map g).sum := by
  rw [grid_eq_bind, Multiset.sum_bind]
  simp only [Multiset.sum_map_mul_left, Multiset.sum_map_mul_right]

theorem sum_map_cast_heights {R : Type*} [CommSemiring R] (hs : 0 < s) :
    ((heights N s).map (Nat.cast : ℕ → R)).sum = N := by
  rw [← Nat.cast_multiset_sum, sum_heights hs]

/-- The areas of the tiles add up to that of the square, whatever the strips. -/
theorem sum_grid_area {R : Type*} [CommSemiring R] (hs : 0 < s) (c : R) :
    (grid (fun h h' => (h : R) * h' * c) N s).sum = N * N * c := by
  simp only [mul_assoc]
  rw [sum_grid_mul (fun h => (h : R)) (fun h' => (h' : R) * c), Multiset.sum_map_mul_right,
    sum_map_cast_heights hs]

/-- One side of the tiles adds up to the length, once for every strip. -/
theorem sum_grid_side (hs : 0 < s) (N : ℕ) : (grid (fun h _ => h) N s).sum = N * (N ⌈/⌉ s) := by
  have hmul := sum_grid_mul (fun h => h) (fun _ => 1) N s
  simpa [sum_heights hs, card_heights] using hmul

end Tiling
