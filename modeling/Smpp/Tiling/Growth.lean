-- SUMMARY: A longer length has more strips, none of them lower, and so more and larger tiles.
import Smpp.Tiling.Strips

/-!
# Growth

When the length grows, the strips that were there stay or, in the case of the last one,
grow, and strips are added behind them. Whatever is larger for larger tiles is then
larger for more tiles.
-/

namespace Tiling

variable {α : Type*} {N N' s : ℕ}

/-- No strip gets lower. -/
theorem stripHeight_mono (hs : 0 < s) (hN : N ≤ N') {a : ℕ} (ha : a < N ⌈/⌉ s) :
    stripHeight N s a ≤ stripHeight N' s a := by
  have hdiv : N / s ≤ N' / s := Nat.div_le_div_right hN
  have hrest : N % s ≤ s := (Nat.mod_lt N hs).le
  have hlast : a ≤ N / s := by
    rw [ceilDiv_eq hs] at ha
    split at ha <;> omega
  by_cases hfull : a < N' / s
  · -- the strip is full now
    rw [stripHeight, stripHeight, if_pos hfull]
    split
    · exact le_rfl
    · exact hrest
  · -- it is the last one of both lengths
    have heq : N / s = N' / s := by omega
    have hsplit := Nat.div_add_mod N s
    have hsplit' := Nat.div_add_mod N' s
    rw [stripHeight, stripHeight, if_neg hfull, if_neg (heq ▸ hfull)]
    rw [heq] at hsplit
    omega

/-- Of every size there are at least as many tiles, or larger ones. -/
theorem countP_grid_le [Preorder α] [DecidableLE α] {f f' : ℕ → ℕ → α} (hs : 0 < s) (hN : N ≤ N')
    (hf : ∀ h h' k k', h ≤ k → h' ≤ k' → f h h' ≤ f' k k') (x : α) :
    (grid f N s).countP (x ≤ ·) ≤ (grid f' N' s).countP (x ≤ ·) := by
  have hcount : ∀ (f : ℕ → ℕ → α) (N : ℕ), (grid f N s).countP (x ≤ ·) =
      ((Finset.range (N ⌈/⌉ s) ×ˢ Finset.range (N ⌈/⌉ s)).filter fun q =>
        x ≤ f (stripHeight N s q.1) (stripHeight N s q.2)).card := by
    intro f N
    rw [grid, Multiset.countP_map]
    rfl
  have hstrips : N ⌈/⌉ s ≤ N' ⌈/⌉ s := (gc_mul_ceilDiv hs).monotone_l hN
  rw [hcount, hcount]
  apply Finset.card_le_card
  intro q hq
  simp only [Finset.mem_filter, Finset.mem_product, Finset.mem_range] at hq ⊢
  obtain ⟨⟨ha, ha'⟩, hx⟩ := hq
  refine ⟨⟨ha.trans_le hstrips, ha'.trans_le hstrips⟩, hx.trans ?_⟩
  exact hf _ _ _ _ (stripHeight_mono hs hN ha) (stripHeight_mono hs hN ha')

end Tiling
