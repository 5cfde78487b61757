-- SUMMARY: Arithmetic with a bounded relative error: what a rounding function promises, and how errors add up.
import Mathlib.Algebra.Order.Field.Basic
import Mathlib.Algebra.Order.Floor.Ring
import Mathlib.Data.Int.Log
import Mathlib.Tactic.GCongr
import Mathlib.Tactic.Linarith
import Mathlib.Tactic.Ring

/-!
# Rounding

Numbers of a fixed precision are computed with as if exactly and then rounded. What a
computation relies on are the bound on the relative error, and that rounding keeps the
order and leaves rounded numbers alone. Exponents are unbounded here, so nothing over- or
underflows.
-/

variable {α : Type*} [Field α] [LinearOrder α] [IsStrictOrderedRing α]

/-- A rounding function with relative error at most `u`. -/
structure Rounding (α : Type*) [Field α] [LinearOrder α] [IsStrictOrderedRing α] (u : α) where
  round : α → α
  monotone : Monotone round
  round_round : ∀ x, round (round x) = round x
  lower : ∀ x, 0 ≤ x → (1 - u) * x ≤ round x
  upper : ∀ x, 0 ≤ x → round x ≤ (1 + u) * x

/-- `x'` comes from `x` through at most `m` roundings. -/
structure Within (u : α) (m : ℕ) (x x' : α) : Prop where
  lower : (1 - u) ^ m * x ≤ x'
  upper : x' ≤ (1 + u) ^ m * x

namespace Within

variable {u x x' y y' c : α} {m n : ℕ}

omit [IsStrictOrderedRing α] in
theorem refl (u x : α) : Within u 0 x x := by
  constructor <;> rw [pow_zero, one_mul]

theorem nonneg (h : Within u m x x') (hu : u ≤ 1) (hx : 0 ≤ x) : 0 ≤ x' :=
  (mul_nonneg (pow_nonneg (sub_nonneg.mpr hu) m) hx).trans h.lower

theorem mono (h : Within u m x x') (hu0 : 0 ≤ u) (hu : u ≤ 1) (hx : 0 ≤ x) (hmn : m ≤ n) :
    Within u n x x' := by
  have hle : (1 - u) ^ n ≤ (1 - u) ^ m :=
    pow_le_pow_of_le_one (sub_nonneg.mpr hu) (sub_le_self 1 hu0) hmn
  have hge : (1 + u) ^ m ≤ (1 + u) ^ n :=
    pow_le_pow_right₀ (le_add_of_nonneg_right hu0) hmn
  constructor
  · exact (mul_le_mul_of_nonneg_right hle hx).trans h.lower
  · exact h.upper.trans (mul_le_mul_of_nonneg_right hge hx)

theorem add (h : Within u m x x') (h' : Within u m y y') : Within u m (x + y) (x' + y') := by
  constructor
  · rw [mul_add]
    exact add_le_add h.lower h'.lower
  · rw [mul_add]
    exact add_le_add h.upper h'.upper

theorem div (h : Within u m x x') (hc : 0 < c) : Within u m (x / c) (x' / c) := by
  constructor
  · rw [← mul_div_assoc]
    exact div_le_div_of_nonneg_right h.lower hc.le
  · rw [← mul_div_assoc]
    exact div_le_div_of_nonneg_right h.upper hc.le

end Within

namespace Rounding

variable (α) in
/-- No rounding at all. -/
def exact : Rounding α 0 where
  round := id
  monotone := monotone_id
  round_round _ := rfl
  lower x _ := by rw [sub_zero, one_mul, id]
  upper x _ := by rw [add_zero, one_mul, id]

variable {u : α} (fl : Rounding α u) {x x' : α} {m : ℕ}

theorem round_zero : fl.round 0 = 0 := by
  apply le_antisymm
  · simpa using fl.upper 0 le_rfl
  · simpa using fl.lower 0 le_rfl

/-- One more rounding, seen from below … -/
theorem le_round (hu : u ≤ 1) (hx' : 0 ≤ x') (h : (1 - u) ^ m * x ≤ x') :
    (1 - u) ^ (m + 1) * x ≤ fl.round x' :=
  calc (1 - u) ^ (m + 1) * x = (1 - u) * ((1 - u) ^ m * x) := by ring
    _ ≤ (1 - u) * x' := mul_le_mul_of_nonneg_left h (sub_nonneg.mpr hu)
    _ ≤ fl.round x' := fl.lower x' hx'

/-- … and from above. -/
theorem round_le (hu0 : 0 ≤ u) (hx' : 0 ≤ x') (h : x' ≤ (1 + u) ^ m * x) :
    fl.round x' ≤ (1 + u) ^ (m + 1) * x :=
  calc fl.round x' ≤ (1 + u) * x' := fl.upper x' hx'
    _ ≤ (1 + u) * ((1 + u) ^ m * x) :=
        mul_le_mul_of_nonneg_left h (add_nonneg zero_le_one hu0)
    _ = (1 + u) ^ (m + 1) * x := by ring

theorem within (hu0 : 0 ≤ u) (hu : u ≤ 1) (hx : 0 ≤ x) (h : Within u m x x') :
    Within u (m + 1) x (fl.round x') :=
  ⟨fl.le_round hu (h.nonneg hu hx) h.lower, fl.round_le hu0 (h.nonneg hu hx) h.upper⟩

/-- Adding to a rounded number does not make it smaller. -/
theorem le_round_add {t : α} (ht : fl.round t = t) (hx : 0 ≤ x) : t ≤ fl.round (t + x) := by
  calc t = fl.round t := ht.symm
    _ ≤ fl.round (t + x) := fl.monotone (le_add_of_nonneg_right hx)

end Rounding

/-! ## Chopping -/

section Chop

variable [FloorRing α] (p : ℕ) {x y : α}

/-- The weight of the last of the `p + 1` binary digits of `x`. -/
def lastDigit (x : α) : α := 2 ^ (Int.log 2 x - p)

/-- Only the first `p + 1` binary digits of a positive number. -/
def chop (x : α) : α := if x ≤ 0 then 0 else ⌊x / lastDigit p x⌋ * lastDigit p x

theorem lastDigit_pos (x : α) : 0 < lastDigit p x := zpow_pos zero_lt_two _

theorem two_pow_mul_lastDigit (x : α) : 2 ^ p * lastDigit p x = 2 ^ Int.log 2 x := by
  rw [lastDigit, ← zpow_natCast, ← zpow_add₀ (zero_lt_two' α).ne', add_sub_cancel]

omit [IsStrictOrderedRing α] in
theorem chop_of_pos (hx : 0 < x) : chop p x = ⌊x / lastDigit p x⌋ * lastDigit p x :=
  if_neg hx.not_ge

theorem chop_le (hx : 0 < x) : chop p x ≤ x := by
  rw [chop_of_pos p hx]
  exact (le_div_iff₀ (lastDigit_pos p x)).mp (Int.floor_le _)

/-- The first digit stays. -/
theorem two_zpow_log_le_chop (hx : 0 < x) : (2 : α) ^ Int.log 2 x ≤ chop p x := by
  have hlog : (2 : α) ^ Int.log 2 x ≤ x := by
    have hle := Int.zpow_log_le_self (b := 2) one_lt_two hx
    rwa [Nat.cast_ofNat] at hle
  have hdigits : ((2 ^ p : ℤ) : α) ≤ x / lastDigit p x := by
    rw [le_div_iff₀ (lastDigit_pos p x)]
    push_cast
    rwa [two_pow_mul_lastDigit]
  rw [chop_of_pos p hx, ← two_pow_mul_lastDigit p x]
  apply mul_le_mul_of_nonneg_right _ (lastDigit_pos p x).le
  exact_mod_cast Int.le_floor.mpr hdigits

theorem chop_pos (hx : 0 < x) : 0 < chop p x :=
  (zpow_pos zero_lt_two _).trans_le (two_zpow_log_le_chop p hx)

theorem log_chop (hx : 0 < x) : Int.log 2 (chop p x) = Int.log 2 x := by
  apply le_antisymm
  · exact Int.log_mono_right (chop_pos p hx) (chop_le p hx)
  · rw [← Int.zpow_le_iff_le_log one_lt_two (chop_pos p hx), Nat.cast_ofNat]
    exact two_zpow_log_le_chop p hx

theorem chop_chop (x : α) : chop p (chop p x) = chop p x := by
  rcases le_or_gt x 0 with hx | hx
  · simp [chop, hx]
  · have hdigit : lastDigit p (chop p x) = lastDigit p x := by
      rw [lastDigit, log_chop p hx, lastDigit]
    rw [chop_of_pos p (chop_pos p hx), hdigit, chop_of_pos p hx,
      mul_div_cancel_right₀ _ (lastDigit_pos p x).ne', Int.floor_intCast]

theorem chop_monotone : Monotone (chop p : α → α) := by
  intro x y hxy
  rcases le_or_gt x 0 with hx | hx
  · rw [chop, if_pos hx]
    rcases le_or_gt y 0 with hy | hy
    · rw [chop, if_pos hy]
    · exact (chop_pos p hy).le
  have hy := hx.trans_le hxy
  rcases (Int.log_mono_right (b := 2) hx hxy).eq_or_lt with hlog | hlog
  · -- the same digits are kept
    have hdigit : lastDigit p x = lastDigit p y := by rw [lastDigit, hlog, lastDigit]
    rw [chop_of_pos p hx, chop_of_pos p hy, hdigit]
    have hpos := lastDigit_pos p y
    gcongr
  · have hnext : (2 : α) ^ (Int.log 2 x + 1) ≤ 2 ^ Int.log 2 y :=
      zpow_le_zpow_right₀ one_le_two hlog
    have hlt : x < 2 ^ (Int.log 2 x + 1) := by
      have hsucc := Int.lt_zpow_succ_log_self (b := 2) one_lt_two x
      rwa [Nat.cast_ofNat] at hsucc
    exact (chop_le p hx).trans (hlt.le.trans (hnext.trans (two_zpow_log_le_chop p hy)))

/-- What is chopped off is less than the last digit. -/
theorem le_chop (hx : 0 < x) : (1 - 1 / 2 ^ p) * x ≤ chop p x := by
  have hpos := lastDigit_pos p x
  have hfloor : x - lastDigit p x ≤ chop p x := by
    rw [chop_of_pos p hx]
    have hlt := (div_lt_iff₀ hpos).mp (Int.lt_floor_add_one (x / lastDigit p x))
    linarith
  have hdigit : lastDigit p x ≤ 1 / 2 ^ p * x := by
    have hlog : (2 : α) ^ Int.log 2 x ≤ x := (two_zpow_log_le_chop p hx).trans (chop_le p hx)
    have hpow : (0 : α) < 2 ^ p := pow_pos zero_lt_two p
    rw [one_div, ← div_eq_inv_mul, le_div_iff₀ hpow, mul_comm, two_pow_mul_lastDigit]
    exact hlog
  linarith

/-- Rounding towards zero. -/
def Rounding.towardZero : Rounding α (1 / 2 ^ p) where
  round := chop p
  monotone := chop_monotone p
  round_round := chop_chop p
  lower x hx := by
    rcases hx.eq_or_lt with rfl | hx
    · simp [chop]
    · exact le_chop p hx
  upper x hx := by
    rcases hx.eq_or_lt with rfl | hx
    · simp [chop]
    · have hpow : (0 : α) ≤ 1 / 2 ^ p := by positivity
      calc chop p x ≤ x := chop_le p hx
        _ ≤ (1 + 1 / 2 ^ p) * x := le_mul_of_one_le_left hx.le (le_add_of_nonneg_right hpow)

end Chop
