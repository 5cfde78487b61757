-- SUMMARY: Unsigned integer arithmetic at a chosen width, and when it agrees with the natural numbers.
import Mathlib.Algebra.Order.Group.Nat
import Mathlib.Tactic.Common

/-!
# Unsigned arithmetic of a width

A computation over an unsigned integer type is written once, with the width of
the type as a parameter. At `unbounded` it is the computation over the natural
numbers, at `bits n` every operation wraps modulo `2 ^ n`.
-/

/-- The width of an unsigned integer type. -/
inductive Width where
  | unbounded
  | bits (n : ℕ)
  deriving DecidableEq, Repr

namespace Width

/-- The value a result is stored as. -/
def wrap : Width → ℕ → ℕ
  | unbounded, a => a
  | bits n, a => a % 2 ^ n

def add (w : Width) (a b : ℕ) : ℕ := w.wrap (a + b)

def mul (w : Width) (a b : ℕ) : ℕ := w.wrap (a * b)

/-- Subtraction. Below zero a bounded type wraps around; callers at `unbounded`
    subtract from something at least as large. -/
def sub : Width → ℕ → ℕ → ℕ
  | unbounded, a, b => a - b
  | bits n, a, b => (a + (2 ^ n - b % 2 ^ n)) % 2 ^ n

/-- Division. A zero divisor is undefined behaviour. -/
def div (_ : Width) (a b : ℕ) : Option ℕ := if b = 0 then none else some (a / b)

/-- Remainder. A zero divisor is undefined behaviour. -/
def mod (_ : Width) (a b : ℕ) : Option ℕ := if b = 0 then none else some (a % b)

/-- The value is one of the type. -/
def Fits : Width → ℕ → Prop
  | unbounded, _ => True
  | bits n, a => a < 2 ^ n

@[simp] theorem unbounded_add (a b : ℕ) : unbounded.add a b = a + b := rfl
@[simp] theorem unbounded_mul (a b : ℕ) : unbounded.mul a b = a * b := rfl

@[simp] theorem div_of_pos (w : Width) (a : ℕ) {b : ℕ} (hb : 0 < b) : w.div a b = some (a / b) := by
  simp [div, hb.ne']

@[simp] theorem mod_of_pos (w : Width) (a : ℕ) {b : ℕ} (hb : 0 < b) : w.mod a b = some (a % b) := by
  simp [mod, hb.ne']

@[simp] theorem wrap_zero (w : Width) : w.wrap 0 = 0 := by
  cases w with
  | unbounded => rfl
  | bits n => exact Nat.zero_mod _

/-- Storing never makes a value larger. -/
theorem wrap_le (w : Width) (a : ℕ) : w.wrap a ≤ a := by
  cases w with
  | unbounded => exact le_rfl
  | bits n => exact Nat.mod_le a (2 ^ n)

theorem Fits.mono {w : Width} {a b : ℕ} (h : w.Fits b) (hab : a ≤ b) : w.Fits a := by
  cases w with
  | unbounded => trivial
  | bits n => exact hab.trans_lt h

/-- Storing a value loses nothing exactly when the type has it. -/
theorem wrap_eq_self_iff (w : Width) (a : ℕ) : w.wrap a = a ↔ w.Fits a := by
  cases w with
  | unbounded => simp [wrap, Fits]
  | bits n =>
    simp only [wrap, Fits]
    constructor
    · intro h
      rw [← h]
      exact Nat.mod_lt _ (Nat.two_pow_pos n)
    · exact Nat.mod_eq_of_lt

/-- A product that the type has is the exact one. -/
theorem Fits.mul_eq {w : Width} {a b : ℕ} (h : w.Fits (a * b)) : w.mul a b = a * b :=
  (w.wrap_eq_self_iff _).mpr h

/-- A sum of wrapped values is the wrapped sum. -/
theorem wrap_add_wrap (w : Width) (a b : ℕ) : w.wrap (w.wrap a + w.wrap b) = w.wrap (a + b) := by
  cases w with
  | unbounded => rfl
  | bits n => exact (Nat.add_mod a b (2 ^ n)).symm

theorem wrap_mul_wrap (w : Width) (a b : ℕ) : w.wrap (w.wrap a * w.wrap b) = w.wrap (a * b) := by
  cases w with
  | unbounded => rfl
  | bits n => exact (Nat.mul_mod a b (2 ^ n)).symm

/-- Subtracting from something at least as large does not wrap. -/
theorem sub_of_le (w : Width) {a b : ℕ} (hb : b ≤ a) (ha : w.Fits a) : w.sub a b = a - b := by
  cases w with
  | unbounded => rfl
  | bits n =>
    have hb' : b < 2 ^ n := hb.trans_lt ha
    have hsum : a + (2 ^ n - b) = (a - b) + 2 ^ n := by omega
    simp only [sub]
    rw [Nat.mod_eq_of_lt hb', hsum, Nat.add_mod_right, Nat.mod_eq_of_lt]
    exact (Nat.sub_le a b).trans_lt ha

end Width
