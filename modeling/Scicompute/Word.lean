-- The machine words of the program: `size_t` values are natural numbers below
-- `2^64`, and their sums and products are modulo `2^64`.
import Mathlib

namespace Word

/-- The number of values of `size_t`. -/
def wordSize : Nat := 2 ^ 64

/-- The sum of two `size_t` values. -/
def add (a b : Nat) : Nat := (a + b) % wordSize

/-- The product of two `size_t` values. -/
def mul (a b : Nat) : Nat := a * b % wordSize

/-- The difference of two `size_t` values. -/
def sub (a b : Nat) : Nat := (a + (wordSize - b)) % wordSize

/-- The cast of a `size_t` to `intptr_t`. -/
def toIntptr (a : Nat) : Int := if a < 2 ^ 63 then a else (a : Int) - 2 ^ 64

/-- The difference of two casts to `intptr_t`, in two's complement. -/
def difference (a b : Nat) : Int := (toIntptr a - toIntptr b).bmod wordSize

/-- The cast of a 64-bit integer that is not negative to `int`. -/
def toInt (a : Nat) : Int := (a : Int).bmod (2 ^ 32)

theorem add_of_lt {a b : Nat} (h : a + b < wordSize) : add a b = a + b :=
  Nat.mod_eq_of_lt h

theorem mul_of_lt {a b : Nat} (h : a * b < wordSize) : mul a b = a * b :=
  Nat.mod_eq_of_lt h

theorem sub_of_le {a b : Nat} (h : b ≤ a) (ha : a < wordSize) : sub a b = a - b := by
  rw [sub, show a + (wordSize - b) = a - b + wordSize by omega, Nat.add_mod_right,
    Nat.mod_eq_of_lt (by omega)]

/-- A difference below 0 wraps around. -/
theorem sub_of_lt {a b : Nat} (h : a < b) (hb : b ≤ wordSize) : sub a b = wordSize - (b - a) := by
  rw [sub, Nat.mod_eq_of_lt (by omega)]
  omega

theorem difference_eq_zero_iff {a b : Nat} (ha : a < wordSize) (hb : b < wordSize) :
    difference a b = 0 ↔ a = b := by
  unfold difference toIntptr wordSize at *
  constructor
  · intro h
    rw [Int.bmod_def] at h
    split_ifs at h <;> omega
  · intro h
    subst h
    simp

/-- Below `2^63` the casts keep the values. -/
theorem difference_of_lt {a b : Nat} (ha : a < 2 ^ 63) (hb : b < 2 ^ 63) :
    difference a b = (a : Int) - b := by
  unfold difference toIntptr wordSize
  rw [if_pos ha, if_pos hb, Int.bmod_def]
  split_ifs <;> omega

theorem toInt_of_lt {a : Nat} (h : a < 2 ^ 31) : toInt a = a := by
  unfold toInt
  rw [Int.bmod_def]
  split_ifs <;> omega

/-- The cast never gets larger, and stays as large only where it is exact. -/
theorem toNat_toInt_le (a : Nat) : (toInt a).toNat ≤ a ∧ ((toInt a).toNat = a → a < 2 ^ 31) := by
  unfold toInt
  rw [Int.bmod_def]
  split_ifs <;> omega

end Word
