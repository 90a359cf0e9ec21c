-- Single-precision numbers as their bits: the value of a finite one, and its whole part.
import Mathlib

namespace Binary32

def exponent (x : BitVec 32) : Nat := x.toNat / 2 ^ 23 % 2 ^ 8

def fraction (x : BitVec 32) : Nat := x.toNat % 2 ^ 23

/-- The other bit patterns are infinities, or no numbers. -/
def IsFinite (x : BitVec 32) : Prop := exponent x < 255

instance (x : BitVec 32) : Decidable (IsFinite x) := inferInstanceAs (Decidable (_ < _))

/-- The absolute value, as a multiple of `2 ^ (-149)`. -/
def steps (x : BitVec 32) : Nat :=
  if exponent x = 0 then fraction x else (2 ^ 23 + fraction x) * 2 ^ (exponent x - 1)

def value (x : BitVec 32) : ℚ :=
  if x.msb then -(steps x / (2 ^ 149 : Nat)) else steps x / (2 ^ 149 : Nat)

/-- The digits behind the point are cut off. -/
def truncate (q : ℚ) : Int := if 0 ≤ q then ⌊q⌋ else ⌈q⌉

/-- The whole part of a finite number. -/
def whole (x : BitVec 32) : Int :=
  if x.msb then -((steps x / 2 ^ 149 : Nat) : Int) else (steps x / 2 ^ 149 : Nat)

theorem whole_eq_truncate (x : BitVec 32) : whole x = truncate (value x) := by
  have hnonneg : (0 : ℚ) ≤ steps x / (2 ^ 149 : Nat) := by positivity
  have hfloor : ⌊(steps x / (2 ^ 149 : Nat) : ℚ)⌋ = ((steps x / 2 ^ 149 : Nat) : Int) := by
    rw [Rat.floor_natCast_div_natCast, Int.natCast_ediv]
  unfold whole truncate value
  by_cases hsign : x.msb
  · rw [if_pos hsign, if_pos hsign]
    split_ifs with h
    · -- a negative zero
      have hzero : (steps x / (2 ^ 149 : Nat) : ℚ) = 0 := le_antisymm (by linarith) hnonneg
      rw [← hfloor, hzero]
      simp
    · rw [Int.ceil_neg, hfloor]
  · rw [if_neg hsign, if_neg hsign, if_pos hnonneg, hfloor]

end Binary32
