-- Ring buffers with growing positions: a position `p` names the slot `p % c`.
-- A window of `c` positions meets each slot once.
import Mathlib

namespace RingBuffer

/-- Two positions of one window that name the same slot are the same. -/
theorem eq_of_mod_eq {c r a b : Nat} (ha : r ≤ a) (ha' : a < r + c) (hb : r ≤ b)
    (hb' : b < r + c) (h : a % c = b % c) : a = b := by
  rcases Nat.le_total a b with hab | hab
  · have hd : (b - a) % c = 0 := Nat.sub_mod_eq_zero_of_mod_eq h.symm
    rw [Nat.mod_eq_of_lt (by omega)] at hd
    omega
  · have hd : (a - b) % c = 0 := Nat.sub_mod_eq_zero_of_mod_eq h
    rw [Nat.mod_eq_of_lt (by omega)] at hd
    omega

/-- A window meets every slot. -/
theorem exists_in_window {c : Nat} (hc : 0 < c) (r p : Nat) :
    ∃ t, r ≤ t ∧ t < r + c ∧ t % c = p % c := by
  have hlt := Nat.mod_lt r hc
  have hp := Nat.mod_lt p hc
  have hr := Nat.mod_add_div r c
  rcases Nat.lt_or_ge (p % c) (r % c) with h | h
  · refine ⟨p % c + c * (r / c + 1), ?_, ?_, ?_⟩
    · rw [Nat.mul_add, Nat.mul_one]; omega
    · rw [Nat.mul_add, Nat.mul_one]; omega
    · rw [Nat.add_mul_mod_self_left, Nat.mod_mod]
  · refine ⟨p % c + c * (r / c), by omega, by omega, ?_⟩
    rw [Nat.add_mul_mod_self_left, Nat.mod_mod]

/-- With two slots or more, the next position names another slot. -/
theorem succ_mod_ne {c : Nat} (hc : 2 ≤ c) (t : Nat) : (t + 1) % c ≠ t % c := by
  intro h
  have hd : (t + 1 - t) % c = 0 := Nat.sub_mod_eq_zero_of_mod_eq h
  rw [Nat.add_sub_cancel_left, Nat.mod_eq_of_lt (by omega)] at hd
  omega

end RingBuffer
