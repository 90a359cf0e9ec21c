-- Numbers as lists of bytes, the lowest byte first.
import Mathlib

namespace LittleEndian

/-- The lowest `k` bytes of a number. -/
def bytes : Nat → Nat → List UInt8
  | 0, _ => []
  | k + 1, n => UInt8.ofNat n :: bytes k (n / 256)

def number (l : List UInt8) : Nat := Nat.ofDigits 256 (l.map UInt8.toNat)

@[simp]
theorem length_bytes (k n : Nat) : (bytes k n).length = k := by
  induction k generalizing n with
  | zero => rfl
  | succ k ih => rw [bytes, List.length_cons, ih]

theorem take_bytes {j k : Nat} (h : j ≤ k) (n : Nat) : (bytes k n).take j = bytes j n := by
  induction j generalizing k n with
  | zero => rfl
  | succ j ih =>
    obtain ⟨k, rfl⟩ := Nat.exists_eq_add_of_le' (show 1 ≤ k by omega)
    rw [bytes, bytes, List.take_succ_cons, ih (by omega)]

theorem number_bytes (k n : Nat) : number (bytes k n) = n % 256 ^ k := by
  induction k generalizing n with
  | zero => rw [pow_zero, Nat.mod_one]; rfl
  | succ k ih =>
    have hrest : Nat.ofDigits 256 ((bytes k (n / 256)).map UInt8.toNat) = n / 256 % 256 ^ k := ih _
    rw [number, bytes, List.map_cons, Nat.ofDigits_cons, hrest, pow_succ', Nat.mod_mul]
    simp

/-- The lowest bits of a word, as a signed number. -/
theorem bmod_mod_two_pow {w k : Nat} (x : BitVec w) (h : k ≤ w) :
    ((x.toNat % 2 ^ k : Nat) : Int).bmod (2 ^ k) = x.toInt.bmod (2 ^ k) := by
  rw [BitVec.toInt_eq_toNat_bmod, Int.bmod_bmod_of_dvd (Nat.pow_dvd_pow 2 h), Int.natCast_emod]
  exact Int.emod_bmod _ _

/-- The lowest bits of a word, as a natural number. -/
theorem mod_two_pow {w k : Nat} (x : BitVec w) (h : k ≤ w) :
    ((x.toNat % 2 ^ k : Nat) : Int) = x.toInt % (2 ^ k : Nat) := by
  have hdvd : ((2 ^ k : Nat) : Int) ∣ (2 ^ w : Nat) := Int.natCast_dvd_natCast.mpr
    (Nat.pow_dvd_pow 2 h)
  have hmod : ((x.toNat : Int).bmod (2 ^ w)) % (2 ^ w : Nat) = (x.toNat : Int) % (2 ^ w : Nat) :=
    Int.bmod_emod
  calc ((x.toNat % 2 ^ k : Nat) : Int) = (x.toNat : Int) % (2 ^ w : Nat) % (2 ^ k : Nat) := by
        rw [Int.emod_emod_of_dvd _ hdvd, Int.natCast_emod]
    _ = x.toInt % (2 ^ k : Nat) := by
        rw [← hmod, Int.emod_emod_of_dvd _ hdvd, BitVec.toInt_eq_toNat_bmod]

end LittleEndian
