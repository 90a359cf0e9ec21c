-- Signed machine words: products of `int64_t` values, and their casts to `size_t`. A
-- product that overflows is undefined in the language; `imul` is what two's complement
-- makes of it, and `mul32?` and `add32?` have no result where an `int` overflows.
import Scicompute.Word

namespace Word

/-- The product of two `int64_t` values, modulo `2^64`. -/
def imul (a b : Int) : Int := (a * b).bmod wordSize

/-- The cast of an `int64_t` to `size_t`. -/
def toSize (a : Int) : Nat := (a % wordSize).toNat

/-- The cast of an `int64_t` to `int`. -/
def narrow (a : Int) : Int := a.bmod (2 ^ 32)

/-- The product of two `int` values, where it is one itself. -/
def mul32? (a b : Int) : Option Int :=
  if -2 ^ 31 ≤ a * b ∧ a * b < 2 ^ 31 then some (a * b) else none

/-- The sum of two `int` values, where it is one itself. -/
def add32? (a b : Int) : Option Int :=
  if -2 ^ 31 ≤ a + b ∧ a + b < 2 ^ 31 then some (a + b) else none

theorem bmod_of_range {a : Int} (hlow : -2 ^ 63 ≤ a) (hhigh : a < 2 ^ 63) :
    a.bmod wordSize = a := by
  unfold wordSize
  rw [Int.bmod_def]
  split_ifs <;> omega

theorem imul_of_range {a b : Int} (hlow : -2 ^ 63 ≤ a * b) (hhigh : a * b < 2 ^ 63) :
    imul a b = a * b := bmod_of_range hlow hhigh

theorem mul32?_eq_some {a b c : Int} :
    mul32? a b = some c ↔ c = a * b ∧ -2 ^ 31 ≤ c ∧ c < 2 ^ 31 := by
  unfold mul32?
  constructor
  · intro h
    split_ifs at h with hrange
    cases h
    exact ⟨rfl, hrange⟩
  · rintro ⟨rfl, hrange⟩
    exact if_pos hrange

theorem add32?_eq_some {a b c : Int} :
    add32? a b = some c ↔ c = a + b ∧ -2 ^ 31 ≤ c ∧ c < 2 ^ 31 := by
  unfold add32?
  constructor
  · intro h
    split_ifs at h with hrange
    cases h
    exact ⟨rfl, hrange⟩
  · rintro ⟨rfl, hrange⟩
    exact if_pos hrange

theorem narrow_of_range {a : Int} (hlow : -2 ^ 31 ≤ a) (hhigh : a < 2 ^ 31) : narrow a = a := by
  unfold narrow
  rw [Int.bmod_def]
  split_ifs <;> omega

theorem narrow_range (a : Int) : -2 ^ 31 ≤ narrow a ∧ narrow a < 2 ^ 31 := by
  unfold narrow
  rw [Int.bmod_def]
  split_ifs <;> omega

/-- The cast of a number that is not negative never gets larger. -/
theorem narrow_le {a : Int} (h : 0 ≤ a) : narrow a ≤ a := by
  unfold narrow
  rw [Int.bmod_def]
  split_ifs <;> omega

/-- A cast that is not exact loses at least `2 ^ 32`. -/
theorem narrow_eq_or_le {a : Int} (h : 0 ≤ a) : narrow a = a ∨ narrow a + 2 ^ 32 ≤ a := by
  unfold narrow
  rw [Int.bmod_def]
  split_ifs <;> omega

theorem imul_lt (a b : Int) : imul a b < 2 ^ 63 := Int.bmod_lt (by decide : 0 < wordSize)

theorem toSize_natCast (n : Nat) : toSize n = n % wordSize := by
  unfold toSize
  omega

theorem toSize_of_lt {n : Nat} (h : n < wordSize) : toSize n = n := by
  rw [toSize_natCast, Nat.mod_eq_of_lt h]

theorem toSize_bmod (a : Int) : toSize (a.bmod wordSize) = toSize a := by
  unfold toSize
  rw [Int.bmod_emod]

/-- A loop of products is the product of all. -/
theorem foldl_imul (l : List Int) (b : Int) :
    l.foldl imul (b.bmod wordSize) = (b * l.prod).bmod wordSize := by
  induction l generalizing b with
  | nil => simp
  | cons a l ih =>
    have hfirst : imul (b.bmod wordSize) a = (b * a).bmod wordSize := by
      unfold imul
      rw [Int.bmod_mul_bmod]
    rw [List.foldl_cons, hfirst, ih, List.prod_cons, mul_assoc]

theorem foldl_imul_one (l : List Int) : l.foldl imul 1 = l.prod.bmod wordSize := by
  have h := foldl_imul l 1
  rwa [bmod_of_range (by decide) (by decide), one_mul] at h

/-- A loop of products that are converted to `int` in each round. -/
theorem foldl_narrow_imul (l : List Int) (b : Int) :
    l.foldl (fun n d => narrow (imul n d)) (narrow b) = narrow (b * l.prod) := by
  induction l generalizing b with
  | nil => simp
  | cons a l ih =>
    have hfirst : narrow (imul (narrow b) a) = narrow (b * a) := by
      unfold narrow imul wordSize
      rw [Int.bmod_bmod_of_dvd (by decide), Int.bmod_mul_bmod]
    rw [List.foldl_cons, hfirst, ih, List.prod_cons, mul_assoc]

end Word
