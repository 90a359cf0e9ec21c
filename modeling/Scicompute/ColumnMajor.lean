-- Matrices in memory, column by column, with the distance between two columns (the leading
-- dimension) given; and the product of two such matrices as BLAS routines define it.
import Mathlib

namespace ColumnMajor

/-- Where an entry lies behind the first one. -/
def place (ld i j : Nat) : Nat := j * ld + i

/-- All entries lie in a buffer of the size. -/
def Inside (rows cols ld size : Nat) : Prop := ∀ i < rows, ∀ j < cols, place ld i j < size

/-- A product of two matrices, added to a third one. The first two are transposed if so asked. -/
structure Product (R : Type*) where
  transa : Bool
  transb : Bool
  m : Nat
  n : Nat
  k : Nat
  alpha : R
  a : Nat
  lda : Nat
  b : Nat
  ldb : Nat
  beta : R
  c : Nat
  ldc : Nat

namespace Product

variable {R : Type*}

/-- The rows and the columns of the first matrix as it is stored. -/
def shapeA (p : Product R) : Nat × Nat := if p.transa then (p.k, p.m) else (p.m, p.k)

def shapeB (p : Product R) : Nat × Nat := if p.transb then (p.n, p.k) else (p.k, p.n)

/-- The leading dimensions are large enough for the rows. -/
structure Valid (p : Product R) : Prop where
  lda : max 1 p.shapeA.1 ≤ p.lda
  ldb : max 1 p.shapeB.1 ≤ p.ldb
  ldc : max 1 p.m ≤ p.ldc

instance (p : Product R) : Decidable p.Valid :=
  decidable_of_iff (max 1 p.shapeA.1 ≤ p.lda ∧ max 1 p.shapeB.1 ≤ p.ldb ∧ max 1 p.m ≤ p.ldc)
    ⟨fun h => ⟨h.1, h.2.1, h.2.2⟩, fun h => ⟨h.lda, h.ldb, h.ldc⟩⟩

/-- The entries of the three matrices lie in buffers of these sizes. -/
structure Fits (p : Product R) (a b c : Nat) : Prop where
  a : Inside p.shapeA.1 p.shapeA.2 p.lda a
  b : Inside p.shapeB.1 p.shapeB.2 p.ldb b
  c : Inside p.m p.n p.ldc c

/-- An entry of the first matrix, transposed or not. -/
def opA (p : Product R) (mem : Nat → R) (i l : Nat) : R :=
  mem (p.a + if p.transa then place p.lda l i else place p.lda i l)

def opB (p : Product R) (mem : Nat → R) (l j : Nat) : R :=
  mem (p.b + if p.transb then place p.ldb j l else place p.ldb l j)

variable [CommRing R]

/-- The memory after a product, where it is valid. -/
def run (p : Product R) (mem : Nat → R) : Nat → R := fun x =>
  let i := (x - p.c) % p.ldc
  let j := (x - p.c) / p.ldc
  if p.c ≤ x ∧ i < p.m ∧ j < p.n then
    p.alpha * ∑ l ∈ Finset.range p.k, p.opA mem i l * p.opB mem l j + p.beta * mem x
  else mem x

/-- The entry of the third matrix. -/
theorem run_place {p : Product R} (hp : p.Valid) (mem : Nat → R) {i j : Nat} (hi : i < p.m)
    (hj : j < p.n) : p.run mem (p.c + place p.ldc i j) =
      p.alpha * ∑ l ∈ Finset.range p.k, p.opA mem i l * p.opB mem l j +
        p.beta * mem (p.c + place p.ldc i j) := by
  have hld := hp.ldc
  have hlt : i < p.ldc := by omega
  have hmod : (p.c + place p.ldc i j - p.c) % p.ldc = i := by
    rw [Nat.add_sub_cancel_left, place, Nat.mul_comm, Nat.mul_add_mod, Nat.mod_eq_of_lt hlt]
  have hdiv : (p.c + place p.ldc i j - p.c) / p.ldc = j := by
    rw [Nat.add_sub_cancel_left, place, Nat.mul_comm, Nat.mul_add_div (by omega),
      Nat.div_eq_of_lt hlt, Nat.add_zero]
  unfold run
  simp only [hmod, hdiv]
  rw [if_pos ⟨Nat.le_add_right _ _, hi, hj⟩]

/-- What is not an entry of the third matrix stays. -/
theorem run_of_forall_ne {p : Product R} (hp : p.Valid) (mem : Nat → R) {x : Nat}
    (hx : ∀ i < p.m, ∀ j < p.n, x ≠ p.c + place p.ldc i j) : p.run mem x = mem x := by
  have hld := hp.ldc
  unfold run
  apply if_neg
  rintro ⟨hlow, hi, hj⟩
  apply hx _ hi _ hj
  have hsplit := Nat.div_add_mod (x - p.c) p.ldc
  rw [Nat.mul_comm] at hsplit
  unfold place
  omega

/-- A product that changes each of the first places of the third matrix has as many entries. -/
theorem le_of_run_ne {p : Product R} (hp : p.Valid) (mem : Nat → R) {size : Nat}
    (h : ∀ x < size, p.run mem (p.c + x) ≠ mem (p.c + x)) : size ≤ p.m * p.n := by
  have hsub : Finset.range size ⊆
      (Finset.range p.m ×ˢ Finset.range p.n).image fun e => place p.ldc e.1 e.2 := by
    intro x hx
    by_contra hnot
    apply h x (Finset.mem_range.mp hx)
    apply run_of_forall_ne hp
    intro i hi j hj heq
    apply hnot
    have hplace : place p.ldc i j = x := by omega
    rw [Finset.mem_image]
    exact ⟨(i, j), by simp [hi, hj], hplace⟩
  calc size = (Finset.range size).card := (Finset.card_range size).symm
    _ ≤ _ := Finset.card_le_card hsub
    _ ≤ (Finset.range p.m ×ˢ Finset.range p.n).card := Finset.card_image_le
    _ = p.m * p.n := by rw [Finset.card_product, Finset.card_range, Finset.card_range]

end Product

/-! ## The size of a matrix -/

/-- The last entry decides. -/
theorem inside_iff {rows cols ld size : Nat} (hrows : 0 < rows) (hcols : 0 < cols) :
    Inside rows cols ld size ↔ (cols - 1) * ld + rows ≤ size := by
  constructor
  · intro h
    have hlast := h (rows - 1) (by omega) (cols - 1) (by omega)
    unfold place at hlast
    omega
  · intro h i hi j hj
    have hle : j * ld ≤ (cols - 1) * ld := Nat.mul_le_mul_right ld (by omega)
    unfold place
    omega

/-- A matrix with the number of its columns between two of them fits a buffer for its entries only
where it is square. -/
theorem eq_of_inside {rows cols : Nat} (hrows : 0 < rows) (hle : rows ≤ cols)
    (h : Inside rows cols cols (rows * cols)) : rows = cols := by
  rw [inside_iff hrows (by omega)] at h
  by_contra hne
  obtain ⟨d, rfl⟩ := Nat.exists_eq_add_of_le hle
  obtain ⟨e, rfl⟩ := Nat.exists_eq_add_of_le' (show 1 ≤ d by omega)
  obtain ⟨r, rfl⟩ := Nat.exists_eq_add_of_le' hrows
  rw [show r + 1 + (e + 1) - 1 = r + e + 1 by omega] at h
  nlinarith

/-- A matrix without gaps fits. -/
theorem inside_packed (rows cols : Nat) : Inside rows cols rows (rows * cols) := by
  intro i hi j hj
  have hle : (j + 1) * rows ≤ cols * rows := Nat.mul_le_mul_right rows hj
  rw [Nat.succ_mul, Nat.mul_comm cols] at hle
  unfold place
  omega

end ColumnMajor
