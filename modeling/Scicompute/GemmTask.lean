-- `GemmTask::execute` (src/gpu/gpu_scheduler.cpp, 60-77), which asks the column-major routine for
-- the row-major product by the two operands in the other order. The floats are exact, and a
-- memory has one of them at each place.
import Scicompute.ColumnMajor
import Scicompute.GpuTensorViews

open ColumnMajor Word

namespace sci.gpu

structure GemmTask (R : Type*) where
  A_ : GpuTensorMembers Nat
  B_ : GpuTensorMembers Nat
  C_ : GpuTensorMembers Nat
  alpha_ : R
  beta_ : R
  trans_a_ : Bool
  trans_b_ : Bool

/-- A row-major matrix of floats. -/
structure GpuTensorMembers.IsMatrix (t : GpuTensorMembers Nat) (place rows cols : Nat) : Prop where
  shape : t.shape_ = [(rows : Int), (cols : Int)]
  strides : t.strides_ = GpuTensor.compute_strides t.shape_
  data : t.data_ = some place
  dtype : t.dtype_ = 0

/-- `static_cast<int>(shape()[i])`. -/
def GpuTensorMembers.extent (t : GpuTensorMembers Nat) (i : Nat) : Option Int :=
  t.shape_[i]?.map (·.bmod (2 ^ 32))

namespace GemmTask

variable {R : Type*}

/-- What `cublasSgemm` gets for these sizes and places. -/
def arguments (t : GemmTask R) (m n k a b c : Nat) : Product R where
  transa := t.trans_b_
  transb := t.trans_a_
  m := n
  n := m
  k := k
  alpha := t.alpha_
  a := b
  lda := if t.trans_b_ then n else k
  b := a
  ldb := if t.trans_a_ then k else m
  beta := t.beta_
  c := c
  ldc := m

/-- The product that is asked for. The routine takes no sizes below 0. -/
def product (t : GemmTask R) : Option (Product R) :=
  (t.C_.extent 0).bind fun m =>
  (t.C_.extent 1).bind fun n =>
  (if t.trans_a_ then t.A_.extent 0 else t.A_.extent 1).bind fun k =>
  t.B_.data_.bind fun b =>
  t.A_.data_.bind fun a =>
  t.C_.data_.bind fun c =>
  if 0 ≤ m ∧ 0 ≤ n ∧ 0 ≤ k then some (t.arguments m.toNat n.toNat k.toNat a b c) else none

/-- The memory after the task, where `CUBLAS_CHECK` does not exit. -/
def execute [CommRing R] (t : GemmTask R) (mem : Nat → R) : Option (Nat → R) :=
  t.product.bind fun p => if p.Valid then some (p.run mem) else none

/-- An entry of a row-major matrix, transposed if so asked, where it then has this many rows and
columns. -/
def opEntry (mem : Nat → R) (trans : Bool) (place rows cols i j : Nat) : R :=
  mem (place + if trans then j * rows + i else i * cols + j)

/-- The arguments are valid, the matrices they describe lie in the buffers of the tensors, and the
third tensor gets the row-major product. -/
structure Multiplies [CommRing R] (t : GemmTask R) (m n k a b c : Nat) (mem : Nat → R) : Prop where
  valid : ∃ p, t.product = some p ∧ p.Valid ∧ p.Fits (k * n) (m * k) (m * n)
  entries : ∃ after, t.execute mem = some after ∧ ∀ i < m, ∀ j < n, after (c + (i * n + j)) =
    t.alpha_ * ∑ l ∈ Finset.range k,
        opEntry mem t.trans_a_ a m k i l * opEntry mem t.trans_b_ b k n l j +
      t.beta_ * mem (c + (i * n + j))

/-- The three tensors have the shapes of a product. -/
structure HasShapes (t : GemmTask R) (m n k a b c : Nat) : Prop where
  A : if t.trans_a_ then t.A_.IsMatrix a k m else t.A_.IsMatrix a m k
  B : if t.trans_b_ then t.B_.IsMatrix b n k else t.B_.IsMatrix b k n
  C : t.C_.IsMatrix c m n

variable {t : GemmTask R} {m n k a b c : Nat}

theorem extent_eq {t : GpuTensorMembers Nat} {i d : Nat} (h : t.shape_[i]? = some (d : Int)) :
    t.extent i = some (toInt d) := by
  unfold GpuTensorMembers.extent toInt
  rw [h, Option.map_some]

theorem product_eq (ht : t.HasShapes m n k a b c) : t.product =
    if 0 ≤ toInt m ∧ 0 ≤ toInt n ∧ 0 ≤ toInt k then
      some (t.arguments (toInt m).toNat (toInt n).toNat (toInt k).toNat a b c) else none := by
  obtain ⟨hA, hB, hC⟩ := ht
  have hm : t.C_.extent 0 = some (toInt m) := extent_eq (by rw [hC.shape]; rfl)
  have hn : t.C_.extent 1 = some (toInt n) := extent_eq (by rw [hC.shape]; rfl)
  have hk : (if t.trans_a_ then t.A_.extent 0 else t.A_.extent 1) = some (toInt k) := by
    split_ifs at hA ⊢
    all_goals
      apply extent_eq
      rw [hA.shape]
      rfl
  have ha : t.A_.data_ = some a := by
    split_ifs at hA
    all_goals exact hA.data
  have hb : t.B_.data_ = some b := by
    split_ifs at hB
    all_goals exact hB.data
  unfold product
  rw [hm, hn, hk, ha, hb, hC.data, Option.bind_some, Option.bind_some, Option.bind_some,
    Option.bind_some, Option.bind_some, Option.bind_some]

/-- Sizes below `2^31` are given as they are. -/
theorem product_of_lt (ht : t.HasShapes m n k a b c) (hm : m < 2 ^ 31) (hn : n < 2 ^ 31)
    (hk : k < 2 ^ 31) : t.product = some (t.arguments m n k a b c) := by
  rw [product_eq ht, toInt_of_lt hm, toInt_of_lt hn, toInt_of_lt hk, if_pos (by omega)]
  simp only [Int.toNat_natCast]

/-- The leading dimensions are the numbers of the columns, so only square matrices fit. -/
theorem eq_of_fits (hn : 0 < n) (hk : 0 < k) (hp : (t.arguments m n k a b c).Valid)
    (h : (t.arguments m n k a b c).Fits (k * n) (m * k) (m * n)) : m = n ∧ n = k := by
  have hc : n ≤ m := (le_max_right 1 n).trans hp.ldc
  have hfitc : Inside n m m (m * n) := h.c
  rw [Nat.mul_comm] at hfitc
  have hnm : n = m := eq_of_inside hn hc hfitc
  have hb := (le_max_right 1 _).trans hp.lda
  have hfitb := h.a
  unfold Product.shapeA arguments at hb hfitb
  simp only at hb hfitb
  constructor
  · exact hnm.symm
  · split_ifs at hb hfitb
    · exact (eq_of_inside hk hb hfitb).symm
    · rw [Nat.mul_comm] at hfitb
      exact eq_of_inside hn hb hfitb

/-- Square matrices are multiplied. -/
theorem multiplies_of_square [CommRing R] (hm : 0 < m) (mem : Nat → R)
    (h : t.product = some (t.arguments m m m a b c)) : t.Multiplies m m m a b c mem := by
  have hone : max 1 m ≤ m := max_le hm le_rfl
  have hvalid : (t.arguments m m m a b c).Valid := by
    unfold arguments
    constructor
    all_goals
      simp only [Product.shapeA, Product.shapeB, ite_self]
      exact hone
  constructor
  · refine ⟨_, h, hvalid, ?_⟩
    unfold arguments
    constructor
    all_goals
      simp only [Product.shapeA, Product.shapeB, ite_self]
      exact inside_packed m m
  · refine ⟨(t.arguments m m m a b c).run mem, ?_, ?_⟩
    · unfold execute
      rw [h, Option.bind_some, if_pos hvalid]
    · intro i hi j hj
      have hentry := Product.run_place hvalid mem hj hi
      have hA : ∀ l, (t.arguments m m m a b c).opA mem j l = opEntry mem t.trans_b_ b m m l j := by
        intro l
        unfold Product.opA opEntry arguments place
        simp only [ite_self]
      have hB : ∀ l, (t.arguments m m m a b c).opB mem l i = opEntry mem t.trans_a_ a m m i l := by
        intro l
        unfold Product.opB opEntry arguments place
        simp only [ite_self]
      simp only [hA, hB] at hentry
      rw [Finset.sum_congr rfl fun l _ => mul_comm _ _]
      exact hentry

/-- Sizes below `2^31` are right only where they are one. -/
theorem multiplies_iff_square [CommRing R] (hm : 0 < m) (hn : 0 < n) (hk : 0 < k)
    (ht : t.HasShapes m n k a b c) (hmlt : m < 2 ^ 31) (hnlt : n < 2 ^ 31) (hklt : k < 2 ^ 31)
    (mem : Nat → R) : t.Multiplies m n k a b c mem ↔ m = n ∧ n = k := by
  have hproduct := product_of_lt ht hmlt hnlt hklt
  constructor
  · intro h
    obtain ⟨p, hp, hvalid, hfits⟩ := h.valid
    rw [hproduct, Option.some.injEq] at hp
    subst hp
    exact eq_of_fits hn hk hvalid hfits
  · rintro ⟨rfl, rfl⟩
    exact multiplies_of_square hm mem hproduct

/-- The arguments of a task that has run. -/
theorem Multiplies.exists_run [CommRing R] {mem : Nat → R} (h : t.Multiplies m n k a b c mem)
    (ht : t.HasShapes m n k a b c) :
    (t.arguments (toInt m).toNat (toInt n).toNat (toInt k).toNat a b c).Valid ∧
      t.execute mem =
        some ((t.arguments (toInt m).toNat (toInt n).toNat (toInt k).toNat a b c).run mem) := by
  obtain ⟨p, hp, hvalid, -⟩ := h.valid
  have hexecute : t.execute mem = some (p.run mem) := by
    unfold execute
    rw [hp, Option.bind_some, if_pos hvalid]
  rw [product_eq ht] at hp
  split_ifs at hp
  rw [Option.some.injEq] at hp
  rw [hp]
  exact ⟨hvalid, hexecute⟩

/-- A product that clears ones has an entry for each of them. -/
theorem le_of_clears [CommRing R] [Nontrivial R] {m' n' k' : Nat} (hn : 0 < n)
    (hvalid : (t.arguments m' n' k' a b c).Valid)
    (h : ∀ i < m, ∀ j < n, (t.arguments m' n' k' a b c).run (fun _ => 1) (c + (i * n + j)) = 0) :
    m * n ≤ n' * m' := by
  apply Product.le_of_run_ne hvalid fun _ => 1
  intro x hx
  have hdiv : x / n < m := Nat.div_lt_of_lt_mul (by rwa [Nat.mul_comm])
  have hentry := h (x / n) hdiv (x % n) (Nat.mod_lt _ hn)
  rw [Nat.div_add_mod'] at hentry
  exact hentry.trans_ne zero_ne_one

/-- The first entry of a product of ones. -/
theorem run_ones [CommRing R] {m' n' k' : Nat} (hm : 0 < m') (hn : 0 < n')
    (hvalid : (t.arguments m' n' k' a b c).Valid) :
    (t.arguments m' n' k' a b c).run (fun _ => 1) c = t.alpha_ * k' + t.beta_ := by
  have hrun := Product.run_place hvalid (fun _ => (1 : R)) (i := 0) (j := 0) hn hm
  have hplace : (t.arguments m' n' k' a b c).c + place (t.arguments m' n' k' a b c).ldc 0 0 = c := by
    simp [place, arguments]
  rw [hplace] at hrun
  simpa [Product.opA, Product.opB, arguments] using hrun

/-- A task that multiplies all numbers has not lost a bit of a size. -/
theorem lt_of_multiplies [CommRing R] [CharZero R] {A B C : GpuTensorMembers Nat}
    {trans_a trans_b : Bool} (hm : 0 < m) (hn : 0 < n)
    (ht : ∀ alpha beta : R,
      (GemmTask.mk A B C alpha beta trans_a trans_b).HasShapes m n k a b c)
    (h : ∀ (alpha beta : R) (mem : Nat → R),
      (GemmTask.mk A B C alpha beta trans_a trans_b).Multiplies m n k a b c mem) :
    m < 2 ^ 31 ∧ n < 2 ^ 31 ∧ k < 2 ^ 31 := by
  have hmint := toNat_toInt_le m
  have hnint := toNat_toInt_le n
  have hkint := toNat_toInt_le k
  -- all places of the result are cleared for the factors 0
  have hcells : m * n ≤ (toInt n).toNat * (toInt m).toNat := by
    obtain ⟨after, hafter, hentries⟩ := (h 0 0 fun _ => 1).entries
    obtain ⟨hvalid, hrun⟩ := (h 0 0 fun _ => 1).exists_run (ht 0 0)
    rw [hrun, Option.some.injEq] at hafter
    apply le_of_clears hn hvalid
    intro i hi j hj
    rw [hafter, hentries i hi j hj]
    simp
  have hmeq : (toInt m).toNat = m := by
    by_contra hne
    have hlt : (toInt m).toNat < m := by omega
    have hless : (toInt n).toNat * (toInt m).toNat < m * n := by
      calc (toInt n).toNat * (toInt m).toNat ≤ n * (toInt m).toNat :=
            Nat.mul_le_mul_right _ hnint.1
        _ < n * m := Nat.mul_lt_mul_of_pos_left hlt hn
        _ = m * n := Nat.mul_comm n m
    omega
  have hneq : (toInt n).toNat = n := by
    rw [hmeq, Nat.mul_comm m] at hcells
    exact Nat.le_antisymm hnint.1 (Nat.le_of_mul_le_mul_right hcells hm)
  -- and a sum of ones is their number
  have hkeq : (toInt k).toNat = k := by
    obtain ⟨after, hafter, hentries⟩ := (h 1 0 fun _ => 1).entries
    obtain ⟨hvalid, hrun⟩ := (h 1 0 fun _ => 1).exists_run (ht 1 0)
    rw [hrun, Option.some.injEq] at hafter
    have hsum := run_ones (by omega) (by omega) hvalid
    have hentry := hentries 0 hm 0 hn
    rw [Nat.zero_mul, Nat.add_zero, ← hafter, hsum] at hentry
    have hcast : ((toInt k).toNat : R) = (k : R) := by
      simpa only [opEntry, one_mul, zero_mul, add_zero, Finset.sum_const, Finset.card_range,
        nsmul_eq_mul, mul_one] using hentry
    exact Nat.cast_injective hcast
  exact ⟨hmint.2 hmeq, hnint.2 hneq, hkint.2 hkeq⟩

/-- A task multiplies matrices of floats exactly where they are square and of one size below
`2^31`. Where no size reaches `2^31`, this holds of each run. -/
theorem multiplies_iff [CommRing R] [CharZero R] {A B C : GpuTensorMembers Nat}
    {trans_a trans_b : Bool} (hm : 0 < m) (hn : 0 < n) (hk : 0 < k)
    (ht : ∀ alpha beta : R,
      (GemmTask.mk A B C alpha beta trans_a trans_b).HasShapes m n k a b c) :
    ((∀ (alpha beta : R) (mem : Nat → R),
        (GemmTask.mk A B C alpha beta trans_a trans_b).Multiplies m n k a b c mem) ↔
      m = n ∧ n = k ∧ k < 2 ^ 31) ∧
    (m < 2 ^ 31 → n < 2 ^ 31 → k < 2 ^ 31 → ∀ (alpha beta : R) (mem : Nat → R),
      (GemmTask.mk A B C alpha beta trans_a trans_b).Multiplies m n k a b c mem ↔
        m = n ∧ n = k) := by
  constructor
  · constructor
    · intro h
      obtain ⟨hmlt, hnlt, hklt⟩ := lt_of_multiplies hm hn ht h
      obtain ⟨hmn, hnk⟩ := (multiplies_iff_square hm hn hk (ht 0 0) hmlt hnlt hklt _).mp
        (h 0 0 fun _ => 0)
      exact ⟨hmn, hnk, hklt⟩
    · rintro ⟨rfl, rfl, hlt⟩ alpha beta mem
      exact (multiplies_iff_square hm hm hm (ht alpha beta) hlt hlt hlt mem).mpr ⟨rfl, rfl⟩
  · intro hmlt hnlt hklt alpha beta mem
    exact multiplies_iff_square hm hn hk (ht alpha beta) hmlt hnlt hklt mem

/-- A matrix in a buffer of its own. -/
def matrix (place rows cols : Nat) : GpuTensorMembers Nat :=
  ⟨⟨[(rows : Int), (cols : Int)], GpuTensor.compute_strides [(rows : Int), (cols : Int)]⟩,
    some place, 0, true⟩

theorem isMatrix_matrix (place rows cols : Nat) :
    (matrix place rows cols).IsMatrix place rows cols := ⟨rfl, rfl, rfl, rfl⟩

theorem hasShapes_two (alpha beta : Int) : (GemmTask.mk (matrix 0 2 2) (matrix 4 2 2)
    (matrix 8 2 2) alpha beta false true).HasShapes 2 2 2 0 4 8 :=
  ⟨isMatrix_matrix 0 2 2, isMatrix_matrix 4 2 2, isMatrix_matrix 8 2 2⟩

/-- Two by two entries, with the second matrix transposed. -/
theorem two_by_two_multiplies :
    (GemmTask.mk (matrix 0 2 2) (matrix 4 2 2) (matrix 8 2 2) (3 : Int) 5 false true).Multiplies
      2 2 2 0 4 8 fun x => x :=
  (multiplies_iff (by decide) (by decide) (by decide) hasShapes_two).1.mpr
    ⟨rfl, rfl, by decide⟩ 3 5 _

/-- A column times a row of one entry: the first leading dimension is too small. -/
theorem column_is_not_multiplied :
    ¬ ∀ (t : GemmTask Int) (m n k a b c : Nat) (mem : Nat → Int), 0 < m → 0 < n → 0 < k →
      t.HasShapes m n k a b c → t.Multiplies m n k a b c mem := by
  intro h
  have hshapes : (GemmTask.mk (matrix 0 2 1) (matrix 2 1 1) (matrix 3 2 1) (1 : Int) 0 false
      false).HasShapes 2 1 1 0 2 3 :=
    ⟨isMatrix_matrix 0 2 1, isMatrix_matrix 2 1 1, isMatrix_matrix 3 2 1⟩
  have hright := h _ 2 1 1 0 2 3 (fun _ => 0) (by decide) (by decide) (by decide) hshapes
  have hsquare := (multiplies_iff_square (by decide) (by decide) (by decide) hshapes (by decide)
    (by decide) (by decide) _).mp hright
  exact absurd hsquare.1 (by decide)

end GemmTask

end sci.gpu
