-- Softmax and log-softmax along the last axis (src/math/softmax.cpp, 15-120), in exact
-- arithmetic. The memory holds one number at each place, and pointers count numbers.
-- A tensor of rank 2 is taken row by row; any other tensor is taken as one row.
import Scicompute.Word
import Scicompute.BlockMemory
import Scicompute.Tensor

open BlockMemory (Apart)

namespace sci.math

variable {K : Type*} [Field K] [LinearOrder K]

namespace ref

/-- The loop of `max_val`. -/
def max_val (m : Nat → K) (x n stride : Nat) : K :=
  (List.range' 1 (n - 1)).foldl (fun max_val i => max max_val (m (x + i * stride))) (m x)

def softmax_f32 (exp : K → K) (m : Nat → K) (x out n stride : Nat) : Nat → K :=
  let max_val := max_val m x n stride
  let s := (List.range n).foldl
    (fun (s : (Nat → K) × K) i =>
      let m := Function.update s.1 (out + i * stride) (exp (s.1 (x + i * stride) - max_val))
      (m, s.2 + m (out + i * stride)))
    (m, 0)
  let inv_sum := 1 / s.2
  (List.range n).foldl
    (fun m i => Function.update m (out + i * stride) (m (out + i * stride) * inv_sum)) s.1

def log_softmax_f32 (exp log : K → K) (m : Nat → K) (x out n stride : Nat) : Nat → K :=
  let max_val := max_val m x n stride
  let sum := (List.range n).foldl (fun sum i => sum + exp (m (x + i * stride) - max_val)) 0
  let log_sum := log sum + max_val
  (List.range n).foldl
    (fun m i => Function.update m (out + i * stride) (m (x + i * stride) - log_sum)) m

end ref

/-- What `softmax` and `log_softmax` share. `kernel` is the reference function with stride 1, and
the output is allocated at `out_data` and set to 0. `none` stands for undefined behaviour: a product
`r * cols` out of the range of `int`, or a negative `cols` as a number of elements. -/
def lastAxis (kernel : (Nat → K) → Nat → Nat → Nat → Nat → K) (message : String)
    (shape : TensorShape) (in_data out_data : Nat) (axis : Int) (m : Nat → K) :
    Option (Except String (Nat → K)) :=
  let m := BlockMemory.fill m out_data shape.num_elements 0
  if axis = -1 ∨ axis = (shape.ndims : Int) - 1 then
    if shape.ndims = 2 then
      let rows := Word.toInt (shape.dim 0)
      let cols := Word.toInt (shape.dim 1)
      ((List.range rows.toNat).foldlM
        (fun m (r : Nat) =>
          if 0 ≤ cols ∧ (r : Int) * cols < 2 ^ 31 then
            some (kernel m (in_data + r * cols.toNat) (out_data + r * cols.toNat) cols.toNat)
          else none)
        m).map .ok
    else some (.ok (kernel m in_data out_data shape.num_elements))
  else some (.error message)

def softmax (exp : K → K) : TensorShape → Nat → Nat → Int → (Nat → K) →
    Option (Except String (Nat → K)) :=
  lastAxis (fun m x out n => ref.softmax_f32 exp m x out n 1) "Only last-axis softmax supported"

def log_softmax (exp log : K → K) : TensorShape → Nat → Nat → Int → (Nat → K) →
    Option (Except String (Nat → K)) :=
  lastAxis (fun m x out n => ref.log_softmax_f32 exp log m x out n 1)
    "Only last-axis log_softmax supported"

/-! ## One row -/

/-- The largest of `v 0`, ..., `v (n - 1)`. -/
def rowMax (v : Nat → K) (n : Nat) : K :=
  (List.range' 1 (n - 1)).foldl (fun a i => max a (v i)) (v 0)

/-- The sum of the exponentials, after the largest number is taken off. -/
def expSum (exp : K → K) (v : Nat → K) (n : Nat) : K :=
  ∑ j ∈ Finset.range n, exp (v j - rowMax v n)

def rowSoftmax (exp : K → K) (v : Nat → K) (n i : Nat) : K :=
  exp (v i - rowMax v n) * (1 / expSum exp v n)

def rowLogSoftmax (exp log : K → K) (v : Nat → K) (n i : Nat) : K :=
  v i - (log (expSum exp v n) + rowMax v n)

omit [Field K] in
theorem ref.max_val_eq (m : Nat → K) (x n stride : Nat) :
    ref.max_val m x n stride = rowMax (fun i => m (x + i * stride)) n := by
  simp [ref.max_val, rowMax]

omit [Field K] in
/-- Only the numbers of the row count. -/
theorem rowMax_congr {v w : Nat → K} {n : Nat} (hn : 0 < n) (h : ∀ i < n, v i = w i) :
    rowMax v n = rowMax w n := by
  unfold rowMax
  rw [h 0 hn]
  apply List.foldl_ext
  intro a i hi
  have := List.mem_range'_1.mp hi
  rw [h i (by omega)]

theorem expSum_congr (exp : K → K) {v w : Nat → K} {n : Nat} (hn : 0 < n)
    (h : ∀ i < n, v i = w i) : expSum exp v n = expSum exp w n := by
  apply Finset.sum_congr rfl
  intro i hi
  rw [h i (Finset.mem_range.mp hi), rowMax_congr hn h]

variable {m : Nat → K} {x out n stride : Nat}

/-- The output does not run over the input that is still to be read. -/
def ReadsFirst (x out n stride : Nat) : Prop :=
  ∀ i < n, ∀ j < i, x + i * stride ≠ out + j * stride

theorem out_ne (hstride : 0 < stride) (out n : Nat) :
    ∀ i < n, ∀ j < i, out + j * stride ≠ out + i * stride := by
  intro i _ j hj h
  have := Nat.mul_lt_mul_of_pos_right hj hstride
  omega

theorem ref.softmax_f32_spec (exp : K → K) (hstride : 0 < stride)
    (hread : ReadsFirst x out n stride) :
    (∀ i < n, ref.softmax_f32 exp m x out n stride (out + i * stride) =
      rowSoftmax exp (fun i => m (x + i * stride)) n i) ∧
    ∀ c, (∀ i < n, c ≠ out + i * stride) → ref.softmax_f32 exp m x out n stride c = m c := by
  have hp := out_ne hstride out n
  set v := fun i => m (x + i * stride) with hv
  have hval : ∀ i < n, ∀ m' : Nat → K, (∀ c, (∀ j < i, c ≠ out + j * stride) → m' c = m c) →
      exp (m' (x + i * stride) - rowMax v n) = exp (v i - rowMax v n) := by
    intro i hi m' hm'
    rw [hm' _ (hread i hi)]
  unfold ref.softmax_f32
  rw [ref.max_val_eq, BlockMemory.foldl_range_update_sum hp hval]
  obtain ⟨hexp, hrest⟩ := BlockMemory.foldl_range_update hp hval
  set m1 := (List.range n).foldl (fun m i => Function.update m (out + i * stride)
    (exp (m (x + i * stride) - rowMax v n))) m
  have hval1 : ∀ i < n, ∀ m' : Nat → K, (∀ c, (∀ j < i, c ≠ out + j * stride) → m' c = m1 c) →
      m' (out + i * stride) * (1 / expSum exp v n) = rowSoftmax exp v n i := by
    intro i hi m' hm'
    rw [hm' _ fun j hj => (hp i hi j hj).symm, hexp i hi, rowSoftmax]
  obtain ⟨hdone, hkeep⟩ := BlockMemory.foldl_range_update hp hval1
  exact ⟨hdone, fun c hc => (hkeep c hc).trans (hrest c hc)⟩

theorem ref.log_softmax_f32_spec (exp log : K → K) (hstride : 0 < stride)
    (hread : ReadsFirst x out n stride) :
    (∀ i < n, ref.log_softmax_f32 exp log m x out n stride (out + i * stride) =
      rowLogSoftmax exp log (fun i => m (x + i * stride)) n i) ∧
    ∀ c, (∀ i < n, c ≠ out + i * stride) →
      ref.log_softmax_f32 exp log m x out n stride c = m c := by
  have hsum : ∀ (f : Nat → K) (n : Nat),
      (List.range n).foldl (fun sum i => sum + f i) 0 = ∑ i ∈ Finset.range n, f i := by
    intro f n
    induction n with
    | zero => rfl
    | succ n ih => rw [List.range_succ, List.foldl_concat, ih, Finset.sum_range_succ]
  unfold ref.log_softmax_f32
  rw [ref.max_val_eq, hsum]
  apply BlockMemory.foldl_range_update (out_ne hstride out n)
  intro i hi m' hm'
  rw [hm' _ (hread i hi), rowLogSoftmax, expSum]

/-! ## Functions of one row -/

/-- A function that replaces `n` numbers by `val` of them, and changes nothing else. -/
structure RowKernel (kernel : (Nat → K) → Nat → Nat → Nat → Nat → K)
    (val : (Nat → K) → Nat → Nat → K) : Prop where
  writes : ∀ m x out n, Apart x n out n → ∀ j < n,
    kernel m x out n (out + j) = val (fun i => m (x + i)) n j
  frame : ∀ m x out n, Apart x n out n → ∀ c, ¬ (out ≤ c ∧ c < out + n) →
    kernel m x out n c = m c
  reads : ∀ v w n, (∀ i < n, v i = w i) → ∀ j < n, val v n j = val w n j

theorem readsFirst_of_apart (h : Apart x n out n) : ReadsFirst x out n 1 := by
  intro i hi j hj
  unfold Apart at h
  omega

theorem rowKernel_softmax (exp : K → K) :
    RowKernel (fun m x out n => ref.softmax_f32 exp m x out n 1) (rowSoftmax exp) where
  writes m x out n h j hj := by
    have hspec := (ref.softmax_f32_spec (m := m) exp Nat.one_pos (readsFirst_of_apart h)).1 j hj
    simpa using hspec
  frame m x out n h c hc := by
    apply (ref.softmax_f32_spec exp Nat.one_pos (readsFirst_of_apart h)).2
    intro i hi
    omega
  reads v w n h j hj := by
    unfold rowSoftmax
    rw [expSum_congr exp (by omega) h, h j hj, rowMax_congr (by omega) h]

theorem rowKernel_log_softmax (exp log : K → K) :
    RowKernel (fun m x out n => ref.log_softmax_f32 exp log m x out n 1)
      (rowLogSoftmax exp log) where
  writes m x out n h j hj := by
    have hspec :=
      (ref.log_softmax_f32_spec (m := m) exp log Nat.one_pos (readsFirst_of_apart h)).1 j hj
    simpa using hspec
  frame m x out n h c hc := by
    apply (ref.log_softmax_f32_spec exp log Nat.one_pos (readsFirst_of_apart h)).2
    intro i hi
    omega
  reads v w n h j hj := by
    unfold rowLogSoftmax
    rw [expSum_congr exp (by omega) h, h j hj, rowMax_congr (by omega) h]

end sci.math
