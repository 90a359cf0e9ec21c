-- What `ref::softmax_f32` and `ref::log_softmax_f32` compute over the real numbers
-- (src/math/softmax.cpp, 15-62): the quotient of the exponentials and its logarithm,
-- for every stride, in place or into other memory.
import Scicompute.Softmax

namespace sci.math

/-- The output is the input, or has no place in common with it. -/
def SameOrDisjoint (x out n stride : Nat) : Prop :=
  out = x ∨ ∀ i < n, ∀ j < n, x + i * stride ≠ out + j * stride

/-- `y` is the softmax of the `n` numbers `v`. -/
structure IsSoftmax (v y : Nat → ℝ) (n : Nat) : Prop where
  value : ∀ i < n, y i = Real.exp (v i) / ∑ j ∈ Finset.range n, Real.exp (v j)
  pos : ∀ i < n, 0 < y i
  sum : ∑ i ∈ Finset.range n, y i = 1
  le_iff : ∀ i < n, ∀ j < n, y i ≤ y j ↔ v i ≤ v j

variable {v w y : Nat → ℝ} {m : Nat → ℝ} {x out n stride i : Nat}

theorem SameOrDisjoint.readsFirst (h : SameOrDisjoint x out n stride) (hstride : 0 < stride) :
    ReadsFirst x out n stride := by
  intro i hi j hj
  rcases h with rfl | h
  · exact (out_ne hstride out n i hi j hj).symm
  · exact h i hi j (by omega)

/-! ## One row of real numbers -/

theorem sum_exp_pos (v : Nat → ℝ) (hn : 0 < n) : 0 < ∑ j ∈ Finset.range n, Real.exp (v j) := by
  apply Finset.sum_pos fun j _ => Real.exp_pos (v j)
  exact ⟨0, Finset.mem_range.mpr hn⟩

/-- The number that is taken off first is a common factor of the exponentials. -/
theorem expSum_exp (v : Nat → ℝ) (n : Nat) :
    expSum Real.exp v n = (∑ j ∈ Finset.range n, Real.exp (v j)) / Real.exp (rowMax v n) := by
  unfold expSum
  rw [Finset.sum_div]
  apply Finset.sum_congr rfl
  intro j _
  exact Real.exp_sub _ _

theorem rowSoftmax_exp (v : Nat → ℝ) (n i : Nat) :
    rowSoftmax Real.exp v n i = Real.exp (v i) / ∑ j ∈ Finset.range n, Real.exp (v j) := by
  have hmax := Real.exp_ne_zero (rowMax v n)
  unfold rowSoftmax
  rw [expSum_exp, Real.exp_sub, one_div_div, div_mul_div_cancel₀ hmax]

theorem rowLogSoftmax_exp (v : Nat → ℝ) (hn : 0 < n) (i : Nat) :
    rowLogSoftmax Real.exp Real.log v n i = Real.log (rowSoftmax Real.exp v n i) := by
  have hsum := (sum_exp_pos v hn).ne'
  unfold rowLogSoftmax
  rw [expSum_exp, rowSoftmax_exp, Real.log_div hsum (Real.exp_ne_zero _),
    Real.log_div (Real.exp_ne_zero _) hsum, Real.log_exp, Real.log_exp, sub_add_cancel]

theorem isSoftmax_rowSoftmax (v : Nat → ℝ) (hn : 0 < n) :
    IsSoftmax v (rowSoftmax Real.exp v n) n := by
  have hsum := sum_exp_pos v hn
  refine ⟨fun i _ => rowSoftmax_exp v n i, ?_, ?_, ?_⟩
  · intro i _
    rw [rowSoftmax_exp]
    exact div_pos (Real.exp_pos _) hsum
  · calc ∑ i ∈ Finset.range n, rowSoftmax Real.exp v n i
        = ∑ i ∈ Finset.range n, Real.exp (v i) / ∑ j ∈ Finset.range n, Real.exp (v j) :=
          Finset.sum_congr rfl fun i _ => rowSoftmax_exp v n i
      _ = 1 := by rw [← Finset.sum_div, div_self hsum.ne']
  · intro i _ j _
    rw [rowSoftmax_exp, rowSoftmax_exp, div_le_div_iff_of_pos_right hsum, Real.exp_le_exp]

theorem IsSoftmax.congr {z : Nat → ℝ} (h : IsSoftmax v y n) (hz : ∀ i < n, z i = y i) :
    IsSoftmax v z n := by
  refine ⟨?_, ?_, ?_, ?_⟩
  · intro i hi
    rw [hz i hi, h.value i hi]
  · intro i hi
    rw [hz i hi]
    exact h.pos i hi
  · rw [← h.sum]
    exact Finset.sum_congr rfl fun i hi => hz i (Finset.mem_range.mp hi)
  · intro i hi j hj
    rw [hz i hi, hz j hj]
    exact h.le_iff i hi j hj

/-- A constant that is added to all numbers is a common factor of their exponentials. -/
theorem rowSoftmax_add (c : ℝ) (hw : ∀ j < n, w j = v j + c) (hi : i < n) :
    rowSoftmax Real.exp w n i = rowSoftmax Real.exp v n i := by
  have hsum : ∑ j ∈ Finset.range n, Real.exp (w j) =
      (∑ j ∈ Finset.range n, Real.exp (v j)) * Real.exp c := by
    rw [Finset.sum_mul]
    apply Finset.sum_congr rfl
    intro j hj
    rw [hw j (Finset.mem_range.mp hj), Real.exp_add]
  rw [rowSoftmax_exp, rowSoftmax_exp, hsum, hw i hi, Real.exp_add,
    mul_div_mul_right _ _ (Real.exp_ne_zero c)]

/-! ## The two functions -/

/-- `softmax_f32` leaves the softmax of its input and `log_softmax_f32` the logarithms, both leave
the rest of the memory as it is, and a constant that is added to all numbers of the input changes
nothing of the results. -/
theorem softmax_f32_is_the_quotient_of_exponentials (m : Nat → ℝ) (hn : 1 ≤ n) (hstride : 1 ≤ stride)
    (hout : SameOrDisjoint x out n stride) :
    IsSoftmax (fun i => m (x + i * stride))
      (fun i => ref.softmax_f32 Real.exp m x out n stride (out + i * stride)) n ∧
    (∀ i < n, ref.log_softmax_f32 Real.exp Real.log m x out n stride (out + i * stride) =
      Real.log (ref.softmax_f32 Real.exp m x out n stride (out + i * stride))) ∧
    (∀ a, (∀ i < n, a ≠ out + i * stride) →
      ref.softmax_f32 Real.exp m x out n stride a = m a ∧
      ref.log_softmax_f32 Real.exp Real.log m x out n stride a = m a) ∧
    ∀ (m' : Nat → ℝ) (c : ℝ), (∀ i < n, m' (x + i * stride) = m (x + i * stride) + c) →
      ∀ i < n, ref.softmax_f32 Real.exp m' x out n stride (out + i * stride) =
          ref.softmax_f32 Real.exp m x out n stride (out + i * stride) ∧
        ref.log_softmax_f32 Real.exp Real.log m' x out n stride (out + i * stride) =
          ref.log_softmax_f32 Real.exp Real.log m x out n stride (out + i * stride) := by
  have hread := hout.readsFirst hstride
  have hsoft := fun m : Nat → ℝ =>
    ref.softmax_f32_spec (m := m) (n := n) Real.exp hstride hread
  have hlog := fun m : Nat → ℝ =>
    ref.log_softmax_f32_spec (m := m) (n := n) Real.exp Real.log hstride hread
  have hlogs : ∀ m : Nat → ℝ, ∀ i < n,
      ref.log_softmax_f32 Real.exp Real.log m x out n stride (out + i * stride) =
        Real.log (ref.softmax_f32 Real.exp m x out n stride (out + i * stride)) := by
    intro m i hi
    rw [(hlog m).1 i hi, (hsoft m).1 i hi, rowLogSoftmax_exp _ hn]
  refine ⟨(isSoftmax_rowSoftmax _ hn).congr (hsoft m).1, hlogs m, ?_, ?_⟩
  · intro a ha
    exact ⟨(hsoft m).2 a ha, (hlog m).2 a ha⟩
  · intro m' c hm' i hi
    have hsame : ref.softmax_f32 Real.exp m' x out n stride (out + i * stride) =
        ref.softmax_f32 Real.exp m x out n stride (out + i * stride) := by
      rw [(hsoft m').1 i hi, (hsoft m).1 i hi]
      exact rowSoftmax_add c hm' hi
    refine ⟨hsame, ?_⟩
    rw [hlogs m' i hi, hlogs m i hi, hsame]

/-- Three numbers with a stride of 2, in place. -/
theorem every_other_number_in_place :
    IsSoftmax (fun i => ((10 + i * 2 : Nat) : ℝ))
      (fun i => ref.softmax_f32 Real.exp Nat.cast 10 10 3 2 (10 + i * 2)) 3 :=
  (softmax_f32_is_the_quotient_of_exponentials Nat.cast (by decide) (by decide) (Or.inl rfl)).1

end sci.math
