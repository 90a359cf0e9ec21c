-- What the normalizations do to a row of real numbers (src/math/normalization.cpp, 15-66): layer
-- normalization leaves numbers with mean 0 and a variance just below 1, in the order of the row.
-- It does not see a number that is added to the row or a positive factor, and it is RMS
-- normalization of the row without its mean.
import Scicompute.Normalization

namespace sci.int64.math

variable {v w y : Nat → ℝ} {n i j : Nat} {eps a b : ℝ}

/-! ## One row -/

/-- `y` are the numbers `v`, moved and scaled. -/
structure Standardizes (v y : Nat → ℝ) (n : Nat) (eps : ℝ) : Prop where
  mean : rowMean y n = 0
  var : rowVar y n = rowVar v n / (rowVar v n + eps)
  le_iff : ∀ i < n, ∀ j < n, y i ≤ y j ↔ v i ≤ v j
  bounded : ∀ i < n, |y i| ≤ √n

/-- A row without parameters. -/
noncomputable def standardize (eps : ℝ) (v : Nat → ℝ) (n c : Nat) : ℝ :=
  (v c - rowMean v n) * (1 / √(rowVar v n + eps))

theorem rowLayerNorm_eq (eps : ℝ) (v weight bias : Nat → ℝ) (n c : Nat) :
    rowLayerNorm Real.sqrt eps v weight bias n c = standardize eps v n c * weight c + bias c := rfl

theorem rowVar_nonneg (v : Nat → ℝ) (n : Nat) : 0 ≤ rowVar v n := by
  apply div_nonneg
  · exact Finset.sum_nonneg fun j _ => mul_self_nonneg _
  · exact Nat.cast_nonneg n

/-- A row that is moved and scaled. -/
theorem rowMean_affine (hn : 0 < n) (hw : ∀ j < n, w j = a * v j + b) :
    rowMean w n = a * rowMean v n + b := by
  have hcast : (n : ℝ) ≠ 0 := by
    rw [Nat.cast_ne_zero]
    omega
  have hsum : ∑ j ∈ Finset.range n, w j = a * ∑ j ∈ Finset.range n, v j + n * b := by
    calc ∑ j ∈ Finset.range n, w j
        = ∑ j ∈ Finset.range n, (a * v j + b) :=
          Finset.sum_congr rfl fun j hj => hw j (Finset.mem_range.mp hj)
      _ = a * ∑ j ∈ Finset.range n, v j + n * b := by
          rw [Finset.sum_add_distrib, ← Finset.mul_sum, Finset.sum_const, Finset.card_range,
            nsmul_eq_mul]
  unfold rowMean
  rw [hsum, add_div, mul_div_assoc, mul_div_cancel_left₀ _ hcast]

theorem rowVar_affine (hn : 0 < n) (hw : ∀ j < n, w j = a * v j + b) :
    rowVar w n = a ^ 2 * rowVar v n := by
  unfold rowVar
  rw [rowMean_affine hn hw, ← mul_div_assoc, Finset.mul_sum]
  congr 1
  apply Finset.sum_congr rfl
  intro j hj
  rw [hw j (Finset.mem_range.mp hj)]
  ring

theorem standardize_pos (v : Nat → ℝ) (n : Nat) (heps : 0 < eps) :
    0 < 1 / √(rowVar v n + eps) := by
  apply one_div_pos.mpr
  apply Real.sqrt_pos.mpr
  exact add_pos_of_nonneg_of_pos (rowVar_nonneg v n) heps

/-- The factor, squared. -/
theorem standardize_factor (v : Nat → ℝ) (n : Nat) (heps : 0 < eps) :
    (1 / √(rowVar v n + eps)) ^ 2 = 1 / (rowVar v n + eps) := by
  have hnonneg : 0 ≤ rowVar v n + eps := add_nonneg (rowVar_nonneg v n) heps.le
  rw [div_pow, one_pow, Real.sq_sqrt hnonneg]

theorem standardizes (v : Nat → ℝ) (hn : 0 < n) (heps : 0 < eps) :
    Standardizes v (standardize eps v n) n eps := by
  have hfactor := standardize_factor v n heps
  have hpos := standardize_pos v n heps
  set s := 1 / √(rowVar v n + eps) with hs
  have haffine : ∀ j < n, standardize eps v n j = s * v j + -(s * rowMean v n) := by
    intro j _
    unfold standardize
    rw [← hs]
    ring
  have hmean : rowMean (standardize eps v n) n = 0 := by
    rw [rowMean_affine hn haffine, add_neg_cancel]
  have hvar : rowVar (standardize eps v n) n = rowVar v n / (rowVar v n + eps) := by
    rw [rowVar_affine hn haffine, hfactor, one_div_mul_eq_div]
  refine ⟨hmean, hvar, ?_, ?_⟩
  · intro i hi j hj
    rw [haffine i hi, haffine j hj, add_le_add_iff_right]
    exact mul_le_mul_iff_of_pos_left hpos
  · intro i hi
    have hbelow : rowVar (standardize eps v n) n ≤ 1 := by
      have hsum : 0 < rowVar v n + eps := add_pos_of_nonneg_of_pos (rowVar_nonneg v n) heps
      rw [hvar, div_le_one hsum]
      exact le_add_of_nonneg_right heps.le
    have hcast : (0 : ℝ) < n := Nat.cast_pos.mpr hn
    apply Real.abs_le_sqrt
    -- one square is no more than all of them
    calc standardize eps v n i ^ 2
        = (standardize eps v n i - rowMean (standardize eps v n) n) *
            (standardize eps v n i - rowMean (standardize eps v n) n) := by
          rw [hmean, sub_zero, sq]
      _ ≤ ∑ j ∈ Finset.range n, (standardize eps v n j - rowMean (standardize eps v n) n) *
            (standardize eps v n j - rowMean (standardize eps v n) n) :=
          Finset.single_le_sum (f := fun j => (standardize eps v n j -
            rowMean (standardize eps v n) n) * (standardize eps v n j -
            rowMean (standardize eps v n) n)) (fun j _ => mul_self_nonneg _)
            (Finset.mem_range.mpr hi)
      _ = rowVar (standardize eps v n) n * n := by
          unfold rowVar
          rw [div_mul_cancel₀ _ hcast.ne']
      _ ≤ n := mul_le_of_le_one_left hcast.le hbelow

/-- What is moved and scaled becomes the same, when `eps` is scaled as well. -/
theorem standardize_affine (hn : 0 < n) (ha : 0 < a) (hw : ∀ j < n, w j = a * v j + b)
    (hi : i < n) : standardize (a ^ 2 * eps) w n i = standardize eps v n i := by
  unfold standardize
  rw [rowMean_affine hn hw, rowVar_affine hn hw, hw i hi, ← mul_add,
    Real.sqrt_mul (sq_nonneg a), Real.sqrt_sq ha.le]
  have hcancel : a * (1 / (a * √(rowVar v n + eps))) = 1 / √(rowVar v n + eps) := by
    rw [mul_one_div, div_mul_cancel_left₀ ha.ne', one_div]
  rw [← hcancel]
  ring

/-- The root mean square of numbers with mean 0 is their standard deviation. -/
theorem rowRmsNorm_of_centered (weight : Nat → ℝ)
    (hw : ∀ j < n, w j = v j - rowMean v n) (hi : i < n) :
    rowRmsNorm Real.sqrt eps w weight n i = standardize eps v n i * weight i := by
  have hsquares : (∑ j ∈ Finset.range n, w j * w j) / n = rowVar v n := by
    unfold rowVar
    congr 1
    apply Finset.sum_congr rfl
    intro j hj
    rw [hw j (Finset.mem_range.mp hj)]
  unfold rowRmsNorm standardize
  rw [hsquares, hw i hi]

/-! ## The memory -/

variable {x weight bias out : Floats} {m m₁ : Nat → ℝ} {p q rows cols r c : Nat}

/-- The row `r` of a matrix at `p`. -/
def rowAt (m : Nat → ℝ) (p cols r : Nat) : Nat → ℝ := fun c => m (p + (r * cols + c))

theorem rowAt_overwrite (f : (Nat → ℝ) → Nat → ℝ) (m₁ : Nat → ℝ) (hr : r < rows) (hc : c < cols) :
    rowAt (overwrite m q (rows * cols) (mapRows f m₁ p cols)) q cols r c =
      f (rowAt m₁ p cols r) c := by
  have hrow := RowMajor.row_end_le cols hr
  unfold rowAt
  rw [overwrite_inside _ _ _ (by omega), mapRows_index _ _ _ hc]

/-- The rows of the output are the rows `y`, weighted and moved by the parameters. -/
def LayerNormed (m m' : Nat → ℝ) (y : Nat → Nat → ℝ) (weight bias : Floats) (q rows cols : Nat) :
    Prop :=
  ∀ r < rows, ∀ c < cols,
    rowAt m' q cols r c = y r c * paramNumbers weight 1 m c + paramNumbers bias 0 m c

/-- Layer normalization standardizes the rows. Rows that are moved and scaled become the same, and
RMS normalization of the rows without their means gives the same up to the bias. -/
theorem layer_norm_standardizes (h : RowsFit x out p q rows cols) (hcols : 0 < cols)
    (heps : 0 < eps) (hweight : ParamFits weight q (rows * cols) cols)
    (hbias : ParamFits bias q (rows * cols) cols) (m : Nat → ℝ) :
    ∃ y : Nat → Nat → ℝ, (∀ r < rows, Standardizes (rowAt m p cols r) (y r) cols eps) ∧
      (∃ m', ref.layer_norm_f32 Real.sqrt x weight bias out rows cols eps m = some m' ∧
        LayerNormed m m' y weight bias q rows cols) ∧
      (∀ a > 0, ∀ (b : Nat → ℝ) (m₁ : Nat → ℝ),
        (∀ r < rows, ∀ c < cols, rowAt m₁ p cols r c = a * rowAt m p cols r c + b r) →
        ∃ m', ref.layer_norm_f32 Real.sqrt x weight bias out rows cols (a ^ 2 * eps) m₁ = some m' ∧
          LayerNormed m₁ m' y weight bias q rows cols) ∧
      ∀ m₁ : Nat → ℝ, (∀ r < rows, ∀ c < cols, rowAt m₁ p cols r c =
          rowAt m p cols r c - rowMean (rowAt m p cols r) cols) →
        ∃ m', ref.rms_norm_f32 Real.sqrt x weight out rows cols eps m₁ = some m' ∧
          ∀ r < rows, ∀ c < cols,
            rowAt m' q cols r c = y r c * paramNumbers weight 1 m₁ c := by
  refine ⟨fun r => standardize eps (rowAt m p cols r) cols,
    fun r _ => standardizes _ hcols heps, ?_, ?_, ?_⟩
  · refine ⟨_, ref.layer_norm_f32_eq h hweight hbias _ _ m, fun r hr c hc => ?_⟩
    rw [rowAt_overwrite _ _ hr hc, rowLayerNorm_eq]
  · intro a ha b m₁ hm₁
    refine ⟨_, ref.layer_norm_f32_eq h hweight hbias _ _ m₁, fun r hr c hc => ?_⟩
    rw [rowAt_overwrite _ _ hr hc, rowLayerNorm_eq, standardize_affine hcols ha (hm₁ r hr) hc]
  · intro m₁ hm₁
    refine ⟨_, ref.rms_norm_f32_eq h hweight _ _ m₁, fun r hr c hc => ?_⟩
    rw [rowAt_overwrite _ _ hr hc, rowRmsNorm_of_centered _ (hm₁ r hr) hc]

/-- Two rows of three numbers, with weights and no bias. -/
theorem two_rows_are_standardized : ∃ (y : Nat → Nat → ℝ) (m' : Nat → ℝ),
    ref.layer_norm_f32 Real.sqrt ⟨some 6, 6⟩ ⟨some 12, 3⟩ ⟨none, 3⟩ ⟨some 0, 6⟩ 2 3 1 Nat.cast =
      some m' ∧
    (∀ r < 2, Standardizes (rowAt Nat.cast 6 3 r) (y r) 3 1) ∧
    LayerNormed Nat.cast m' y ⟨some 12, 3⟩ ⟨none, 3⟩ 0 2 3 := by
  have hfits : RowsFit ⟨some 6, 6⟩ ⟨some 0, 6⟩ 6 0 2 3 :=
    ⟨by decide, rfl, rfl, le_rfl, le_rfl, Or.inr (Or.inr (by decide))⟩
  have hweight : ParamFits ⟨some 12, 3⟩ 0 (2 * 3) 3 := by
    intro data hdata
    obtain rfl : 12 = data := Option.some.inj hdata
    exact ⟨le_rfl, Or.inr (by decide)⟩
  have hbias : ParamFits ⟨none, 3⟩ 0 (2 * 3) 3 := by
    intro data hdata
    cases hdata
  obtain ⟨y, hy, ⟨m', hresult, hrows⟩, -⟩ := layer_norm_standardizes hfits (by decide) one_pos
    hweight hbias (Nat.cast : Nat → ℝ)
  exact ⟨y, m', hresult, hy, hrows⟩

end sci.int64.math
