-- Shares that are proportional to exponentials: each of finitely many numbers has the share
-- `exp (β v)`, for a factor `β`. As the factor grows the shares go to the largest numbers, and as
-- it gets to 0 they become equal.
import Mathlib

open Filter Topology

namespace Gibbs

variable {ι : Type*} {s : Finset ι} {v : ι → ℝ} {β β' : ℝ} {i k : ι}

noncomputable def share (s : Finset ι) (v : ι → ℝ) (β : ℝ) (i : ι) : ℝ :=
  Real.exp (β * v i) / ∑ j ∈ s, Real.exp (β * v j)

theorem sum_pos (hi : i ∈ s) (f : ι → ℝ) : 0 < ∑ j ∈ s, Real.exp (f j) :=
  Finset.sum_pos (fun j _ => Real.exp_pos (f j)) ⟨i, hi⟩

/-- A number that is taken off all of them changes nothing. -/
theorem share_eq_sub (s : Finset ι) (v : ι → ℝ) (β c : ℝ) (i : ι) :
    share s v β i = Real.exp (β * (v i - c)) / ∑ j ∈ s, Real.exp (β * (v j - c)) := by
  have hsub : ∀ j, Real.exp (β * (v j - c)) = Real.exp (β * v j) / Real.exp (β * c) := by
    intro j
    rw [← Real.exp_sub, mul_sub]
  simp only [hsub, ← Finset.sum_div]
  rw [share, div_div_div_cancel_right₀ (Real.exp_ne_zero _)]

/-- Without a factor the shares are equal. -/
theorem share_zero (s : Finset ι) (v : ι → ℝ) (i : ι) : share s v 0 i = 1 / s.card := by
  simp [share]

theorem tendsto_share_zero (hi : i ∈ s) :
    Tendsto (fun β => share s v β i) (𝓝 0) (𝓝 (1 / s.card)) := by
  have hcont : Continuous fun β => share s v β i := by
    unfold share
    apply Continuous.div
    · fun_prop
    · fun_prop
    · intro β
      exact (sum_pos hi _).ne'
  rw [← share_zero s v i]
  exact hcont.tendsto 0

/-- The numbers of `s` that are as large as `v k`. -/
noncomputable def ties (s : Finset ι) (v : ι → ℝ) (k : ι) : Finset ι := s.filter (v · = v k)

/-- What is below the largest number fades. -/
theorem tendsto_exp (hmax : ∀ j ∈ s, v j ≤ v k) (hi : i ∈ s) :
    Tendsto (fun β => Real.exp (β * (v i - v k))) atTop (𝓝 (if v i = v k then 1 else 0)) := by
  split_ifs with h
  · simp [h]
  · have hneg : v i - v k < 0 := sub_neg.mpr (lt_of_le_of_ne (hmax i hi) h)
    exact Real.tendsto_exp_atBot.comp (tendsto_id.atTop_mul_const_of_neg hneg)

theorem tendsto_share_atTop (hmax : ∀ j ∈ s, v j ≤ v k) (hk : k ∈ s) (hi : i ∈ s) :
    Tendsto (fun β => share s v β i) atTop
      (𝓝 (if v i = v k then 1 / (ties s v k).card else 0)) := by
  have hsum : Tendsto (fun β => ∑ j ∈ s, Real.exp (β * (v j - v k))) atTop
      (𝓝 ((ties s v k).card : ℝ)) := by
    have hcard : ((ties s v k).card : ℝ) = ∑ j ∈ s, if v j = v k then 1 else 0 := by
      rw [ties, Finset.sum_boole]
    rw [hcard]
    exact tendsto_finsetSum s fun j hj => tendsto_exp hmax hj
  have hne : ((ties s v k).card : ℝ) ≠ 0 := by
    rw [Nat.cast_ne_zero, Finset.card_ne_zero]
    exact ⟨k, Finset.mem_filter.mpr ⟨hk, rfl⟩⟩
  have hlimit : (if v i = v k then 1 else 0) / ((ties s v k).card : ℝ) =
      if v i = v k then (1 : ℝ) / (ties s v k).card else 0 := by
    rw [ite_div, zero_div]
  simp only [share_eq_sub s v _ (v k) i]
  rw [← hlimit]
  exact (tendsto_exp hmax hi).div hsum hne

/-- The share of the largest number grows with the factor. -/
theorem share_le_of_le (hmax : ∀ j ∈ s, v j ≤ v k) (hk : k ∈ s) (hβ : β ≤ β') :
    share s v β k ≤ share s v β' k := by
  rw [share_eq_sub s v β (v k), share_eq_sub s v β' (v k), sub_self, mul_zero, mul_zero,
    Real.exp_zero]
  apply one_div_le_one_div_of_le (sum_pos hk _)
  apply Finset.sum_le_sum
  intro j hj
  rw [Real.exp_le_exp]
  exact mul_le_mul_of_nonpos_right hβ (sub_nonpos.mpr (hmax j hj))

/-! ## Means -/

variable {f : ι → ℝ} {a : ℝ}

/-- The mean of the numbers `f`, weighted by the shares of `v`. -/
noncomputable def mean (s : Finset ι) (v : ι → ℝ) (β : ℝ) (f : ι → ℝ) : ℝ :=
  ∑ i ∈ s, share s v β i * f i

theorem share_pos (hi : i ∈ s) (v : ι → ℝ) (β : ℝ) : 0 < share s v β i :=
  div_pos (Real.exp_pos _) (sum_pos hi _)

theorem sum_share (hi : i ∈ s) (v : ι → ℝ) (β : ℝ) : ∑ j ∈ s, share s v β j = 1 := by
  unfold share
  rw [← Finset.sum_div, div_self (sum_pos hi _).ne']

theorem le_mean (hi : i ∈ s) (hf : ∀ j ∈ s, a ≤ f j) : a ≤ mean s v β f := by
  calc a = ∑ j ∈ s, share s v β j * a := by rw [← Finset.sum_mul, sum_share hi, one_mul]
    _ ≤ mean s v β f :=
      Finset.sum_le_sum fun j hj => mul_le_mul_of_nonneg_left (hf j hj) (share_pos hj v β).le

theorem mean_le (hi : i ∈ s) (hf : ∀ j ∈ s, f j ≤ a) : mean s v β f ≤ a := by
  calc mean s v β f ≤ ∑ j ∈ s, share s v β j * a :=
      Finset.sum_le_sum fun j hj => mul_le_mul_of_nonneg_left (hf j hj) (share_pos hj v β).le
    _ = a := by rw [← Finset.sum_mul, sum_share hi, one_mul]

/-- The order of the numbers does not matter. -/
theorem mean_perm (σ : Equiv.Perm ι) (hσ : ∀ i, σ i ∈ s ↔ i ∈ s) :
    mean s (fun i => v (σ i)) β (fun i => f (σ i)) = mean s v β f := by
  have hshare : ∀ i, share s (fun i => v (σ i)) β i = share s v β (σ i) := by
    intro i
    have hsum : ∑ j ∈ s, Real.exp (β * v (σ j)) = ∑ j ∈ s, Real.exp (β * v j) :=
      Finset.sum_equiv σ (fun j => (hσ j).symm) fun j _ => rfl
    unfold share
    rw [hsum]
  unfold mean
  simp only [hshare]
  exact Finset.sum_equiv σ (fun j => (hσ j).symm) fun j _ => rfl

theorem mean_congr {v' f' : ι → ℝ} (hv : ∀ i ∈ s, v i = v' i) (hf : ∀ i ∈ s, f i = f' i) :
    mean s v β f = mean s v' β f' := by
  have hsum : ∑ j ∈ s, Real.exp (β * v j) = ∑ j ∈ s, Real.exp (β * v' j) := by
    apply Finset.sum_congr rfl
    intro j hj
    rw [hv j hj]
  unfold mean share
  rw [hsum]
  apply Finset.sum_congr rfl
  intro i hi
  rw [hv i hi, hf i hi]

end Gibbs
