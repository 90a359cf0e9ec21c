-- `math::softmax_with_temperature` and `math::softmax_stable` (src/math/softmax.cpp, 122-140 and
-- 172-175). Over the real numbers a row gets the shares of its numbers, with 1 over the
-- temperature as their factor: from the largest number alone to equal shares.
import Scicompute.Gibbs
import Scicompute.SoftmaxRows
import Scicompute.SoftmaxValues

open Filter Topology
open BlockMemory (Apart)

namespace sci.math

section
variable {K : Type*} [Field K] [LinearOrder K]

/-- The loop that scales by the temperature. -/
def scale (m : Nat → K) (in_data scaled_data n : Nat) (inv_temp : K) : Nat → K :=
  (List.range n).foldl
    (fun m i => Function.update m (scaled_data + i) (m (in_data + i) * inv_temp)) m

/-- `scaled` is allocated at `scaled_data` and set to 0. The assertion that the temperature is
positive is off by default; the temperature 0 has an infinite `inv_temp`, which is none of `K`. -/
def softmax_with_temperature (exp : K → K) (shape : TensorShape)
    (in_data scaled_data out_data : Nat) (temperature : K) (axis : Int) (m : Nat → K) :
    Option (Except String (Nat → K)) :=
  if temperature = 0 then none
  else
    let m := BlockMemory.fill m scaled_data shape.num_elements 0
    let inv_temp := 1 / temperature
    softmax exp shape scaled_data out_data axis
      (scale m in_data scaled_data shape.num_elements inv_temp)

def softmax_stable (exp : K → K) : TensorShape → Nat → Nat → Int → (Nat → K) →
    Option (Except String (Nat → K)) :=
  softmax exp

variable {m : Nat → K} {in_data scaled_data n i : Nat}

omit [LinearOrder K] in
/-- The input is read before it is scaled, whatever stood at `scaled_data`. -/
theorem scale_spec (hapart : Apart in_data n scaled_data n) (inv_temp : K) (hi : i < n) :
    scale (BlockMemory.fill m scaled_data n 0) in_data scaled_data n inv_temp (scaled_data + i) =
      m (in_data + i) * inv_temp := by
  have hvalue : ∀ i < n, ∀ m' : Nat → K,
      (∀ c, (∀ j < i, c ≠ scaled_data + j) → m' c = BlockMemory.fill m scaled_data n 0 c) →
      m' (in_data + i) * inv_temp = m (in_data + i) * inv_temp := by
    intro i hi m' hm'
    rw [hm' _ (fun j hj => by unfold Apart at hapart; omega)]
    rw [BlockMemory.fill_of_outside]
    unfold Apart at hapart
    omega
  unfold scale
  apply (BlockMemory.foldl_range_update _ hvalue).1 i hi
  intro i _ j hj
  omega

end

variable {v : Nat → ℝ} {y : ℝ → Nat → ℝ} {m : Nat → ℝ} {n r : Nat} {shape : TensorShape}
  {in_data scaled_data out_data : Nat} {axis : Int} {temperature : ℝ}

/-- The row `r` of the last axis of a tensor at `data`. -/
def row (shape : TensorShape) (m : Nat → ℝ) (data r : Nat) : Nat → ℝ :=
  fun j => m (data + r * shape.rowLength + j)

theorem rowSoftmax_eq_share (v : Nat → ℝ) (n i : Nat) (β : ℝ) :
    rowSoftmax Real.exp (fun j => v j * β) n i = Gibbs.share (Finset.range n) v β i := by
  rw [rowSoftmax_exp, Gibbs.share]
  simp only [mul_comm β]

/-- Where the rows are treated one by one, each gets the shares of its numbers. -/
theorem exists_softmax (m : Nat → ℝ) (hrank : 1 ≤ shape.ndims) (hfit : shape.RowsFit)
    (haxis : axis = -1 ∨ axis = (shape.ndims : Int) - 1)
    (hapart : Apart in_data shape.num_elements out_data shape.num_elements) :
    ∃ m', softmax Real.exp shape in_data out_data axis m = some (.ok m') ∧
      ∀ r < shape.rowCount, ∀ j < shape.rowLength, row shape m' out_data r j =
        rowSoftmax Real.exp (row shape m in_data r) shape.rowLength j := by
  have hrank' : shape.ndims ≠ 0 := by omega
  obtain ⟨m', hresult, hrows⟩ := (rowKernel_softmax Real.exp).actsOnRows (m := m)
    "Only last-axis softmax supported" hrank' haxis hapart hfit
  rw [shape.num_elements_rows hrank'] at hapart
  refine ⟨m', hresult, fun r hr j hj => ?_⟩
  exact (hrows r hr j hj).trans ((rowKernel_softmax Real.exp).row hapart hr hj)

/-- The factor is 1 over the temperature. -/
theorem exists_softmax_with_temperature (m : Nat → ℝ) (hrank : 1 ≤ shape.ndims)
    (hfit : shape.RowsFit) (haxis : axis = -1 ∨ axis = (shape.ndims : Int) - 1)
    (hscaled : Apart in_data shape.num_elements scaled_data shape.num_elements)
    (hout : Apart scaled_data shape.num_elements out_data shape.num_elements)
    (htemp : 0 < temperature) :
    ∃ m', softmax_with_temperature Real.exp shape in_data scaled_data out_data temperature axis m =
        some (.ok m') ∧
      ∀ r < shape.rowCount, ∀ j < shape.rowLength, row shape m' out_data r j =
        Gibbs.share (Finset.range shape.rowLength) (row shape m in_data r) (1 / temperature) j := by
  set scaled := scale (BlockMemory.fill m scaled_data shape.num_elements 0) in_data scaled_data
    shape.num_elements (1 / temperature) with hdef
  obtain ⟨m', hresult, hrows⟩ := exists_softmax scaled hrank hfit haxis hout
  refine ⟨m', ?_, fun r hr j hj => ?_⟩
  · unfold softmax_with_temperature
    rw [if_neg htemp.ne']
    exact hresult
  · have hend := RowMajor.row_end_le shape.rowLength hr
    rw [← shape.num_elements_rows (by omega)] at hend
    have hread : ∀ i < shape.rowLength,
        row shape scaled scaled_data r i = row shape m in_data r i * (1 / temperature) := by
      intro i hi
      rw [row, hdef, Nat.add_assoc, scale_spec hscaled _ (by omega), row, Nat.add_assoc]
    rw [hrows r hr j hj, (rowKernel_softmax Real.exp).reads _ _ _ hread j hj, rowSoftmax_eq_share]

/-! ## From the largest number to all numbers -/

/-- `y T` is what the row `v` becomes at the temperature `T`. The largest numbers lose when it
rises; in the cold they share all among them, and in the heat all numbers get the same. -/
structure Interpolates (v : Nat → ℝ) (y : ℝ → Nat → ℝ) (n : Nat) : Prop where
  isSoftmax : ∀ T > 0, IsSoftmax (fun j => v j / T) (y T) n
  largest : ∀ k < n, (∀ j < n, v j ≤ v k) → ∀ T > 0, ∀ T' ≥ T, y T' k ≤ y T k
  cold : ∀ k < n, (∀ j < n, v j ≤ v k) → ∀ i < n, Tendsto (y · i) (𝓝[>] 0)
    (𝓝 (if v i = v k then 1 / (Gibbs.ties (Finset.range n) v k).card else 0))
  hot : ∀ i < n, Tendsto (y · i) atTop (𝓝 (1 / n))

theorem isSoftmax_share (v : Nat → ℝ) (hn : 0 < n) (T : ℝ) :
    IsSoftmax (fun j => v j / T) (Gibbs.share (Finset.range n) v (1 / T)) n := by
  apply (isSoftmax_rowSoftmax _ hn).congr
  intro i _
  rw [← rowSoftmax_eq_share]
  simp only [mul_one_div]

theorem interpolates_of_share (hn : 0 < n)
    (hy : ∀ T > 0, ∀ i < n, y T i = Gibbs.share (Finset.range n) v (1 / T) i) :
    Interpolates v y n := by
  refine ⟨?_, ?_, ?_, ?_⟩
  · intro T hT
    exact (isSoftmax_share v hn T).congr (hy T hT)
  · intro k hk hmax T hT T' hle
    rw [hy T hT k hk, hy T' (hT.trans_le hle) k hk]
    apply Gibbs.share_le_of_le
    · intro j hj
      exact hmax j (Finset.mem_range.mp hj)
    · exact Finset.mem_range.mpr hk
    · exact one_div_le_one_div_of_le hT hle
  · intro k hk hmax i hi
    have hlimit := (Gibbs.tendsto_share_atTop (fun j hj => hmax j (Finset.mem_range.mp hj))
      (Finset.mem_range.mpr hk) (Finset.mem_range.mpr hi)).comp tendsto_inv_nhdsGT_zero
    apply hlimit.congr'
    filter_upwards [self_mem_nhdsWithin] with T hT
    rw [hy T hT i hi, one_div, Function.comp_apply]
  · intro i hi
    have hlimit := (Gibbs.tendsto_share_zero (v := v) (Finset.mem_range.mpr hi)).comp
      tendsto_inv_atTop_zero
    rw [Finset.card_range] at hlimit
    apply hlimit.congr'
    filter_upwards [eventually_gt_atTop 0] with T hT
    rw [hy T hT i hi, one_div, Function.comp_apply]

/-- Every row goes from the shares of its largest numbers to equal shares, and at the temperature 1
it is what `softmax_stable` makes of it. -/
theorem temperature_goes_from_the_largest_to_all (m : Nat → ℝ) (hpos : ∀ d ∈ shape.dims, 0 < d)
    (hrank : 1 ≤ shape.ndims) (hfit : shape.RowsFit)
    (haxis : axis = -1 ∨ axis = (shape.ndims : Int) - 1)
    (hscaled : Apart in_data shape.num_elements scaled_data shape.num_elements)
    (hout : Apart scaled_data shape.num_elements out_data shape.num_elements)
    (hin : Apart in_data shape.num_elements out_data shape.num_elements) :
    ∃ result : ℝ → Nat → ℝ,
      (∀ T > 0, softmax_with_temperature Real.exp shape in_data scaled_data out_data T axis m =
        some (.ok (result T))) ∧
      (∀ r < shape.rowCount, Interpolates (row shape m in_data r)
        (fun T => row shape (result T) out_data r) shape.rowLength) ∧
      ∃ m', softmax_stable Real.exp shape in_data out_data axis m = some (.ok m') ∧
        ∀ r < shape.rowCount, ∀ j < shape.rowLength,
          row shape (result 1) out_data r j = row shape m' out_data r j := by
  have hresult := fun T (hT : 0 < T) =>
    exists_softmax_with_temperature m hrank hfit haxis hscaled hout hT
  choose! result hresult hrows using hresult
  have hlength : 0 < shape.rowLength := by
    apply hpos
    unfold TensorShape.rowLength TensorShape.dim TensorShape.ndims at *
    rw [List.getD_eq_getElem _ _ (by omega)]
    apply List.getElem_mem
  refine ⟨result, hresult, ?_, ?_⟩
  · intro r hr
    apply interpolates_of_share hlength
    intro T hT j hj
    exact hrows T hT r hr j hj
  · obtain ⟨m', hplain, hsoft⟩ := exists_softmax m hrank hfit haxis hin
    refine ⟨m', hplain, fun r hr j hj => ?_⟩
    rw [hrows 1 one_pos r hr j hj, hsoft r hr j hj, one_div_one, ← rowSoftmax_eq_share]
    simp only [mul_one]

/-- Two rows of three numbers, at all temperatures. -/
theorem two_rows_at_all_temperatures : ∃ result : ℝ → Nat → ℝ,
    (∀ T > 0, softmax_with_temperature Real.exp twoRows 0 6 12 T (-1) Nat.cast =
      some (.ok (result T))) ∧
    (∀ r < twoRows.rowCount, Interpolates (row twoRows Nat.cast 0 r)
      (fun T => row twoRows (result T) 12 r) twoRows.rowLength) ∧
    ∃ m', softmax_stable Real.exp twoRows 0 12 (-1) Nat.cast = some (.ok m') ∧
      ∀ r < twoRows.rowCount, ∀ j < twoRows.rowLength,
        row twoRows (result 1) 12 r j = row twoRows m' 12 r j :=
  temperature_goes_from_the_largest_to_all Nat.cast (by decide) (by decide)
    (Or.inr (Or.inl (by decide))) (Or.inl rfl) (by decide) (by decide) (by decide)

end sci.math
