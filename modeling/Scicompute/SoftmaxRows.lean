-- When softmax and log-softmax treat the rows of the last axis one by one: for tensors of
-- rank 1, for those of rank 2 whose sizes fit an `int`, and for the others only if they
-- have a single row.
import Scicompute.Softmax

open BlockMemory (Apart)

namespace sci

namespace TensorShape

/-- The number of rows of the last axis. -/
def rowCount (s : TensorShape) : Nat := s.dims.dropLast.prod

def rowLength (s : TensorShape) : Nat := s.dim (s.ndims - 1)

/-- The condition on a shape: one dimension, or two whose numbers fit an `int`, or one row. -/
def RowsFit (s : TensorShape) : Prop :=
  s.ndims = 1 ∨
    (s.ndims = 2 ∧ s.dim 0 < 2 ^ 31 ∧ s.dim 1 < 2 ^ 31 ∧ (s.dim 0 - 1) * s.dim 1 < 2 ^ 31) ∨
    (2 < s.ndims ∧ ∀ d ∈ s.dims.dropLast, d = 1)

theorem num_elements_rows (s : TensorShape) (hrank : s.ndims ≠ 0) :
    s.num_elements = s.rowCount * s.rowLength := by
  obtain ⟨dims⟩ := s
  have hne : dims ≠ [] := fun h => hrank (by rw [h]; rfl)
  have hlast : rowLength ⟨dims⟩ = dims.getLast hne := by
    rw [List.getLast_eq_getElem]
    exact List.getD_eq_getElem _ _ _
  unfold rowCount
  rw [num_elements_eq _ hrank, hlast]
  change dims.prod = dims.dropLast.prod * _
  nth_rewrite 1 [← List.dropLast_append_getLast hne]
  rw [List.prod_append, List.prod_singleton]

theorem rows_of_rank_two {s : TensorShape} (h : s.ndims = 2) :
    s.rowCount = s.dim 0 ∧ s.rowLength = s.dim 1 := by
  obtain ⟨dims⟩ := s
  obtain ⟨rows, cols, rfl⟩ := List.length_eq_two.mp h
  simp [rowCount, rowLength, dim, ndims]

theorem RowsFit.one_row {s : TensorShape} (h : s.RowsFit) (hrank : s.ndims ≠ 2) :
    s.rowCount = 1 := by
  rcases h with h | ⟨h, -⟩ | ⟨-, h⟩
  · obtain ⟨dims⟩ := s
    obtain ⟨d, rfl⟩ := List.length_eq_one_iff.mp h
    rfl
  · exact absurd h hrank
  · exact (RowMajor.prod_eq_one_iff _).mpr h

end TensorShape

namespace math

variable {K : Type*} {kernel : (Nat → K) → Nat → Nat → Nat → Nat → K}
  {val : (Nat → K) → Nat → Nat → K} {shape : TensorShape} {in_data out_data : Nat} {axis : Int}
  {m : Nat → K}

/-! ## The loop over the rows -/

/-- The loop over the rows. -/
def rowLoop (kernel : (Nat → K) → Nat → Nat → Nat → Nat → K) (in_data out_data rows cols : Nat)
    (m : Nat → K) : Nat → K :=
  (List.range rows).foldl
    (fun m r => kernel m (in_data + r * cols) (out_data + r * cols) cols) m

theorem apart_row {rows cols r : Nat}
    (hapart : Apart in_data (rows * cols) out_data (rows * cols)) (hr : r < rows) :
    Apart (in_data + r * cols) cols (out_data + r * cols) cols := by
  have hle := RowMajor.row_end_le cols hr
  unfold Apart at hapart ⊢
  omega

/-- Every row gets the value of its own numbers, and the rest stays. -/
theorem RowKernel.rowLoop_spec (hk : RowKernel kernel val) {rows cols : Nat}
    (hapart : Apart in_data (rows * cols) out_data (rows * cols)) :
    (∀ r < rows, ∀ j < cols, rowLoop kernel in_data out_data rows cols m
      (out_data + r * cols + j) = val (fun i => m (in_data + r * cols + i)) cols j) ∧
    ∀ c, ¬ (out_data ≤ c ∧ c < out_data + rows * cols) →
      rowLoop kernel in_data out_data rows cols m c = m c := by
  have hval : ∀ r < rows, ∀ m' : Nat → K,
      (∀ c, (∀ q < r, ¬ (out_data + q * cols ≤ c ∧ c < out_data + q * cols + cols)) →
        m' c = m c) →
      ∀ c, out_data + r * cols ≤ c ∧ c < out_data + r * cols + cols →
        kernel m' (in_data + r * cols) (out_data + r * cols) cols c =
          val (fun i => m (in_data + r * cols + i)) cols (c - (out_data + r * cols)) := by
    intro r hr m' hm' c hc
    obtain ⟨j, rfl⟩ := Nat.exists_eq_add_of_le hc.1
    have hj : j < cols := by omega
    rw [hk.writes _ _ _ _ (apart_row hapart hr) j hj, Nat.add_sub_cancel_left]
    apply hk.reads _ _ _ _ j hj
    -- the rows written so far are apart from the input
    intro i hi
    apply hm'
    intro q hq
    have := RowMajor.row_end_le cols hr
    have := RowMajor.row_end_le cols hq
    unfold Apart at hapart
    omega
  obtain ⟨hdone, hrest⟩ := BlockMemory.foldl_range_blocks
    (fun r hr q hq c hc hc' => by
      have := RowMajor.row_end_le cols hq
      omega)
    (fun m r hr c hc => hk.frame m _ _ _ (apart_row hapart hr) c hc) hval
  constructor
  · intro r hr j hj
    have := hdone r hr (out_data + r * cols + j) ⟨by omega, by omega⟩
    rwa [Nat.add_sub_cancel_left] at this
  · intro c hc
    apply hrest
    intro r hr
    have := RowMajor.row_end_le cols hr
    omega

/-! ## The two paths -/

/-- The result has in each row what `kernel` makes of this row of the input alone. -/
def ActsOnRows (kernel : (Nat → K) → Nat → Nat → Nat → Nat → K)
    (result : Option (Except String (Nat → K))) (shape : TensorShape) (in_data out_data : Nat)
    (m : Nat → K) : Prop :=
  ∃ m', result = some (.ok m') ∧ ∀ r < shape.rowCount, ∀ j < shape.rowLength,
    m' (out_data + r * shape.rowLength + j) =
      kernel m (in_data + r * shape.rowLength) (out_data + r * shape.rowLength) shape.rowLength
        (out_data + r * shape.rowLength + j)

variable [Field K]

theorem lastAxis_of_rank_ne_two (message : String)
    (haxis : axis = -1 ∨ axis = (shape.ndims : Int) - 1) (hrank : shape.ndims ≠ 2) :
    lastAxis kernel message shape in_data out_data axis m =
      some (.ok (kernel (BlockMemory.fill m out_data shape.num_elements 0) in_data out_data
        shape.num_elements)) := by
  unfold lastAxis
  rw [if_pos haxis, if_neg hrank]

theorem lastAxis_of_rank_two (message : String)
    (haxis : axis = -1 ∨ axis = (shape.ndims : Int) - 1) (hrank : shape.ndims = 2) :
    lastAxis kernel message shape in_data out_data axis m =
      if ∀ r < (Word.toInt (shape.dim 0)).toNat, 0 ≤ Word.toInt (shape.dim 1) ∧
          (r : Int) * Word.toInt (shape.dim 1) < 2 ^ 31 then
        some (.ok (rowLoop kernel in_data out_data (Word.toInt (shape.dim 0)).toNat
          (Word.toInt (shape.dim 1)).toNat (BlockMemory.fill m out_data shape.num_elements 0)))
      else none := by
  simp only [lastAxis, if_pos haxis, if_pos hrank]
  rw [BlockMemory.foldlM_checked]
  simp only [List.mem_range, rowLoop]
  split_ifs <;> rfl

/-- The input is not changed when the output is set to 0. -/
theorem fill_of_input {n r i : Nat} (hapart : Apart in_data n out_data n) (h : r + i < n) :
    BlockMemory.fill m out_data n 0 (in_data + r + i) = m (in_data + r + i) := by
  apply BlockMemory.fill_of_outside
  unfold Apart at hapart
  omega

omit [Field K] in
theorem RowKernel.row (hk : RowKernel kernel val) {rows cols : Nat}
    (hapart : Apart in_data (rows * cols) out_data (rows * cols)) {r j : Nat} (hr : r < rows)
    (hj : j < cols) :
    kernel m (in_data + r * cols) (out_data + r * cols) cols (out_data + r * cols + j) =
      val (fun i => m (in_data + r * cols + i)) cols j :=
  hk.writes _ _ _ _ (apart_row hapart hr) j hj

/-- The rows are treated one by one where the shape fits. -/
theorem RowKernel.actsOnRows (hk : RowKernel kernel val) (message : String)
    (hrank : shape.ndims ≠ 0) (haxis : axis = -1 ∨ axis = (shape.ndims : Int) - 1)
    (hapart : Apart in_data shape.num_elements out_data shape.num_elements)
    (hfit : shape.RowsFit) :
    ActsOnRows kernel (lastAxis kernel message shape in_data out_data axis m) shape in_data
      out_data m := by
  have hcount := shape.num_elements_rows hrank
  have hapart' := hapart
  rw [hcount] at hapart'
  have hinput : ∀ r < shape.rowCount, ∀ i < shape.rowLength,
      BlockMemory.fill m out_data shape.num_elements 0 (in_data + r * shape.rowLength + i) =
        m (in_data + r * shape.rowLength + i) := by
    intro r hr i hi
    apply fill_of_input hapart
    have hle := RowMajor.row_end_le shape.rowLength hr
    omega
  by_cases htwo : shape.ndims = 2
  · obtain ⟨-, h0, h1, hprod⟩ : shape.ndims = 2 ∧ shape.dim 0 < 2 ^ 31 ∧ shape.dim 1 < 2 ^ 31 ∧
        (shape.dim 0 - 1) * shape.dim 1 < 2 ^ 31 := by
      rcases hfit with h | h | ⟨h, -⟩
      · omega
      · exact h
      · omega
    obtain ⟨hrows, hcols⟩ := TensorShape.rows_of_rank_two htwo
    rw [← hrows] at h0 hprod
    rw [← hcols] at h1 hprod
    have hchecked : ∀ r < shape.rowCount,
        0 ≤ (shape.rowLength : Int) ∧ (r : Int) * (shape.rowLength : Int) < 2 ^ 31 := by
      intro r hr
      have hle : r * shape.rowLength ≤ (shape.rowCount - 1) * shape.rowLength :=
        Nat.mul_le_mul_right _ (by omega)
      exact ⟨by omega, by exact_mod_cast lt_of_le_of_lt hle hprod⟩
    rw [ActsOnRows, lastAxis_of_rank_two _ haxis htwo, ← hrows, ← hcols, Word.toInt_of_lt h0,
      Word.toInt_of_lt h1, Int.toNat_natCast, Int.toNat_natCast, if_pos hchecked]
    refine ⟨_, rfl, fun r hr j hj => ?_⟩
    rw [(hk.rowLoop_spec hapart').1 r hr j hj, hk.row hapart' hr hj]
    exact hk.reads _ _ _ (hinput r hr) j hj
  · have hone := hfit.one_row htwo
    rw [ActsOnRows, lastAxis_of_rank_ne_two _ haxis htwo]
    refine ⟨_, rfl, fun r hr j hj => ?_⟩
    obtain rfl : r = 0 := by omega
    rw [hk.row hapart' hr hj]
    have hlength : shape.num_elements = shape.rowLength := by rw [hcount, hone, Nat.one_mul]
    have hzero := hinput 0 hr
    rw [hlength] at hapart hzero ⊢
    simp only [Nat.zero_mul, Nat.add_zero] at hzero ⊢
    rw [hk.writes _ _ _ _ hapart j hj]
    exact hk.reads _ _ _ hzero j hj

/-- A function that tells rows of zeros of different lengths apart, and is not 0 on them, treats
the rows one by one only where the shape fits. -/
theorem RowKernel.rowsFit (hk : RowKernel kernel val) (message : String) (c : Nat → K)
    (hzeros : ∀ n, ∀ j < n, val (fun _ => 0) n j = c n) (hne : ∀ n, 0 < n → c n ≠ 0)
    (hinj : ∀ n n', 0 < n → 0 < n' → c n = c n' → n = n')
    (hpos : ∀ d ∈ shape.dims, 0 < d) (hrank : shape.ndims ≠ 0)
    (haxis : axis = -1 ∨ axis = (shape.ndims : Int) - 1)
    (hapart : Apart in_data shape.num_elements out_data shape.num_elements)
    (hacts : ActsOnRows kernel (lastAxis kernel message shape in_data out_data axis fun _ => 0)
      shape in_data out_data fun _ => 0) : shape.RowsFit := by
  have hcount := shape.num_elements_rows hrank
  rw [hcount] at hapart
  have hnum : 0 < shape.num_elements := by
    rw [TensorShape.num_elements_eq _ hrank]
    exact List.prod_pos hpos
  rw [hcount] at hnum
  have hR : 0 < shape.rowCount := Nat.pos_of_mul_pos_right hnum
  have hC : 0 < shape.rowLength := Nat.pos_of_mul_pos_left hnum
  have hfill : BlockMemory.fill (fun _ => (0 : K)) out_data shape.num_elements 0 = fun _ => 0 := by
    funext a
    rw [BlockMemory.fill, ite_self]
  have hrow : ∀ r < shape.rowCount, ∀ j < shape.rowLength,
      kernel (fun _ => 0) (in_data + r * shape.rowLength) (out_data + r * shape.rowLength)
        shape.rowLength (out_data + r * shape.rowLength + j) = c shape.rowLength := by
    intro r hr j hj
    rw [hk.row hapart hr hj, hzeros _ j hj]
  obtain ⟨m', hresult, hvalues⟩ := hacts
  by_cases htwo : shape.ndims = 2
  · obtain ⟨hrows, hcols⟩ := TensorShape.rows_of_rank_two htwo
    rw [lastAxis_of_rank_two _ haxis htwo, ← hrows, ← hcols, hfill] at hresult
    split_ifs at hresult with hchecked
    simp only [Option.some.injEq, Except.ok.injEq] at hresult
    obtain ⟨hrle, hrfit⟩ := Word.toNat_toInt_le shape.rowCount
    obtain ⟨hcle, hcfit⟩ := Word.toNat_toInt_le shape.rowLength
    set rows := (Word.toInt shape.rowCount).toNat
    set cols := (Word.toInt shape.rowLength).toNat
    have hle : rows * cols ≤ shape.rowCount * shape.rowLength := Nat.mul_le_mul hrle hcle
    -- the last number is written, so the casts have not lost any row or column
    have hlast : shape.rowCount * shape.rowLength ≤ rows * cols := by
      by_contra hlt
      have hin : (shape.rowCount - 1) * shape.rowLength + shape.rowLength =
          shape.rowCount * shape.rowLength := by
        rw [← Nat.succ_mul, Nat.succ_eq_add_one, Nat.sub_add_cancel hR]
      have hsame := hvalues (shape.rowCount - 1) (by omega) (shape.rowLength - 1) (by omega)
      rw [hrow _ (by omega) _ (by omega), ← hresult, (hk.rowLoop_spec _).2 _ (by omega)] at hsame
      · exact hne _ hC hsame.symm
      · unfold Apart at hapart ⊢
        omega
    have hrowspos : 0 < rows := Nat.pos_of_mul_pos_right ((Nat.mul_pos hR hC).trans_le hlast)
    obtain ⟨hrows', hcols'⟩ :=
      (mul_eq_mul_iff_eq_and_eq_of_pos hrle hcle hrowspos hC).mp (hle.antisymm hlast)
    have hprod := (hchecked (shape.rowCount - 1) (by omega)).2
    rw [Word.toInt_of_lt (hcfit hcols')] at hprod
    refine Or.inr (Or.inl ⟨htwo, ?_, ?_, ?_⟩)
    · rw [← hrows]
      exact hrfit hrows'
    · rw [← hcols]
      exact hcfit hcols'
    · rw [← hrows, ← hcols]
      exact_mod_cast hprod
  · rw [lastAxis_of_rank_ne_two _ haxis htwo, hfill] at hresult
    simp only [Option.some.injEq, Except.ok.injEq] at hresult
    have hfirst := hk.writes (fun _ => 0) in_data out_data shape.num_elements (hcount ▸ hapart) 0
      (hcount ▸ hnum)
    have hwhole : c shape.num_elements = c shape.rowLength := by
      calc c shape.num_elements = m' (out_data + 0) := by
            rw [← hresult, hfirst, hzeros _ 0 (hcount ▸ hnum)]
        _ = m' (out_data + 0 * shape.rowLength + 0) := by rw [Nat.zero_mul]
        _ = c shape.rowLength := by rw [hvalues 0 hR 0 hC, hrow 0 hR 0 hC]
    have hone : shape.rowCount = 1 := by
      have := hinj _ _ (hcount ▸ hnum) hC hwhole
      rw [hcount] at this
      exact Nat.eq_of_mul_eq_mul_right hC (by omega)
    by_cases hshort : shape.ndims = 1
    · exact Or.inl hshort
    · exact Or.inr (Or.inr ⟨by omega, (RowMajor.prod_eq_one_iff _).mp hone⟩)

/-! ## Softmax and log-softmax -/

variable [LinearOrder K]

theorem rowMax_zeros (n : Nat) : rowMax (fun _ => (0 : K)) n = 0 := by
  have hloop : ∀ l : List Nat, l.foldl (fun (a : K) _ => max a 0) 0 = 0 := by
    intro l
    induction l with
    | nil => rfl
    | cons i l ih => rw [List.foldl_cons, max_self, ih]
  exact hloop _

theorem expSum_zeros (n : Nat) : expSum (fun _ => (1 : K)) (fun _ => 0) n = n := by
  simp [expSum]

variable [IsStrictOrderedRing K]

/-- For a row-major tensor of any rank and its last axis, softmax and log-softmax act on every row
alone, whatever the numbers and the functions `exp` and `log` are, exactly when the shape fits. -/
theorem softmax_and_log_softmax_act_on_rows_iff
    (hpos : ∀ d ∈ shape.dims, 0 < d) (hrank : 1 ≤ shape.ndims)
    (haxis : axis = -1 ∨ axis = (shape.ndims : Int) - 1)
    (hapart : Apart in_data shape.num_elements out_data shape.num_elements) :
    ((∀ (exp : K → K) (m : Nat → K),
      ActsOnRows (fun m x out n => ref.softmax_f32 exp m x out n 1)
        (softmax exp shape in_data out_data axis m) shape in_data out_data m) ↔
      shape.RowsFit) ∧
    ((∀ (exp log : K → K) (m : Nat → K),
      ActsOnRows (fun m x out n => ref.log_softmax_f32 exp log m x out n 1)
        (log_softmax exp log shape in_data out_data axis m) shape in_data out_data m) ↔
      shape.RowsFit) := by
  have hrank' : shape.ndims ≠ 0 := by omega
  refine ⟨⟨fun h => ?_, fun hfit exp m => ?_⟩, ⟨fun h => ?_, fun hfit exp log m => ?_⟩⟩
  · -- with `exp` constantly 1, a row of `n` zeros gets `1 / n`
    refine (rowKernel_softmax fun _ => (1 : K)).rowsFit _ (fun n => 1 / (n : K)) (fun n j _ => ?_)
      (fun n hn => ?_) (fun n k hn hk heq => ?_) hpos hrank' haxis hapart
      (h (fun _ => 1) fun _ => 0)
    · rw [rowSoftmax, expSum_zeros, one_mul]
    · positivity
    · simpa using heq
  · exact (rowKernel_softmax exp).actsOnRows _ hrank' haxis hapart hfit
  · -- with `log` the identity as well, it gets `-n`
    refine (rowKernel_log_softmax (fun _ => (1 : K)) id).rowsFit _ (fun n => -(n : K))
      (fun n j _ => ?_) (fun n hn => ?_) (fun n k hn hk heq => ?_) hpos hrank' haxis hapart
      (h (fun _ => 1) id fun _ => 0)
    · rw [rowLogSoftmax, expSum_zeros, rowMax_zeros]
      simp
    · simpa using hn.ne'
    · simpa using heq
  · exact (rowKernel_log_softmax exp log).actsOnRows _ hrank' haxis hapart hfit

/-- Two rows of three numbers. -/
def twoRows : TensorShape := ⟨[2, 3]⟩

theorem two_rows_are_treated_alone :
    ((∀ (exp : ℚ → ℚ) (m : Nat → ℚ),
      ActsOnRows (fun m x out n => ref.softmax_f32 exp m x out n 1)
        (softmax exp twoRows 0 6 (-1) m) twoRows 0 6 m) ↔ twoRows.RowsFit) ∧
    ((∀ (exp log : ℚ → ℚ) (m : Nat → ℚ),
      ActsOnRows (fun m x out n => ref.log_softmax_f32 exp log m x out n 1)
        (log_softmax exp log twoRows 0 6 (-1) m) twoRows 0 6 m) ↔ twoRows.RowsFit) :=
  softmax_and_log_softmax_act_on_rows_iff (by decide) (by decide) (by decide) (by decide)

/-- Two matrices of one number each. -/
def twoMatrices : TensorShape := ⟨[2, 1, 1]⟩

/-- Two zeros in rows of their own share what each of them should get. -/
theorem two_matrices_are_one_row :
    ¬ ActsOnRows (fun m x out n => ref.softmax_f32 (fun _ => (1 : ℚ)) m x out n 1)
      (softmax (fun _ => 1) twoMatrices 0 2 (-1) fun _ => 0) twoMatrices 0 2 fun _ => 0 := by
  rintro ⟨m', hresult, hvalues⟩
  have hrow := hvalues 0 (by decide) 0 (by decide)
  have hall : m' = ref.softmax_f32 (fun _ => 1) (BlockMemory.fill (fun _ => 0) 2 2 0) 0 2 2 1 := by
    rw [softmax, lastAxis_of_rank_ne_two _ (by decide) (by decide)] at hresult
    exact (Except.ok.inj (Option.some.inj hresult)).symm
  rw [hall] at hrow
  revert hrow
  decide +kernel

end math

end sci
