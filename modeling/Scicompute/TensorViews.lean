-- The elements of views: where `slice` looks for them, and what `clone` makes of them.
-- `slice` gives its view the strides of the smaller shape, and `clone` copies the bytes
-- from the start of the view on, whatever its strides are.
import Scicompute.Tensor

open RowMajor (Within Agree)
open BlockMemory (Apart)

namespace sci

namespace Tensor

/-! ## Slices -/

theorem slice_valid_iff (t : Tensor) {dim : Nat} (start «end» : Nat) (hdim : dim < t.shape_.ndims)
    (indices : List Nat) : (t.slice dim start «end»).shape_.Valid indices ↔
      Within indices (t.shape_.dims.set dim («end» - start)) := by
  have hrank : t.shape_.ndims ≠ 0 := by omega
  simp only [TensorShape.Valid, slice, TensorShape.set, TensorShape.ndims, List.length_set]
  exact and_iff_right hrank

/-- A slice starts at the first of its elements, so only the strides matter. -/
theorem slice_at_eq_iff (t : Tensor) {dim start «end» : Nat} (hdim : dim < t.shape_.ndims)
    {indices : List Nat} (hi : Within indices (t.shape_.dims.set dim («end» - start))) :
    (t.slice dim start «end»).at indices = t.view.at (indices.modify dim (· + start)) ↔
      RowMajor.offset indices (RowMajor.strides (t.shape_.dims.set dim («end» - start))) =
        RowMajor.offset indices (RowMajor.strides t.shape_.dims) := by
  have hlen : indices.length = t.shape_.dims.length := by simpa using List.Forall₂.length_eq hi
  have hslice : (t.slice dim start «end»).offset indices =
      RowMajor.offset indices (RowMajor.strides (t.shape_.dims.set dim («end» - start))) := by
    rw [TensorView.offset_eq]
    simp only [slice, TensorShape.strides_eq]
    rfl
  have hown : t.view.offset (indices.modify dim (· + start)) =
      RowMajor.offset indices (RowMajor.strides t.shape_.dims) + start * t.stride dim := by
    have hlen' : indices.length = (RowMajor.strides t.shape_.dims).length := by simp [hlen]
    unfold stride strides
    rw [TensorView.offset_eq, TensorShape.strides_eq,
      ← RowMajor.offset_modify start (show dim < indices.length from hlen ▸ hdim) hlen']
    simp only [view, strides, TensorShape.strides_eq]
  rw [TensorView.at, TensorView.at, hslice, hown]
  simp only [slice, view]
  rw [Nat.add_mul, Nat.add_assoc, Nat.add_left_cancel_iff, Nat.add_comm,
    Nat.add_right_cancel_iff, Nat.mul_left_inj (kDTypeSize_pos t.dtype_).ne']

/-- A slice finds the elements of the tensor exactly when it takes the whole axis, or the axes
before it have length 1. -/
theorem slices_have_the_elements_of_the_tensor_iff (t : Tensor) {dim start «end» : Nat}
    (hpos : ∀ d ∈ t.shape_.dims, 0 < d) (hdim : dim < t.shape_.ndims) (hstart : start < «end»)
    (hend : «end» ≤ t.shape_.dim dim) :
    (∀ indices, (t.slice dim start «end»).shape_.Valid indices →
      (t.slice dim start «end»).at indices = t.view.at (indices.modify dim (· + start))) ↔
    (∀ j < dim, t.shape_.dim j = 1) ∨ (start = 0 ∧ «end» = t.shape_.dim dim) := by
  have hnew : ∀ d ∈ t.shape_.dims.set dim («end» - start), 0 < d := by
    intro d hd
    rcases List.mem_or_eq_of_mem_set hd with hd | rfl
    · exact hpos d hd
    · omega
  have hwhole : «end» - start = t.shape_.dim dim ↔ start = 0 ∧ «end» = t.shape_.dim dim := by
    omega
  calc (∀ indices, (t.slice dim start «end»).shape_.Valid indices →
        (t.slice dim start «end»).at indices = t.view.at (indices.modify dim (· + start)))
      ↔ ∀ indices, Within indices (t.shape_.dims.set dim («end» - start)) →
        RowMajor.offset indices (RowMajor.strides (t.shape_.dims.set dim («end» - start))) =
          RowMajor.offset indices (RowMajor.strides t.shape_.dims) := by
        simp only [slice_valid_iff t start «end» hdim]
        exact forall₂_congr fun indices hi => slice_at_eq_iff t hdim hi
    _ ↔ Agree (t.shape_.dims.set dim («end» - start))
          (RowMajor.strides (t.shape_.dims.set dim («end» - start)))
          (RowMajor.strides t.shape_.dims) := RowMajor.offset_eq_iff hnew (by simp) (by simp)
    _ ↔ (∀ j < dim, t.shape_.dim j = 1) ∨ «end» - start = t.shape_.dim dim :=
        RowMajor.agree_set_iff _ hpos hdim
    _ ↔ _ := by rw [hwhole]

/-- One row of four elements. -/
def row : Tensor := ⟨⟨[1, 4]⟩, .kFloat32, .kContiguous, .kCPU, 4096⟩

theorem part_of_one_row_is_found : (∀ indices, (row.slice 1 1 3).shape_.Valid indices →
      (row.slice 1 1 3).at indices = row.view.at (indices.modify 1 (· + 1))) ↔
    (∀ j < 1, row.shape_.dim j = 1) ∨ (1 = 0 ∧ 3 = row.shape_.dim 1) :=
  row.slices_have_the_elements_of_the_tensor_iff (by decide) (by decide) (by decide) (by decide)

/-- Two rows of four elements. -/
def rows : Tensor := ⟨⟨[2, 4]⟩, .kFloat32, .kContiguous, .kCPU, 4096⟩

/-- The second row of the left half is looked for in the first row. -/
theorem second_row_is_not_found : (rows.slice 1 0 2).shape_.Valid [1, 0] ∧
    (rows.slice 1 0 2).at [1, 0] = rows.view.at [0, 2] ∧
    (rows.slice 1 0 2).at [1, 0] ≠ rows.view.at ([1, 0].modify 1 (· + 0)) := by
  decide

end Tensor

/-! ## Clones -/

/-- The clone has the shape, the type and the elements of the view. -/
def TensorView.CloneEquals (v : TensorView) (m : Nat → UInt8) (data : Nat) : Prop :=
  (v.clone m data).1.shape_ = v.shape_ ∧ (v.clone m data).1.dtype_ = v.dtype_ ∧
    ∀ indices, v.shape_.Valid indices →
      (v.clone m data).1.view.element (v.clone m data).2 indices =
        v.element (v.clone m data).2 indices

namespace TensorView

variable {v : TensorView} {data : Nat}

/-- An element of the clone has the bytes at its row-major place behind the start of the view. -/
theorem clone_element (m : Nat → UInt8) {indices : List Nat}
    (hapart : Apart v.data_ v.num_bytes data v.num_bytes) (hi : v.shape_.Valid indices) :
    (v.clone m data).1.view.element (v.clone m data).2 indices =
      BlockMemory.load m (v.data_ + RowMajor.offset indices v.shape_.strides * kDTypeSize v.dtype_)
        (kDTypeSize v.dtype_) := by
  have hlt : RowMajor.offset indices v.shape_.strides < v.shape_.num_elements := by
    rw [TensorShape.strides_eq, v.shape_.num_elements_eq hi.1]
    exact hi.2.offset_lt
  have hbytes : RowMajor.offset indices v.shape_.strides * kDTypeSize v.dtype_ +
      kDTypeSize v.dtype_ ≤ v.num_bytes := RowMajor.row_end_le _ hlt
  have hat : (v.clone m data).1.view.at indices =
      data + RowMajor.offset indices v.shape_.strides * kDTypeSize v.dtype_ := by
    unfold TensorView.at
    rw [offset_eq]
    rfl
  rw [element, hat]
  change BlockMemory.load (BlockMemory.copy (BlockMemory.fill m data v.num_bytes 0) data v.data_
    v.num_bytes) _ (kDTypeSize v.dtype_) = _
  rw [BlockMemory.load_copy_of_within _ _ _ hbytes,
    BlockMemory.load_fill_of_apart _ _ (hapart.mono (by omega) (by omega))]

/-- The elements of the view stay as they are. -/
theorem element_after_clone (m : Nat → UInt8) {indices : List Nat}
    (hapart : Apart v.data_ v.num_bytes data v.num_bytes)
    (hin : RowMajor.offset indices v.strides_ < v.shape_.num_elements) :
    v.element (v.clone m data).2 indices =
      BlockMemory.load m (v.data_ + RowMajor.offset indices v.strides_ * kDTypeSize v.dtype_)
        (kDTypeSize v.dtype_) := by
  have hbytes : RowMajor.offset indices v.strides_ * kDTypeSize v.dtype_ +
      kDTypeSize v.dtype_ ≤ v.num_bytes := RowMajor.row_end_le _ hin
  have hblock : Apart (v.data_ + RowMajor.offset indices v.strides_ * kDTypeSize v.dtype_)
      (kDTypeSize v.dtype_) data v.num_bytes := hapart.mono (by omega) (by omega)
  unfold element TensorView.at
  rw [offset_eq]
  change BlockMemory.load (BlockMemory.copy (BlockMemory.fill m data v.num_bytes 0) data v.data_
    v.num_bytes) _ _ = _
  rw [BlockMemory.load_copy_of_apart _ _ hblock, BlockMemory.load_fill_of_apart _ _ hblock]

/-- `clone` is right for a view, whatever the bytes are, exactly when its elements lie in row-major
order. -/
theorem clone_equals_iff (hapart : Apart v.data_ v.num_bytes data v.num_bytes)
    (hin : ∀ indices, v.shape_.Valid indices →
      RowMajor.offset indices v.strides_ < v.shape_.num_elements) :
    (∀ m, v.CloneEquals m data) ↔ ∀ indices, v.shape_.Valid indices →
      RowMajor.offset indices v.strides_ = RowMajor.offset indices v.shape_.strides := by
  constructor
  · intro h indices hi
    by_contra hne
    have haddr : v.data_ + RowMajor.offset indices v.shape_.strides * kDTypeSize v.dtype_ ≠
        v.data_ + RowMajor.offset indices v.strides_ * kDTypeSize v.dtype_ := by
      rw [Ne, Nat.add_left_cancel_iff, Nat.mul_left_inj (kDTypeSize_pos v.dtype_).ne']
      exact Ne.symm hne
    obtain ⟨m, hm⟩ := BlockMemory.exists_load_ne (show (0 : UInt8) ≠ 1 by decide) haddr
      (kDTypeSize_pos v.dtype_)
    have hsame := (h m).2.2 indices hi
    rw [clone_element m hapart hi, element_after_clone m hapart (hin indices hi)] at hsame
    exact hm hsame
  · intro h m
    refine ⟨rfl, rfl, fun indices hi => ?_⟩
    rw [clone_element m hapart hi, element_after_clone m hapart (hin indices hi), h indices hi]

end TensorView

/-! ## The views of a tensor -/

inductive ViewCall
  | view
  | reshape (new_shape : TensorShape)
  | slice (start «end» : Nat)
  | transpose (dim0 dim1 : Nat)

/-- The view that a call returns. A slice is along axis 0. -/
def Tensor.call (t : Tensor) : ViewCall → TensorView
  | .view => t.view
  | .reshape new_shape => t.reshape new_shape
  | .slice start «end» => t.slice 0 start «end»
  | .transpose dim0 dim1 => t.transpose dim0 dim1

/-- The assertions of a call. -/
def ViewCall.Allowed (t : Tensor) : ViewCall → Prop
  | .view => True
  | .reshape new_shape => t.shape_.num_elements = new_shape.num_elements
  | .slice start «end» => 0 < t.shape_.ndims ∧ start ≤ «end» ∧ «end» ≤ t.shape_.dim 0
  | .transpose dim0 dim1 => dim0 < t.shape_.ndims ∧ dim1 < t.shape_.ndims

instance (t : Tensor) : ∀ c : ViewCall, Decidable (c.Allowed t)
  | .view => isTrue trivial
  | .reshape _ => inferInstanceAs (Decidable (_ = _))
  | .slice _ _ => inferInstanceAs (Decidable (_ ∧ _ ∧ _))
  | .transpose _ _ => inferInstanceAs (Decidable (_ ∧ _))

/-- No axis longer than 1 passes another one when two axes change places. -/
def TensorShape.SwapKeepsOrder (s : TensorShape) (dim0 dim1 : Nat) : Prop :=
  dim0 = dim1 ∨ 0 ∈ s.dims ∨ (s.dim dim0 = 1 ∧ s.dim dim1 = 1) ∨
    ((s.dim dim0 = 1 ∨ s.dim dim1 = 1) ∧
      ∀ k, min dim0 dim1 < k → k < max dim0 dim1 → s.dim k = 1)

/-- The condition on a call. -/
def ViewCall.KeepsOrder (t : Tensor) : ViewCall → Prop
  | .transpose dim0 dim1 => t.shape_.SwapKeepsOrder dim0 dim1
  | _ => True

namespace TensorShape

/-- Stride vectors put the elements of a shape in one order exactly when there are none, or the
vectors agree. -/
theorem offset_eq_iff (s : TensorShape) {u v : List Nat} (hrank : s.ndims ≠ 0)
    (hu : u.length = s.dims.length) (hv : v.length = s.dims.length) :
    (∀ indices, s.Valid indices → RowMajor.offset indices u = RowMajor.offset indices v) ↔
      0 ∈ s.dims ∨ Agree s.dims u v := by
  by_cases hzero : 0 ∈ s.dims
  · simp only [hzero, true_or, iff_true]
    intro indices hi
    exact absurd (hi.2.pos 0 hzero) (Nat.lt_irrefl 0)
  · have hpos : ∀ d ∈ s.dims, 0 < d :=
      fun d hd => Nat.pos_of_ne_zero fun h => hzero (h ▸ hd)
    rw [← RowMajor.offset_eq_iff hpos hu hv]
    simp only [hzero, false_or, Valid, hrank, ne_eq, not_false_eq_true, true_and]

theorem SwapKeepsOrder.comm {s : TensorShape} {dim0 dim1 : Nat} :
    s.SwapKeepsOrder dim0 dim1 ↔ s.SwapKeepsOrder dim1 dim0 := by
  simp only [SwapKeepsOrder, min_comm dim1, max_comm dim1, eq_comm (a := dim1),
    and_comm (a := s.dim dim1 = 1), or_comm (a := s.dim dim1 = 1)]

theorem agree_swap_iff (s : TensorShape) {dim0 dim1 : Nat} (h0 : dim0 < s.ndims)
    (h1 : dim1 < s.ndims) :
    (0 ∈ s.dims ∨ Agree (RowMajor.swap s.dims dim0 dim1)
      (RowMajor.swap (RowMajor.strides s.dims) dim0 dim1)
      (RowMajor.strides (RowMajor.swap s.dims dim0 dim1))) ↔ s.SwapKeepsOrder dim0 dim1 := by
  wlog hlt : dim0 < dim1 generalizing dim0 dim1
  · by_cases heq : dim0 = dim1
    · subst heq
      simp [RowMajor.swap_self, RowMajor.agree_refl, SwapKeepsOrder]
    · rw [RowMajor.swap_comm, RowMajor.swap_comm (RowMajor.strides s.dims), SwapKeepsOrder.comm]
      exact this h1 h0 (by omega)
  obtain ⟨dims⟩ := s
  obtain ⟨A, x, B, y, C, rfl, rfl, hB⟩ := RowMajor.exists_parts hlt h1
  obtain rfl : dim1 = A.length + 1 + B.length := by omega
  have hx : dim ⟨A ++ x :: (B ++ y :: C)⟩ A.length = x := by simp [dim]
  have hy : dim ⟨A ++ x :: (B ++ y :: C)⟩ (A.length + 1 + B.length) = y := by
    unfold dim
    rw [List.getD_append_right _ _ _ _ (by omega),
      show A.length + 1 + B.length - A.length = B.length + 1 by omega]
    simp
  have hbetween : (∀ k, A.length < k → k < A.length + 1 + B.length →
      dim ⟨A ++ x :: (B ++ y :: C)⟩ k = 1) ↔ ∀ z ∈ B, z = 1 := by
    have hk : ∀ k < B.length, dim ⟨A ++ x :: (B ++ y :: C)⟩ (A.length + 1 + k) = B.getD k 0 := by
      intro k hk
      unfold dim
      rw [List.getD_append_right _ _ _ _ (by omega),
        show A.length + 1 + k - A.length = k + 1 by omega, List.getD_cons_succ,
        List.getD_append _ _ _ _ hk]
    constructor
    · intro h z hz
      obtain ⟨k, hlen, rfl⟩ := List.getElem_of_mem hz
      have := h (A.length + 1 + k) (by omega) (by omega)
      rwa [hk k hlen, List.getD_eq_getElem _ _ hlen] at this
    · intro h k hlow hhigh
      obtain ⟨k, rfl⟩ := Nat.exists_eq_add_of_lt hlow
      have hlen : k < B.length := by omega
      rw [show A.length + k + 1 = A.length + 1 + k by omega, hk k hlen,
        List.getD_eq_getElem _ _ hlen]
      exact h _ (List.getElem_mem hlen)
  unfold SwapKeepsOrder
  rw [min_eq_left (by omega), max_eq_right (by omega), hx, hy, hbetween]
  by_cases hzero : 0 ∈ A ++ x :: (B ++ y :: C)
  · simp only [hzero, true_or, or_true]
  · have hpos : ∀ d ∈ A ++ x :: (B ++ y :: C), 0 < d :=
      fun d hd => Nat.pos_of_ne_zero fun h => hzero (h ▸ hd)
    have hne : A.length ≠ A.length + 1 + B.length := by omega
    simp only [hzero, hne, false_or]
    rw [RowMajor.swap_parts, RowMajor.agree_swap_iff hpos]

end TensorShape

/-! ## Clones of the views of a tensor -/

namespace Tensor

/-- A view has its bytes inside the tensor. -/
theorem call_in_bounds (t : Tensor) (c : ViewCall) (hc : c.Allowed t) :
    t.data ≤ (t.call c).data_ ∧
      (t.call c).data_ + (t.call c).num_bytes ≤ t.data + t.num_bytes := by
  cases c with
  | view => exact ⟨Nat.le_refl _, Nat.le_refl _⟩
  | reshape new_shape =>
    refine ⟨Nat.le_refl _, ?_⟩
    change t.data + new_shape.num_elements * kDTypeSize t.dtype_ ≤ _
    rw [← hc, num_bytes]
  | slice start «end» =>
    obtain ⟨hrank, hstart, hend⟩ := hc
    refine ⟨Nat.le_add_right _ _, ?_⟩
    obtain ⟨⟨dims⟩, dtype_, layout_, device_, data⟩ := t
    obtain ⟨d, dims, rfl⟩ := List.exists_cons_of_length_pos hrank
    change _ ≤ d at hend
    have hstride : stride ⟨⟨d :: dims⟩, dtype_, layout_, device_, data⟩ 0 = dims.prod := by
      unfold stride strides
      rw [TensorShape.strides_eq]
      rfl
    have hnew : (TensorShape.set ⟨d :: dims⟩ 0 («end» - start)).num_elements =
        («end» - start) * dims.prod := by
      rw [TensorShape.num_elements_eq _ (by simp [TensorShape.set, TensorShape.ndims])]
      simp [TensorShape.set]
    have hold : (TensorShape.mk (d :: dims)).num_elements = d * dims.prod := by
      rw [TensorShape.num_elements_eq _ (by simp [TensorShape.ndims])]
      simp
    simp only [call, slice, TensorView.num_bytes, num_bytes, hstride, hnew, hold]
    have hle : start * dims.prod + («end» - start) * dims.prod ≤ d * dims.prod := by
      rw [← Nat.add_mul]
      exact Nat.mul_le_mul_right _ (by omega)
    have hbytes := Nat.mul_le_mul_right (kDTypeSize dtype_) hle
    rw [Nat.add_mul] at hbytes
    omega
  | transpose dim0 dim1 =>
    have hrank : t.shape_.ndims ≠ 0 := by
      have := hc.1
      omega
    have hcount : (t.shape_.swap dim0 dim1).num_elements = t.shape_.num_elements := by
      rw [TensorShape.num_elements_eq _ hrank, TensorShape.num_elements_eq]
      · exact RowMajor.prod_swap hc.1 hc.2
      · rwa [TensorShape.ndims, TensorShape.swap, RowMajor.length_swap]
    refine ⟨Nat.le_refl _, ?_⟩
    change t.data + (t.shape_.swap dim0 dim1).num_elements * kDTypeSize t.dtype_ ≤ _
    rw [hcount, num_bytes]

/-- A view that is no transposition has the strides of its shape. -/
theorem call_strides (t : Tensor) {c : ViewCall} (hc : ∀ dim0 dim1, c ≠ .transpose dim0 dim1) :
    (t.call c).strides_ = (t.call c).shape_.strides := by
  cases c with
  | view => rfl
  | reshape new_shape => rfl
  | slice start «end» => rfl
  | transpose dim0 dim1 => exact absurd rfl (hc dim0 dim1)

/-- A view has its elements among its own bytes. -/
theorem call_offset_lt (t : Tensor) (c : ViewCall) (hc : c.Allowed t) {indices : List Nat}
    (hi : (t.call c).shape_.Valid indices) :
    RowMajor.offset indices (t.call c).strides_ < (t.call c).shape_.num_elements := by
  rw [TensorShape.num_elements_eq _ hi.1]
  by_cases htr : ∀ dim0 dim1, c ≠ .transpose dim0 dim1
  · rw [call_strides t htr, TensorShape.strides_eq]
    exact hi.2.offset_lt
  · push Not at htr
    obtain ⟨dim0, dim1, rfl⟩ := htr
    change RowMajor.offset indices (RowMajor.swap t.strides dim0 dim1) <
      (RowMajor.swap t.shape_.dims dim0 dim1).prod
    rw [RowMajor.prod_swap hc.1 hc.2, strides, TensorShape.strides_eq]
    exact hi.2.offset_swap_lt hc.1 hc.2

/-- The elements of a view lie in row-major order exactly when the call keeps it. -/
theorem call_offset_eq_iff (t : Tensor) (c : ViewCall) (hc : c.Allowed t) :
    (∀ indices, (t.call c).shape_.Valid indices →
      RowMajor.offset indices (t.call c).strides_ =
        RowMajor.offset indices (t.call c).shape_.strides) ↔ c.KeepsOrder t := by
  cases c with
  | transpose dim0 dim1 =>
    obtain ⟨h0, h1⟩ := hc
    have hrank : (t.shape_.swap dim0 dim1).ndims ≠ 0 := by
      have : 0 < t.shape_.ndims := by omega
      rw [TensorShape.ndims, TensorShape.swap, RowMajor.length_swap]
      exact this.ne'
    have hzero : 0 ∈ (t.shape_.swap dim0 dim1).dims ↔ 0 ∈ t.shape_.dims := by
      rw [← List.prod_eq_zero_iff, ← List.prod_eq_zero_iff, TensorShape.swap,
        RowMajor.prod_swap h0 h1]
    change (∀ indices, (t.shape_.swap dim0 dim1).Valid indices →
      RowMajor.offset indices (RowMajor.swap t.strides dim0 dim1) =
        RowMajor.offset indices (t.shape_.swap dim0 dim1).strides) ↔
      t.shape_.SwapKeepsOrder dim0 dim1
    rw [TensorShape.offset_eq_iff _ hrank (by simp [strides, TensorShape.strides_eq,
      TensorShape.swap]) (by simp [TensorShape.strides_eq]), hzero, strides,
      TensorShape.strides_eq, TensorShape.strides_eq]
    exact t.shape_.agree_swap_iff h0 h1
  | view => exact ⟨fun _ => trivial, fun _ _ _ => rfl⟩
  | reshape new_shape => exact ⟨fun _ => trivial, fun _ _ _ => rfl⟩
  | slice start «end» => exact ⟨fun _ => trivial, fun _ _ _ => rfl⟩

/-- The clone of a view has the elements of the view, whatever they are, exactly when the view is no
transposition or one that keeps the order of the elements. `data` is the buffer of the clone. -/
theorem clones_have_the_elements_of_their_views_iff (t : Tensor) (c : ViewCall) {data : Nat}
    (hc : c.Allowed t) (hapart : Apart t.data t.num_bytes data (t.call c).num_bytes) :
    (∀ m, (t.call c).CloneEquals m data) ↔ c.KeepsOrder t := by
  obtain ⟨hlow, hhigh⟩ := t.call_in_bounds c hc
  rw [TensorView.clone_equals_iff (hapart.mono hlow hhigh) fun indices hi =>
    t.call_offset_lt c hc hi]
  exact t.call_offset_eq_iff c hc

theorem row_is_cloned_as_a_column : ViewCall.KeepsOrder row (.transpose 0 1) ∧
    ((∀ m, (row.call (.transpose 0 1)).CloneEquals m 8192) ↔
      ViewCall.KeepsOrder row (.transpose 0 1)) :=
  ⟨Or.inr (Or.inr (Or.inr ⟨Or.inl rfl, fun k _ _ => by omega⟩)),
    row.clones_have_the_elements_of_their_views_iff (.transpose 0 1) (by decide) (by decide)⟩

/-- Two rows of three bytes. -/
def byteRows : Tensor := ⟨⟨[2, 3]⟩, .kInt8, .kContiguous, .kCPU, 100⟩

/-- The clone of the transposed rows has the second element of the first row where the view has the
first one of the second row. -/
theorem transposed_rows_are_not_cloned :
    ¬ (byteRows.call (.transpose 0 1)).CloneEquals (fun a => UInt8.ofNat a) 200 := by
  intro h
  have helement := h.2.2 [0, 1] (by decide)
  revert helement
  decide

end Tensor

end sci
