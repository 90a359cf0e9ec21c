-- Tensors and views with the words of the code (include/core/types.hpp, src/tensor/tensor.cpp):
-- counts, strides and offsets wrap around. Where the count of the elements is an `index_t`
-- they are the exact ones, and the offset numbers the elements in lexicographic order.
import Scicompute.CheckedLoop
import Scicompute.ShapeSlots
import Scicompute.RowMajorOrder
import Scicompute.Tensor

open Word
open RowMajor (Within indices)

namespace sci.int64

structure Tensor where
  shape_ : TensorShape
  dtype_ : DType
  layout_ : Layout
  /-- `device_->type()`. -/
  device_ : DeviceType
  /-- `buffer_.data()`. -/
  data : Option Nat
  /-- `buffer_.bytes()`. -/
  bytes : Nat

structure TensorView where
  data_ : Option Nat
  shape_ : TensorShape
  dtype_ : DType
  device_ : DeviceType
  layout_ : Layout
  strides_ : List Int

namespace TensorView

/-- The products are of type `index_t`, and the sum is a `size_t`. -/
def offset (v : TensorView) (indices : List Int) : Nat :=
  (indices.zip v.strides_).foldl (fun offset p => Word.add offset (toSize (imul p.1 p.2))) 0

/-- The address of an element. -/
def «at» (v : TensorView) (indices : List Int) : Option Nat :=
  v.data_.map (· + Word.mul (v.offset indices) (kDTypeSize v.dtype_))

/-- `TensorView(data, shape, dtype, device, layout)`. -/
def ofShape (data : Option Nat) (shape : TensorShape) (dtype : DType) (device : DeviceType)
    (layout : Layout) : Option TensorView :=
  shape.strides.map (⟨data, shape, dtype, device, layout, ·⟩)

end TensorView

/-- `std::swap(shape[i], shape[j])`. -/
def TensorShape.swap (s : TensorShape) (i j : Nat) : Option TensorShape :=
  (s.dims_.get i).bind fun d => (s.dims_.get j).bind fun e =>
    (s.dims_.set i e).bind fun a => (a.set j d).map (⟨·, s.ndims_⟩)

/-- `std::swap(strides[i], strides[j])`. -/
def swap_strides (strides : List Int) (i j : Nat) : Option (List Int) :=
  strides[i]?.bind fun d => strides[j]?.map fun e => (strides.set i e).set j d

namespace Tensor

def view (t : Tensor) : Option TensorView :=
  TensorView.ofShape t.data t.shape_ t.dtype_ t.device_ t.layout_

/-- The assertions of `reshape` and `transpose` are off in a release build. -/
def reshape (t : Tensor) (new_shape : TensorShape) : Option TensorView :=
  TensorView.ofShape t.data new_shape t.dtype_ t.device_ t.layout_

def transpose (t : Tensor) (dim0 dim1 : Nat) : Option TensorView :=
  (t.shape_.swap dim0 dim1).bind fun new_shape => t.shape_.strides.bind fun strides =>
    (swap_strides strides dim0 dim1).map fun new_strides =>
      ⟨t.data, new_shape, t.dtype_, t.device_, .kStrided, new_strides⟩

end Tensor

namespace TensorShape

variable {s : TensorShape}

/-! ## Counts -/

theorem holds_of_dims {ds : List Int} (hne : ds ≠ []) (h : s.dims = some ds) : s.Holds ds := by
  have hget := h
  unfold dims at hget
  rw [mapM_eq_some] at hget
  have hlen : s.ndims_.toNat = ds.length := by simpa using congrArg List.length hget
  have hpos := List.length_pos_iff.mpr hne
  refine ⟨by omega, ?_, ?_⟩
  · by_contra hlt
    rw [dims_of_lt (by omega)] at h
    cases h
  · intro i hi
    have hi' := congrArg (·[i]?) hget
    simpa [hlen, hi] using hi'

/-- The count is the product, modulo `2^64`. -/
theorem Holds.num_elements {ds : List Int} (h : s.Holds ds) (hne : ds ≠ []) :
    s.num_elements = some (ds.prod.bmod wordSize) := by
  have hget := h.dims
  unfold TensorShape.dims at hget
  rw [mapM_eq_some] at hget
  have hpos := List.length_pos_iff.mpr hne
  have hrank : s.ndims_ ≠ 0 := by
    rw [h.ndims_]
    omega
  unfold TensorShape.num_elements
  rw [if_neg hrank, CheckedLoop.foldlM_map hget imul, foldl_imul_one]

/-- A count is an `index_t`. -/
theorem num_elements_lt {n : Int} (h : s.num_elements = some n) : n < 2 ^ 63 := by
  have hloop : ∀ (l : List Nat) (b : Int), b < 2 ^ 63 →
      l.foldlM (fun n i => (s.dims_.get i).map (imul n)) b = some n → n < 2 ^ 63 := by
    intro l
    induction l with
    | nil =>
      intro b hb hl
      cases hl
      exact hb
    | cons i l ih =>
      intro b _ hl
      obtain ⟨c, hc, hrest⟩ := Option.bind_eq_some_iff.mp ((List.foldlM_cons ..).symm.trans hl)
      obtain ⟨d, -, rfl⟩ := Option.map_eq_some_iff.mp hc
      exact ih _ (imul_lt b d) hrest
  unfold num_elements at h
  split_ifs at h
  · cases h
    decide
  · exact hloop _ 1 (by decide) h

/-- The shape has these dimensions, all above 0, and an `index_t` counts its elements. -/
structure Fits (s : TensorShape) (ds : List Nat) : Prop where
  dims : s.dims = some (ds.map Nat.cast)
  ne_nil : ds ≠ []
  pos : ∀ d ∈ ds, 0 < d
  prod_lt : ds.prod < 2 ^ 63

variable {ds : List Nat}

theorem Fits.holds (h : s.Fits ds) : s.Holds (ds.map Nat.cast) :=
  holds_of_dims (by simpa using h.ne_nil) h.dims

theorem Fits.ndims_ (h : s.Fits ds) : s.ndims_ = ds.length := by
  rw [h.holds.ndims_, List.length_map]

theorem Fits.get (h : s.Fits ds) {i : Nat} (hi : i < ds.length) :
    s.dims_.get i = some (ds.getD i 0 : Int) := by
  rw [h.holds.get i (by simpa using hi), List.getElem?_map, List.getElem?_eq_getElem hi,
    List.getD_eq_getElem _ _ hi]
  rfl

theorem Fits.num_elements (h : s.Fits ds) : s.num_elements = some (ds.prod : Int) := by
  rw [h.holds.num_elements (by simpa using h.ne_nil), ← Nat.cast_list_prod,
    bmod_of_range (by omega) (by exact_mod_cast h.prod_lt)]

/-- As the count of the exact model. -/
theorem Fits.num_elements_eq (h : s.Fits ds) :
    s.num_elements = some ((sci.TensorShape.mk ds).num_elements : Int) := by
  rw [h.num_elements, sci.TensorShape.num_elements_eq]
  exact (List.length_pos_iff.mpr h.ne_nil).ne'

/-! ## Strides -/

/-- The loop has made the entries from `i` on, and makes the others. -/
theorem Fits.strides_loop (h : s.Fits ds) {i : Nat} {l : List Int} (hlen : l.length = ds.length)
    (hi : i < ds.length)
    (hdone : ∀ k, i ≤ k → k < ds.length → l.getD k 0 = ((RowMajor.strides ds).getD k 0 : Int)) :
    s.strides_loop i l = some ((RowMajor.strides ds).map Nat.cast) := by
  induction i generalizing l with
  | zero =>
    refine congrArg some (List.ext_getElem (by simpa using hlen) ?_)
    intro k hk _
    have hget := hdone k (Nat.zero_le _) (hlen ▸ hk)
    rw [List.getD_eq_getElem _ _ hk, List.getD_eq_getElem _ _ (by simpa [hlen] using hk)] at hget
    rw [hget, List.getElem_map]
  | succ i ih =>
    unfold TensorShape.strides_loop
    rw [h.get hi, Option.bind_some]
    apply ih (by simpa using hlen) (by omega)
    intro k hk hlt
    by_cases hki : k = i
    · subst hki
      have hstep := RowMajor.getD_strides_succ hi
      have hle := RowMajor.getD_strides_le h.pos hlt
      have hprod := h.prod_lt
      rw [List.getD_eq_getElem _ _ (by simpa [hlen] using hlt), List.getElem_set_self,
        hdone (k + 1) (by omega) hi, hstep, Nat.cast_mul]
      rw [hstep] at hle
      have hnonneg : (0 : Int) ≤
          (RowMajor.strides ds).getD (k + 1) 0 * ds.getD (k + 1) 0 := by positivity
      exact imul_of_range (by linarith) (by exact_mod_cast lt_of_le_of_lt hle hprod)
    · rw [← hdone k (by omega) hlt, List.getD_eq_getElem?_getD, List.getElem?_set_ne (by omega),
        ← List.getD_eq_getElem?_getD]

theorem Fits.strides (h : s.Fits ds) :
    s.strides = some ((RowMajor.strides ds).map Nat.cast) := by
  have hpos := List.length_pos_iff.mpr h.ne_nil
  unfold TensorShape.strides
  rw [h.ndims_, Int.toNat_natCast, show ((ds.length : Int) - 1).toNat = ds.length - 1 by omega]
  apply h.strides_loop (by simp) (by omega)
  intro k hk hlt
  -- the last stride
  obtain rfl : k = ds.length - 1 := by omega
  rw [RowMajor.getD_strides hlt, List.drop_of_length_le (by omega),
    List.getD_eq_getElem _ _ (by simpa using hlt), List.getElem_replicate]
  rfl

/-- As the strides of the exact model. -/
theorem Fits.strides_eq (h : s.Fits ds) :
    s.strides = some ((sci.TensorShape.mk ds).strides.map Nat.cast) := by
  rw [h.strides, sci.TensorShape.strides_eq]

/-! ## Two dimensions that change places -/

theorem Fits.swap (h : s.Fits ds) {i j : Nat} (hi : i < ds.length) (hj : j < ds.length) :
    ∃ s', s.swap i j = some s' ∧ s'.Fits (RowMajor.swap ds i j) := by
  have hle : ds.length ≤ kMaxDim := by simpa using h.holds.length_le
  have hi' : i < kMaxDim := by omega
  have hj' : j < kMaxDim := by omega
  have hslots : ∀ k : Fin kMaxDim, k.val < ds.length → s.dims_ k = (ds.getD k 0 : Int) := by
    intro k hk
    have hget := h.get hk
    unfold Slots.get at hget
    rw [dif_pos k.isLt, Option.some.injEq] at hget
    exact hget
  refine ⟨⟨Function.update (Function.update s.dims_ ⟨i, hi'⟩ (ds.getD j 0)) ⟨j, hj'⟩ (ds.getD i 0),
    s.ndims_⟩, ?_, ?_, ?_, ?_, ?_⟩
  · unfold TensorShape.swap
    rw [h.get hi, h.get hj]
    simp [Slots.set, hi', hj']
  · have hholds : Holds ⟨Function.update (Function.update s.dims_ ⟨i, hi'⟩ (ds.getD j 0)) ⟨j, hj'⟩
        (ds.getD i 0), ((RowMajor.swap ds i j).map (Nat.cast : Nat → Int)).length⟩
        ((RowMajor.swap ds i j).map Nat.cast) := holds_of_slots (by simpa using hle) ?_
    · rw [h.ndims_]
      simpa using hholds.dims
    · intro k hk
      have hk' : k.val < ds.length := by simpa using hk
      have hentry : (RowMajor.swap ds i j).getD k 0 =
          if k.val = j then ds.getD i 0 else if k.val = i then ds.getD j 0 else ds.getD k 0 := by
        unfold RowMajor.swap
        rw [List.getD_eq_getElem _ _ (by simpa using hk'), List.getElem_set, List.getElem_set,
          List.getD_eq_getElem _ _ hk']
        simp only [eq_comm]
      rw [List.getD_eq_getElem _ _ hk, List.getElem_map, ← List.getD_eq_getElem _ 0, hentry]
      simp only [Function.update_apply, Fin.ext_iff, hslots k hk']
      split_ifs <;> rfl
  · simpa [← List.length_pos_iff] using List.length_pos_iff.mpr h.ne_nil
  · intro d hd
    have hprod : (RowMajor.swap ds i j).prod = ds.prod := RowMajor.prod_swap hi hj
    have := List.prod_pos h.pos
    by_contra hzero
    obtain rfl : d = 0 := by omega
    rw [← hprod, List.prod_eq_zero hd] at this
    exact Nat.lt_irrefl _ this
  · rw [RowMajor.prod_swap hi hj]
    exact h.prod_lt

theorem swap_strides_map {l : List Nat} {i j : Nat} (hi : i < l.length) (hj : j < l.length) :
    swap_strides (l.map Nat.cast) i j = some ((RowMajor.swap l i j).map Nat.cast) := by
  unfold swap_strides RowMajor.swap
  simp [hi, hj, List.map_set]

end TensorShape

namespace TensorView

/-! ## Offsets -/

theorem toSize_imul {i s : Nat} (h : i * s < 2 ^ 63) : toSize (imul i s) = i * s := by
  have hcast : ((i * s : Nat) : Int) = i * s := Nat.cast_mul i s
  rw [imul_of_range (by omega) (by omega), ← hcast, toSize_of_lt]
  exact h.trans (by decide)

/-- No product and no sum wraps around below `2^63`. -/
theorem foldl_offset {index strides : List Nat} {n : Nat}
    (h : n + RowMajor.offset index strides < 2 ^ 63) :
    ((index.map Nat.cast).zip (strides.map Nat.cast)).foldl
      (fun offset (p : Int × Int) => Word.add offset (toSize (imul p.1 p.2))) n =
    n + RowMajor.offset index strides := by
  induction index generalizing strides n with
  | nil => rfl
  | cons i index ih =>
    cases strides with
    | nil => rfl
    | cons s strides =>
      rw [RowMajor.offset_cons] at h ⊢
      have hword : n + i * s < wordSize := lt_trans (by omega) (by decide : 2 ^ 63 < wordSize)
      rw [List.map_cons, List.map_cons, List.zip_cons_cons, List.foldl_cons,
        toSize_imul (by omega), Word.add_of_lt hword, ih (by omega), Nat.add_assoc]

theorem offset_eq {v : TensorView} {index strides : List Nat}
    (hstrides : v.strides_ = strides.map Nat.cast)
    (h : RowMajor.offset index strides < 2 ^ 63) :
    v.offset (index.map Nat.cast) = RowMajor.offset index strides := by
  unfold offset
  rw [hstrides, foldl_offset (by omega), Nat.zero_add]

/-- The view has the row-major strides of its shape. -/
structure IsRowMajor (v : TensorView) (ds : List Nat) : Prop where
  shape_ : v.shape_.Fits ds
  strides_ : v.strides_ = (RowMajor.strides ds).map Nat.cast

variable {v : TensorView} {ds : List Nat}

theorem IsRowMajor.offset (h : v.IsRowMajor ds) {index : List Nat} (hi : Within index ds) :
    v.offset (index.map Nat.cast) = RowMajor.offset index (RowMajor.strides ds) :=
  offset_eq h.strides_ (hi.offset_lt.trans h.shape_.prod_lt)

theorem exists_isRowMajor {shape : TensorShape} (h : shape.Fits ds) (data : Option Nat)
    (dtype : DType) (device : DeviceType) (layout : Layout) :
    ∃ v, ofShape data shape dtype device layout = some v ∧ v.IsRowMajor ds ∧ v.data_ = data ∧
      v.dtype_ = dtype := by
  refine ⟨⟨data, shape, dtype, device, layout, (RowMajor.strides ds).map Nat.cast⟩, ?_,
    ⟨h, rfl⟩, rfl, rfl⟩
  unfold ofShape
  rw [h.strides]
  rfl

/-- The addresses of the elements in lexicographic order are one behind the other. -/
theorem IsRowMajor.map_at (h : v.IsRowMajor ds) :
    (indices ds).map (fun index => v.at (index.map Nat.cast)) =
      (List.range ds.prod).map fun k => v.data_.map (· + Word.mul k (kDTypeSize v.dtype_)) := by
  rw [← RowMajor.map_offset_indices, List.map_map]
  apply List.map_congr_left
  intro index hindex
  unfold «at»
  rw [h.offset (RowMajor.mem_indices.mp hindex)]
  rfl

end TensorView

/-- A shape with as many elements fits too. -/
theorem TensorShape.Fits.of_prod {s s' : TensorShape} {ds ds' : List Nat} (h : s.Fits ds)
    (hdims : s'.dims = some (ds'.map Nat.cast)) (hne : ds' ≠ []) (hprod : ds'.prod = ds.prod) :
    s'.Fits ds' := by
  refine ⟨hdims, hne, ?_, hprod ▸ h.prod_lt⟩
  have hpos := List.prod_pos h.pos
  intro d hd
  by_contra hzero
  obtain rfl : d = 0 := by omega
  rw [← hprod, List.prod_eq_zero hd] at hpos
  exact Nat.lt_irrefl _ hpos

/-! ## The views of a tensor -/

namespace Tensor

variable {t : Tensor} {ds : List Nat}

/-- A view with two dimensions that change places has the element of the view before at the index
with the coordinates changed back. -/
theorem transpose_offset (h : t.shape_.Fits ds) {dim0 dim1 : Nat} (h0 : dim0 < ds.length)
    (h1 : dim1 < ds.length) {v : TensorView} (hv : v.IsRowMajor ds) :
    ∃ w, t.transpose dim0 dim1 = some w ∧ w.shape_.Fits (RowMajor.swap ds dim0 dim1) ∧
      ∀ index, Within index (RowMajor.swap ds dim0 dim1) →
        w.offset (index.map Nat.cast) =
          v.offset ((RowMajor.swap index dim0 dim1).map Nat.cast) := by
  obtain ⟨new_shape, hshape, hfits⟩ := h.swap h0 h1
  refine ⟨⟨t.data, new_shape, t.dtype_, t.device_, .kStrided,
    (RowMajor.swap (RowMajor.strides ds) dim0 dim1).map Nat.cast⟩, ?_, hfits, ?_⟩
  · unfold transpose
    rw [hshape, h.strides, Option.bind_some, Option.bind_some,
      TensorShape.swap_strides_map (by simpa using h0) (by simpa using h1)]
    rfl
  · intro index hindex
    have hlen : index.length = ds.length := by simpa using List.Forall₂.length_eq hindex
    rw [TensorView.offset_eq rfl ((hindex.offset_swap_lt h0 h1).trans h.prod_lt),
      hv.offset (hindex.swap_back h0 h1),
      RowMajor.offset_swap_strides (hlen ▸ h0) (hlen ▸ h1) (by simpa using hlen)]

/-- The offsets of a view grow with the index in lexicographic order, and number the elements from
0 on; so a reshaped tensor has its elements in the same order, and a transposed one has them at
the indices with two coordinates changed. -/
theorem offsets_number_the_elements_in_order (h : t.shape_.Fits ds) :
    t.shape_.num_elements = some (ds.prod : Int) ∧
    ∃ v, t.view = some v ∧
      (∀ index index', Within index ds → Within index' ds → List.Lex (· < ·) index index' →
        v.offset (index.map Nat.cast) < v.offset (index'.map Nat.cast)) ∧
      Set.BijOn (fun index => v.offset (index.map Nat.cast)) {index | Within index ds}
        (Set.Iio ds.prod) ∧
      (∀ new_shape ds', new_shape.dims = some (ds'.map Nat.cast) → ds' ≠ [] →
        ds'.prod = ds.prod →
        ∃ w, t.reshape new_shape = some w ∧
          (indices ds').map (fun index => w.at (index.map Nat.cast)) =
            (indices ds).map fun index => v.at (index.map Nat.cast)) ∧
      ∀ dim0 dim1, dim0 < ds.length → dim1 < ds.length →
        ∃ w, t.transpose dim0 dim1 = some w ∧ w.shape_.Fits (RowMajor.swap ds dim0 dim1) ∧
          ∀ index, Within index (RowMajor.swap ds dim0 dim1) →
            w.offset (index.map Nat.cast) =
              v.offset ((RowMajor.swap index dim0 dim1).map Nat.cast) := by
  obtain ⟨v, hview, hv, hdata, hdtype⟩ :=
    TensorView.exists_isRowMajor h t.data t.dtype_ t.device_ t.layout_
  refine ⟨h.num_elements, v, hview, ?_, ?_, ?_, ?_⟩
  · intro index index' hindex hindex' hlex
    rw [hv.offset hindex, hv.offset hindex']
    exact RowMajor.offset_lt_of_lex hindex hindex' hlex
  · exact (RowMajor.bijOn_offset ds).congr fun index hindex => (hv.offset hindex).symm
  · intro new_shape ds' hdims hne hprod
    obtain ⟨w, hreshape, hw, hdata', hdtype'⟩ :=
      TensorView.exists_isRowMajor (h.of_prod hdims hne hprod) t.data t.dtype_ t.device_ t.layout_
    refine ⟨w, hreshape, ?_⟩
    rw [hw.map_at, hv.map_at, hprod, hdata, hdata', hdtype, hdtype']
  · intro dim0 dim1 h0 h1
    exact transpose_offset h h0 h1 hv

/-- Two rows of three bytes. -/
def grid : Tensor :=
  ⟨⟨fun i => [2, 3].getD i 0, 2⟩, .kInt8, .kContiguous, .kCPU, some 100, 6⟩

theorem fits_grid : grid.shape_.Fits [2, 3] := ⟨by decide, by decide, by decide, by decide⟩

/-- Six elements, which a transposition has at the indices of three rows of two. -/
theorem grid_is_numbered : ∃ v, grid.view = some v ∧
    Set.BijOn (fun index => v.offset (index.map Nat.cast)) {index | Within index [2, 3]}
      (Set.Iio 6) ∧
    ∃ w, grid.transpose 0 1 = some w ∧ ∀ index, Within index [3, 2] →
      w.offset (index.map Nat.cast) = v.offset ((RowMajor.swap index 0 1).map Nat.cast) := by
  obtain ⟨-, v, hview, -, hbij, -, htranspose⟩ := offsets_number_the_elements_in_order fits_grid
  obtain ⟨w, hw, -, hoffset⟩ := htranspose 0 1 (by decide) (by decide)
  exact ⟨v, hview, hbij, w, hw, hoffset⟩

end Tensor

end sci.int64
