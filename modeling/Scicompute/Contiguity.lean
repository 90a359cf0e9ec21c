-- The checks that a view and a GPU tensor have their elements one behind the other, whatever
-- their strides are (src/tensor/tensor.cpp, src/gpu/gpu_tensor.cpp). A read behind the strides is
-- undefined, and gives `none`. Products wrap around, as they do where the strides are computed.
import Scicompute.TensorIndexing

open Word
open RowMajor (Within Packed)

namespace sci.int64

/-- A shape without dimensions has no elements, and so no index. -/
def TensorShape.indices (ds : List Nat) : List (List Nat) :=
  if ds = [] then [] else RowMajor.indices ds

/-- The product of the dimensions from `i` on is reached without wrapping around. -/
theorem imul_prod_drop {ds : List Nat} (hpos : ∀ d ∈ ds, 0 < d) (hlt : ds.prod < 2 ^ 63) {i : Nat}
    (hi : i < ds.length) :
    imul ((ds.drop (i + 1)).prod : Int) ((ds[i] : Nat) : Int) = ((ds.drop i).prod : Int) := by
  have hdrop : (ds.drop i).prod = ds[i] * (ds.drop (i + 1)).prod := by
    rw [List.drop_eq_getElem_cons hi, List.prod_cons]
  have hle : (ds.drop i).prod ≤ ds.prod :=
    Nat.le_of_dvd (List.prod_pos hpos) (List.drop_sublist i ds).prod_dvd_prod
  rw [imul_of_range]
  · rw [hdrop, Nat.cast_mul, mul_comm]
  · exact (by decide : (-2 ^ 63 : Int) ≤ 0).trans (by positivity)
  · rw [← Nat.cast_mul, mul_comm, ← hdrop]
    exact_mod_cast hle.trans_lt hlt

namespace TensorView

/-- The loop of `is_contiguous`, for the dimensions `i - 1` down to 0. -/
def contiguous_loop (v : TensorView) : Nat → Int → Option Bool
  | 0, _ => some true
  | i + 1, expected_stride =>
    v.strides_[i]?.bind fun stride =>
      if stride ≠ expected_stride then some false
      else (v.shape_.dims_.get i).bind fun d => v.contiguous_loop i (imul expected_stride d)

def is_contiguous (v : TensorView) : Option Bool :=
  if v.layout_ ≠ .kContiguous then some false else v.contiguous_loop v.shape_.ndims_.toNat 1

variable {v : TensorView} {ds : List Nat}

/-- The loop has found the strides from `i` on right, and checks the others. -/
theorem packed_of_contiguous_loop (hds : v.shape_.Holds (ds.map Nat.cast))
    (hpos : ∀ d ∈ ds, 0 < d) (hlt : ds.prod < 2 ^ 63) {i : Nat} (hi : i ≤ ds.length)
    (hrest : Packed (ds.drop i) (v.strides_.drop i))
    (h : v.contiguous_loop i ((ds.drop i).prod : Int) = some true) : Packed ds v.strides_ := by
  induction i with
  | zero => exact hrest
  | succ i ih =>
    unfold contiguous_loop at h
    obtain ⟨stride, hstride, h⟩ := Option.bind_eq_some_iff.mp h
    split_ifs at h with hne
    · cases h
    rw [not_not] at hne
    obtain ⟨d, hd, h⟩ := Option.bind_eq_some_iff.mp h
    rw [hds.get i (by simpa using hi), List.getElem?_map, List.getElem?_eq_getElem hi,
      Option.map_some, Option.some.injEq] at hd
    obtain ⟨hlen, hget⟩ := List.getElem?_eq_some_iff.mp hstride
    have hdrop : ds.drop i = ds[i] :: ds.drop (i + 1) := List.drop_eq_getElem_cons hi
    apply ih (by omega)
    · rw [hdrop, List.drop_eq_getElem_cons hlen, hget]
      exact ⟨fun _ => hne, hrest⟩
    · rwa [← hd, imul_prod_drop hpos hlt hi] at h

/-- No product of an offset wraps around, whatever the stride of a dimension 1 is. -/
theorem foldl_packed {index : List Nat} {strides : List Int} {n : Nat}
    (h : Packed ds strides) (hi : Within index ds)
    (hlt : n + RowMajor.offset index (RowMajor.strides ds) < 2 ^ 63) :
    ((index.map Nat.cast).zip strides).foldl
      (fun offset (p : Int × Int) => Word.add offset (toSize (imul p.1 p.2))) n =
    n + RowMajor.offset index (RowMajor.strides ds) := by
  induction hi generalizing strides n with
  | nil => rfl
  | @cons i d index ds hid _ ih =>
    cases strides with
    | nil => exact h.elim
    | cons s strides =>
      rw [RowMajor.packed_cons] at h
      rw [RowMajor.strides, RowMajor.offset_cons] at hlt ⊢
      have hproduct : toSize (imul i s) = i * ds.prod := by
        have hmul := toSize_imul (i := i) (s := ds.prod) (by omega)
        unfold imul at hmul ⊢
        rwa [RowMajor.mul_packed_stride hid h.1, Nat.cast_mul]
      have hword : n + i * ds.prod < wordSize :=
        lt_trans (by omega) (by decide : 2 ^ 63 < wordSize)
      rw [List.map_cons, List.zip_cons_cons, List.foldl_cons, hproduct, Word.add_of_lt hword,
        ih h.2 (by omega), Nat.add_assoc]

/-- The elements of a view that is contiguous lie at the offsets 0, 1, 2 and so on. -/
theorem map_offset_of_is_contiguous (hds : v.shape_.Holds (ds.map Nat.cast))
    (hpos : ∀ d ∈ ds, 0 < d) (hlt : ds.prod < 2 ^ 63) (h : v.is_contiguous = some true) :
    ∃ n : Nat, v.shape_.num_elements = some (n : Int) ∧
      (TensorShape.indices ds).map (fun index => v.offset (index.map Nat.cast)) =
        List.range n := by
  by_cases hne : ds = []
  · subst hne
    refine ⟨0, ?_, rfl⟩
    unfold TensorShape.num_elements
    rw [hds.ndims_]
    rfl
  · unfold is_contiguous at h
    split_ifs at h
    · cases h
    rw [hds.ndims_, Int.toNat_natCast, List.length_map] at h
    have hpacked : Packed ds v.strides_ :=
      packed_of_contiguous_loop hds hpos hlt (Nat.le_refl _) (by simp) (by simpa using h)
    have hfits : v.shape_.Fits ds := ⟨hds.dims, hne, hpos, hlt⟩
    refine ⟨ds.prod, hfits.num_elements, ?_⟩
    unfold TensorShape.indices
    rw [if_neg hne, ← RowMajor.map_offset_indices]
    apply List.map_congr_left
    intro index hindex
    have hin := RowMajor.mem_indices.mp hindex
    have hoffset := foldl_packed (n := 0) hpacked hin
      (by simpa using hin.offset_lt.trans hlt)
    rwa [Nat.zero_add] at hoffset

end TensorView

end sci.int64

namespace sci.gpu

/-- The members that the check reads. -/
structure GpuTensor where
  shape_ : List Int
  strides_ : List Int

namespace GpuTensor

def size (t : GpuTensor) : Int := t.shape_.foldl imul 1

/-- The loop of `is_contiguous`, for the dimensions `i - 1` down to 0. -/
def contiguous_loop (t : GpuTensor) : Nat → Int → Option Bool
  | 0, _ => some true
  | i + 1, expected =>
    t.shape_[i]?.bind fun d =>
      if d = 1 then t.contiguous_loop i expected
      else t.strides_[i]?.bind fun stride =>
        if stride ≠ expected then some false else t.contiguous_loop i (imul expected d)

/-- The number of the dimensions is cast to `int`, and 1 is taken from it. -/
def is_contiguous (t : GpuTensor) : Option Bool :=
  let i := narrow (Word.toInt t.shape_.length - 1)
  t.contiguous_loop (i + 1).toNat 1

variable {t : GpuTensor} {ds : List Nat}

/-- The loop has found the strides from `i` on right, and checks the others. -/
theorem packed_of_contiguous_loop (hds : t.shape_ = ds.map Nat.cast) (hpos : ∀ d ∈ ds, 0 < d)
    (hlt : ds.prod < 2 ^ 63) (hlen : ds.length ≤ t.strides_.length) {i : Nat}
    (hi : i ≤ ds.length) (hrest : Packed (ds.drop i) (t.strides_.drop i))
    (h : t.contiguous_loop i ((ds.drop i).prod : Int) = some true) : Packed ds t.strides_ := by
  induction i with
  | zero => exact hrest
  | succ i ih =>
    unfold contiguous_loop at h
    have hdrop : ds.drop i = ds[i] :: ds.drop (i + 1) := List.drop_eq_getElem_cons hi
    have hstrides : t.strides_.drop i = t.strides_[i] :: t.strides_.drop (i + 1) :=
      List.drop_eq_getElem_cons (by omega)
    rw [hds, List.getElem?_map, List.getElem?_eq_getElem hi, Option.map_some,
      Option.bind_some] at h
    split_ifs at h with hone
    · -- a dimension that is 1 leaves the expected stride
      have hone : ds[i] = 1 := by exact_mod_cast hone
      have hprod : (ds.drop i).prod = (ds.drop (i + 1)).prod := by
        rw [hdrop, List.prod_cons, hone, Nat.one_mul]
      apply ih (by omega)
      · rw [hdrop, hstrides]
        exact ⟨fun hne => absurd hone hne, hrest⟩
      · rwa [hprod]
    · obtain ⟨stride, hstride, h⟩ := Option.bind_eq_some_iff.mp h
      split_ifs at h with hne
      · cases h
      rw [not_not] at hne
      obtain ⟨hin, hget⟩ := List.getElem?_eq_some_iff.mp hstride
      apply ih (by omega)
      · rw [hdrop, hstrides, hget]
        exact ⟨fun _ => hne, hrest⟩
      · rwa [int64.imul_prod_drop hpos hlt hi] at h

/-- The elements of a contiguous tensor of fewer than `2^31` dimensions lie at 0, 1, 2 and so on. -/
theorem map_offset_of_is_contiguous (hds : t.shape_ = ds.map Nat.cast)
    (hpos : ∀ d ∈ ds, 0 < d) (hlt : ds.prod < 2 ^ 63) (hndim : ds.length < 2 ^ 31)
    (hlen : ds.length ≤ t.strides_.length) (h : t.is_contiguous = some true) :
    t.size = ds.prod ∧ (RowMajor.indices ds).map (RowMajor.signedOffset · t.strides_) =
      (List.range ds.prod).map Nat.cast := by
  unfold is_contiguous at h
  have hcast : narrow (Word.toInt t.shape_.length - 1) + 1 = ds.length := by
    rw [hds, List.length_map, Word.toInt_of_lt hndim, narrow_of_range (by omega) (by omega)]
    omega
  simp only [hcast, Int.toNat_natCast] at h
  have hpacked : Packed ds t.strides_ :=
    packed_of_contiguous_loop hds hpos hlt hlen (Nat.le_refl _) (by simp) (by simpa using h)
  refine ⟨?_, hpacked.map_signedOffset⟩
  unfold size
  rw [hds, foldl_imul_one, ← Nat.cast_list_prod,
    bmod_of_range (by omega) (by exact_mod_cast hlt)]

end GpuTensor

/-- Views and GPU tensors that are contiguous have their elements, in lexicographic order, at the
offsets from 0 to one less than their number, which is an `int64_t`. -/
theorem contiguous_elements_are_consecutive :
    (∀ (v : int64.TensorView) (ds : List Nat), v.shape_.Holds (ds.map Nat.cast) →
      (∀ d ∈ ds, 0 < d) → ds.prod < 2 ^ 63 → v.is_contiguous = some true →
      ∃ n : Nat, v.shape_.num_elements = some (n : Int) ∧
        (int64.TensorShape.indices ds).map (fun index => v.offset (index.map Nat.cast)) =
          List.range n) ∧
    ∀ (t : GpuTensor) (ds : List Nat), t.shape_ = ds.map Nat.cast → (∀ d ∈ ds, 0 < d) →
      ds.prod < 2 ^ 63 → ds.length < 2 ^ 31 → ds.length ≤ t.strides_.length →
      t.is_contiguous = some true →
      t.size = ds.prod ∧ (RowMajor.indices ds).map (RowMajor.signedOffset · t.strides_) =
        (List.range ds.prod).map Nat.cast :=
  ⟨fun _ _ hds hpos hlt h => int64.TensorView.map_offset_of_is_contiguous hds hpos hlt h,
    fun _ _ hds hpos hlt hndim hlen h =>
      GpuTensor.map_offset_of_is_contiguous hds hpos hlt hndim hlen h⟩

/-- Two rows of three elements, and a dimension between them that has any stride. -/
def rowsOfThree : GpuTensor := ⟨[2, 1, 3], [3, -7, 1]⟩

theorem rows_of_three_are_consecutive :
    (∃ n : Nat, int64.Tensor.grid.shape_.num_elements = some (n : Int) ∧
      (int64.TensorShape.indices [2, 3]).map (fun index =>
        (int64.TensorView.mk none int64.Tensor.grid.shape_ .kInt8 .kCPU .kContiguous
          [3, 1]).offset (index.map Nat.cast)) = List.range n) ∧
    (RowMajor.indices [2, 1, 3]).map (RowMajor.signedOffset · [3, -7, 1]) = [0, 1, 2, 3, 4, 5] :=
  ⟨contiguous_elements_are_consecutive.1
      ⟨none, int64.Tensor.grid.shape_, .kInt8, .kCPU, .kContiguous, [3, 1]⟩ [2, 3]
      int64.Tensor.fits_grid.holds (by decide) (by decide) (by decide),
    (contiguous_elements_are_consecutive.2 rowsOfThree [2, 1, 3] rfl (by decide) (by decide)
      (by decide) (by decide) (by decide)).2⟩

/-- Many dimensions that are 1, and a last one of two elements with the stride 5. -/
def longTensor (n : Nat) : GpuTensor := ⟨List.replicate n 1 ++ [2], List.replicate n 1 ++ [5]⟩

/-- A number of dimensions that is below 0 as an `int` leaves nothing to check. -/
theorem longTensor_is_contiguous {n : Nat} (hzero : narrow (Word.toInt (n + 1) - 1) + 1 ≤ 0) :
    (longTensor n).is_contiguous = some true := by
  have hndim : (longTensor n).shape_.length = n + 1 := by simp [longTensor]
  unfold GpuTensor.is_contiguous
  simp only [hndim, Int.toNat_of_nonpos hzero]
  rfl

theorem longTensor_offsets (n : Nat) :
    (RowMajor.indices (List.replicate n 1 ++ [2])).map
        (RowMajor.signedOffset · (longTensor n).strides_) ≠
      (List.range (List.replicate n 1 ++ [2]).prod).map Nat.cast := by
  intro h
  have hindex : Within (List.replicate n 0 ++ [1]) (List.replicate n 1 ++ [2]) := by
    have hones : Within (List.replicate (List.replicate n 1).length 0) (List.replicate n 1) :=
      RowMajor.within_zeros (by simp)
    rw [List.length_replicate] at hones
    exact List.rel_append hones (RowMajor.within_cons.mpr ⟨by decide, .nil⟩)
  have hmem := List.mem_map_of_mem (f := (RowMajor.signedOffset · (longTensor n).strides_))
    (RowMajor.mem_indices.mpr hindex)
  rw [h] at hmem
  have hfive : RowMajor.signedOffset (List.replicate n 0 ++ [1]) (longTensor n).strides_ = 5 := by
    unfold RowMajor.signedOffset longTensor
    rw [List.zipWith_append (by simp)]
    simp
  obtain ⟨a, ha, hplace⟩ := List.mem_map.mp hmem
  have hlt : a < 2 := by simpa using ha
  have hafive : (a : Int) = 5 := hplace.trans hfive
  omega

/-- The strides that the code itself gives three planes of `2^32` rows of `2^32` elements. -/
def wrappedView : int64.TensorView where
  data_ := none
  shape_ := .of_initializer_list [3, 2 ^ 32, 2 ^ 32]
  dtype_ := .kInt8
  device_ := .kCPU
  layout_ := .kContiguous
  strides_ := [0, 2 ^ 32, 1]

/-- The first element of the second plane lies where that of the first one does. -/
theorem wrappedView_offsets (n : Nat) :
    (int64.TensorShape.indices [3, 2 ^ 32, 2 ^ 32]).map
        (fun index => wrappedView.offset (index.map Nat.cast)) ≠ List.range n := by
  intro h
  have hnodup := List.nodup_range (n := n)
  rw [← h] at hnodup
  have hindex : ∀ i < 3, [i, 0, 0] ∈ int64.TensorShape.indices [3, 2 ^ 32, 2 ^ 32] := by
    intro i hi
    unfold int64.TensorShape.indices
    rw [if_neg (by simp), RowMajor.mem_indices]
    simp only [RowMajor.within_cons]
    exact ⟨hi, by decide, by decide, .nil⟩
  have hsame := List.inj_on_of_nodup_map hnodup (hindex 0 (by decide)) (hindex 1 (by decide)) rfl
  simp at hsame

/-- The product of the dimensions wraps around to 0, and with `2^31 + 1` dimensions no stride is
checked. -/
theorem wrapped_and_long_tensors_pass :
    (wrappedView.shape_.strides = some wrappedView.strides_ ∧
      wrappedView.is_contiguous = some true ∧
      ∀ n, (int64.TensorShape.indices [3, 2 ^ 32, 2 ^ 32]).map
        (fun index => wrappedView.offset (index.map Nat.cast)) ≠ List.range n) ∧
    (longTensor (2 ^ 31)).is_contiguous = some true ∧
    (RowMajor.indices (List.replicate (2 ^ 31) 1 ++ [2])).map
        (RowMajor.signedOffset · (longTensor (2 ^ 31)).strides_) ≠
      (List.range (List.replicate (2 ^ 31) 1 ++ [2]).prod).map Nat.cast :=
  ⟨⟨by decide, by decide, wrappedView_offsets⟩, longTensor_is_contiguous (by decide),
    longTensor_offsets _⟩

end sci.gpu
