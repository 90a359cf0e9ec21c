-- `GpuTensor::view` and `reshape` (include/gpu/gpu_tensor.hpp, src/gpu/gpu_tensor.cpp, 17-19,
-- 62-69, 92-100). Both pass no strides to the constructor of a view, which takes them as they
-- are, and neither looks at the number of the elements.
import Scicompute.Contiguity

open Word

namespace sci.gpu

/-- `get_dtype_size(dtype)`. -/
def get_dtype_size : Int → Nat
  | 0 => 4
  | 1 => 2
  | 2 => 4
  | 3 => 8
  | 4 => 1
  | 5 => 1
  | _ => 4

/-- All members of a tensor. `P` has the pointers that are not null. -/
structure GpuTensorMembers (P : Type*) extends GpuTensor where
  data_ : Option P
  dtype_ : Int
  owns_data_ : Bool

/-- The strides that `compute_strides()` sets, from the last one to the first. -/
def GpuTensor.compute_strides : List Int → List Int
  | [] => []
  | [_] => [1]
  | _ :: d :: shape =>
    let strides := compute_strides (d :: shape)
    imul (strides.headD 0) d :: strides

namespace GpuTensorMembers

variable {P : Type*}

def nbytes (t : GpuTensorMembers P) : Nat := Word.mul (toSize t.size) (get_dtype_size t.dtype_)

/-- `GpuTensor(data, shape, strides, dtype)`. -/
def ofData (data : Option P) (shape strides : List Int) (dtype : Int) : GpuTensorMembers P :=
  ⟨⟨shape, strides⟩, data, dtype, false⟩

def view (t : GpuTensorMembers P) (new_shape : List Int) : GpuTensorMembers P :=
  ofData t.data_ new_shape [] t.dtype_

def reshape (t : GpuTensorMembers P) (new_shape : List Int) : GpuTensorMembers P :=
  { ofData t.data_ new_shape [] t.dtype_ with owns_data_ := false }

/-- The strides are those that the constructor of a new tensor computes, and the check of
contiguity stays inside of them. -/
structure HasStrides (v : GpuTensorMembers P) : Prop where
  length : v.strides_.length = v.shape_.length
  strides : v.strides_ = GpuTensor.compute_strides v.shape_
  contiguous : v.is_contiguous = some true

/-- A view of a tensor of `n` elements in a buffer of `bytes` bytes: one of as many elements has
its strides, and one of more elements does not go behind the buffer. -/
def FitsBuffer (n : Int) (bytes : Nat) (v : GpuTensorMembers P) : Prop :=
  (v.shape_.prod = n → v.HasStrides) ∧ (n < v.shape_.prod → v.nbytes ≤ bytes)

/-- The views are the same. -/
theorem reshape_eq_view (t : GpuTensorMembers P) (new_shape : List Int) :
    t.reshape new_shape = t.view new_shape := rfl

/-- A view has no strides. -/
theorem hasStrides_view_iff (t : GpuTensorMembers P) (new_shape : List Int) :
    (t.view new_shape).HasStrides ↔ new_shape = [] := by
  constructor
  · intro h
    have hlen : 0 = new_shape.length := h.length
    exact List.length_eq_zero_iff.mp hlen.symm
  · rintro rfl
    have hcontiguous : (GpuTensor.mk [] []).is_contiguous = some true := by decide
    exact ⟨rfl, rfl, hcontiguous⟩

/-- The bytes of a tensor, where the products may wrap around. -/
theorem nbytes_eq (t : GpuTensorMembers P) :
    (t.nbytes : Int) = t.shape_.prod * get_dtype_size t.dtype_ % wordSize := by
  unfold nbytes Word.mul GpuTensor.size
  rw [foldl_imul_one, toSize_bmod]
  unfold toSize
  rw [Int.natCast_mod, Nat.cast_mul, Int.toNat_of_nonneg (Int.emod_nonneg _ (by decide))]
  exact Int.ModEq.mul_right _ (Int.mod_modEq _ _)

/-- Views are right exactly when they have fewer elements, or no dimensions and one element, or
more elements whose bytes wrap around to no more than the buffer has. -/
theorem views_fit_iff (t : GpuTensorMembers P) (new_shape : List Int) (bytes : Nat) :
    ((t.view new_shape).FitsBuffer t.shape_.prod bytes ∧
      (t.reshape new_shape).FitsBuffer t.shape_.prod bytes) ↔
      new_shape.prod < t.shape_.prod ∨ (new_shape = [] ∧ t.shape_.prod = 1) ∨
        (t.shape_.prod < new_shape.prod ∧
          new_shape.prod * get_dtype_size t.dtype_ % wordSize ≤ bytes) := by
  have hshape : (t.view new_shape).shape_ = new_shape := rfl
  have hbytes : (t.view new_shape).nbytes ≤ bytes ↔
      new_shape.prod * get_dtype_size t.dtype_ % wordSize ≤ bytes := by
    rw [← Nat.cast_le (α := Int), nbytes_eq, hshape]
    rfl
  rw [reshape_eq_view, and_self]
  unfold FitsBuffer
  rw [hasStrides_view_iff, hbytes, hshape]
  rcases lt_trichotomy new_shape.prod t.shape_.prod with hlt | heq | hgt
  · exact iff_of_true ⟨fun h => absurd h hlt.ne, fun h => absurd h hlt.not_gt⟩ (Or.inl hlt)
  · have hempty : new_shape = [] → t.shape_.prod = 1 := by
      rintro rfl
      exact heq.symm
    have hirrefl := lt_irrefl t.shape_.prod
    simp only [heq, forall_const, hirrefl, false_imp_iff, and_true, false_and, or_false, false_or]
    exact ⟨fun h => ⟨h, hempty h⟩, And.left⟩
  · have hnot : ¬ (new_shape = [] ∧ t.shape_.prod = 1) := by
      rintro ⟨rfl, hone⟩
      rw [List.prod_nil, hone] at hgt
      exact lt_irrefl 1 hgt
    simp only [hgt.ne', hgt.not_gt, hgt, hnot, false_imp_iff, true_and, forall_const, false_or]

/-- Four elements in two rows of two: the check of contiguity reads behind the strides. -/
theorem four_elements_have_no_strides :
    ¬ ∀ (t : GpuTensorMembers Nat) (new_shape : List Int), t.is_contiguous = some true →
      (t.view new_shape).FitsBuffer t.shape_.prod t.nbytes := by
  intro h
  have hfits := h ⟨⟨[4], [1]⟩, some 64, 0, true⟩ [2, 2] (by decide)
  have hcontiguous : (GpuTensor.mk [2, 2] []).is_contiguous = some true :=
    (hfits.1 rfl).contiguous
  revert hcontiguous
  decide

end GpuTensorMembers

end sci.gpu
