-- Tensors on the CPU and views of them (include/core/types.hpp, include/tensor/tensor.hpp,
-- src/tensor/tensor.cpp). Addresses are byte addresses. The numbers are exact: the bytes
-- of a tensor fit its buffer, and the code's indices and strides stay below their count.
import Scicompute.RowMajor
import Scicompute.BlockMemory

namespace sci

inductive DType
  | kFloat32
  | kFloat16
  | kBFloat16
  | kInt8
  | kInt32
  | kInt64
  | kBool
  | kFloat64
  | kUInt8
  deriving DecidableEq

def kDTypeSize : DType → Nat
  | .kFloat32 => 4
  | .kFloat16 => 2
  | .kBFloat16 => 2
  | .kInt8 => 1
  | .kInt32 => 4
  | .kInt64 => 8
  | .kBool => 1
  | .kFloat64 => 8
  | .kUInt8 => 1

theorem kDTypeSize_pos (dtype : DType) : 0 < kDTypeSize dtype := by
  cases dtype <;> decide

inductive Layout
  | kContiguous
  | kColumnMajor
  | kStrided
  deriving DecidableEq

inductive DeviceType
  | kCPU
  | kCUDA
  | kCPUPinned
  deriving DecidableEq

/-! ## Shapes -/

/-- The first `ndims_` entries of `dims_`. -/
structure TensorShape where
  dims : List Nat
  deriving DecidableEq

namespace TensorShape

def ndims (s : TensorShape) : Nat := s.dims.length

/-- The entries of `dims_` behind the last dimension are 0. -/
def dim (s : TensorShape) (i : Nat) : Nat := s.dims.getD i 0

/-- `shape[i] = d`. -/
def set (s : TensorShape) (i d : Nat) : TensorShape := ⟨s.dims.set i d⟩

/-- `std::swap(shape[i], shape[j])`. -/
def swap (s : TensorShape) (i j : Nat) : TensorShape := ⟨RowMajor.swap s.dims i j⟩

def num_elements (s : TensorShape) : Nat :=
  if s.ndims = 0 then 0 else s.dims.foldl (· * ·) 1

/-- The loop of `strides()`, from the last entry to the first. -/
def stridesLoop : List Nat → List Nat
  | [] => []
  | [_] => [1]
  | _ :: d :: dims =>
    let s := stridesLoop (d :: dims)
    s.headD 0 * d :: s

def strides (s : TensorShape) : List Nat := stridesLoop s.dims

/-- A shape without dimensions has no elements, and so no index. -/
def Valid (s : TensorShape) (indices : List Nat) : Prop :=
  s.ndims ≠ 0 ∧ RowMajor.Within indices s.dims

instance (s : TensorShape) (indices : List Nat) : Decidable (s.Valid indices) :=
  inferInstanceAs (Decidable (_ ∧ _))

theorem num_elements_eq (s : TensorShape) (h : s.ndims ≠ 0) : s.num_elements = s.dims.prod := by
  unfold num_elements
  rw [if_neg h, List.prod_eq_foldl]

theorem stridesLoop_eq (dims : List Nat) : stridesLoop dims = RowMajor.strides dims := by
  induction dims using stridesLoop.induct with
  | case1 => rfl
  | case2 d => rfl
  | case3 c d dims ih =>
    unfold stridesLoop
    rw [ih]
    simp [RowMajor.strides, Nat.mul_comm]

theorem strides_eq (s : TensorShape) : s.strides = RowMajor.strides s.dims :=
  stridesLoop_eq s.dims

end TensorShape

/-! ## Tensors and views -/

structure Tensor where
  shape_ : TensorShape
  dtype_ : DType
  layout_ : Layout
  /-- `device_->type()`. -/
  device_ : DeviceType
  /-- `buffer_.data()`. -/
  data : Nat

structure TensorView where
  data_ : Nat
  shape_ : TensorShape
  dtype_ : DType
  device_ : DeviceType
  layout_ : Layout
  strides_ : List Nat

namespace TensorView

def num_bytes (v : TensorView) : Nat := v.shape_.num_elements * kDTypeSize v.dtype_

def offset (v : TensorView) (indices : List Nat) : Nat :=
  (indices.zip v.strides_).foldl (fun offset p => offset + p.1 * p.2) 0

/-- The address of an element. -/
def «at» (v : TensorView) (indices : List Nat) : Nat :=
  v.data_ + v.offset indices * kDTypeSize v.dtype_

end TensorView

namespace Tensor

def strides (t : Tensor) : List Nat := t.shape_.strides

def stride (t : Tensor) (i : Nat) : Nat := t.strides.getD i 0

def num_bytes (t : Tensor) : Nat := t.shape_.num_elements * kDTypeSize t.dtype_

def view (t : Tensor) : TensorView where
  data_ := t.data
  shape_ := t.shape_
  dtype_ := t.dtype_
  device_ := t.device_
  layout_ := t.layout_
  strides_ := t.strides

/-- The assertions are off in a release build. The callers of this model meet them. -/
def reshape (t : Tensor) (new_shape : TensorShape) : TensorView where
  data_ := t.data
  shape_ := new_shape
  dtype_ := t.dtype_
  device_ := t.device_
  layout_ := t.layout_
  strides_ := new_shape.strides

def slice (t : Tensor) (dim start «end» : Nat) : TensorView where
  data_ := t.data + start * t.stride dim * kDTypeSize t.dtype_
  shape_ := t.shape_.set dim («end» - start)
  dtype_ := t.dtype_
  device_ := t.device_
  layout_ := t.layout_
  -- the strides of the new shape, not those of the tensor
  strides_ := (t.shape_.set dim («end» - start)).strides

def transpose (t : Tensor) (dim0 dim1 : Nat) : TensorView where
  data_ := t.data
  shape_ := t.shape_.swap dim0 dim1
  dtype_ := t.dtype_
  device_ := t.device_
  layout_ := .kStrided
  strides_ := RowMajor.swap t.strides dim0 dim1

end Tensor

/-! ## The CPU device and copies -/

namespace CPUDevice

/-- `data` is what `malloc` returns. The bytes are set to 0. -/
def allocate (m : Nat → UInt8) (data bytes : Nat) : Nat → UInt8 := BlockMemory.fill m data bytes 0

def copy_to_device (m : Nat → UInt8) (dst src bytes : Nat) : Nat → UInt8 :=
  BlockMemory.copy m dst src bytes

end CPUDevice

/-- `clone()` of a view on the CPU. The buffer of the new tensor is at `data`. -/
def TensorView.clone (v : TensorView) (m : Nat → UInt8) (data : Nat) :
    Tensor × (Nat → UInt8) :=
  let t : Tensor :=
    { shape_ := v.shape_, dtype_ := v.dtype_, layout_ := .kContiguous, device_ := .kCPU,
      data := data }
  (t, CPUDevice.copy_to_device (CPUDevice.allocate m data t.num_bytes) t.data v.data_ v.num_bytes)

/-- The bytes of an element. -/
def TensorView.element (v : TensorView) (m : Nat → UInt8) (indices : List Nat) : List UInt8 :=
  BlockMemory.load m (v.at indices) (kDTypeSize v.dtype_)

/-! ## Places of elements -/

namespace TensorView

theorem offset_eq (v : TensorView) (indices : List Nat) :
    v.offset indices = RowMajor.offset indices v.strides_ := by
  have hloop : ∀ (l : List (Nat × Nat)) (n : Nat),
      l.foldl (fun offset p => offset + p.1 * p.2) n = n + (l.map fun p => p.1 * p.2).sum := by
    intro l
    induction l with
    | nil => simp
    | cons p l ih =>
      intro n
      rw [List.foldl_cons, ih, List.map_cons, List.sum_cons, Nat.add_assoc]
  unfold offset RowMajor.offset
  rw [hloop, Nat.zero_add, List.zip, List.map_zipWith]

end TensorView

end sci
