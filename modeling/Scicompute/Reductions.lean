-- The scalar reductions (src/math/reduction.cpp) and the softmax functions on the last axis
-- (src/math/softmax.cpp, 15-120), for tensors of any type: all of them take the buffers for
-- arrays of `float`. The assertions are off. An access outside of a buffer has no result.
import Scicompute.Elementwise
import Scicompute.MatrixLoops

open Word
open CheckedLoop

namespace sci.int64

namespace Tensor

/-- A float at an offset that may be negative. -/
def read_f32_at (t : Tensor) (m : Nat → UInt8) (i : Int) : Option (BitVec 32) :=
  if 0 ≤ i then t.read_f32 m i.toNat else none

def write_f32_at (t : Tensor) (m : Nat → UInt8) (i : Int) (x : BitVec 32) :
    Option (Nat → UInt8) :=
  if 0 ≤ i then t.write_f32 m i.toNat x else none

/-- `*static_cast<int64_t*>(data()) = x` -/
def write_i64 (t : Tensor) (m : Nat → UInt8) (x : Nat) : Option (Nat → UInt8) :=
  t.data.bind fun data =>
    if 8 ≤ t.bytes then some (BlockMemory.store m data (LittleEndian.bytes 8 x)) else none

end Tensor

namespace math

/-- The other operations on floats. -/
structure MathFunctions extends Arithmetic where
  lt : BitVec 32 → BitVec 32 → Bool
  /-- `static_cast<float>(n)` -/
  ofSize : Nat → BitVec 32
  sqrt : BitVec 32 → BitVec 32
  abs : BitVec 32 → BitVec 32
  exp : BitVec 32 → BitVec 32
  log : BitVec 32 → BitVec 32
  pow : BitVec 32 → BitVec 32 → BitVec 32

namespace MathFunctions

/-- `std::max` -/
def max (f : MathFunctions) (a b : BitVec 32) : BitVec 32 := if f.lt a b then b else a

/-- `std::min` -/
def min (f : MathFunctions) (a b : BitVec 32) : BitVec 32 := if f.lt b a then b else a

end MathFunctions

/-- `1.0f` -/
def one : BitVec 32 := 0x3F800000

namespace ref

/-- The loops over an array, which begin with a value. -/
def accumulate (step : BitVec 32 → BitVec 32 → BitVec 32) (init : BitVec 32) (data : Tensor)
    (m : Nat → UInt8) (n : Nat) : Option (BitVec 32) :=
  (List.range n).foldlM (fun result i => (data.read_f32 m i).map (step result)) init

/-- The loops that begin with the first element, whether there is one or not. -/
def accumulate_from_first (step : BitVec 32 → BitVec 32 → BitVec 32) (data : Tensor)
    (m : Nat → UInt8) (n : Nat) : Option (BitVec 32) :=
  (data.read_f32 m 0).bind fun result =>
    (List.range' 1 (n - 1)).foldlM (fun result i => (data.read_f32 m i).map (step result)) result

def sum_f32 (f : MathFunctions) := accumulate f.add 0

def max_f32 (f : MathFunctions) := accumulate_from_first f.max

def min_f32 (f : MathFunctions) := accumulate_from_first f.min

def mean_f32 (f : MathFunctions) (data : Tensor) (m : Nat → UInt8) (n : Nat) :
    Option (BitVec 32) :=
  (sum_f32 f data m n).map fun s => f.div s (f.ofSize n)

def var_f32 (f : MathFunctions) (data : Tensor) (m : Nat → UInt8) (n : Nat) :
    Option (BitVec 32) :=
  (mean_f32 f data m n).bind fun mean =>
    (accumulate (fun var x => f.add var (f.mul (f.sub x mean) (f.sub x mean))) 0 data m n).map
      fun var => f.div var (f.ofSize n)

end ref

/-! ## The reductions -/

/-- What the reductions share: the output has one element of the type of the input. `got` is the
address of the memory that the CPU device gets. -/
def scalar (kernel : Tensor → (Nat → UInt8) → Nat → Option (BitVec 32)) (m : Nat → UInt8)
    (got : Nat) (a : Tensor) : Option (Except String (Tensor × (Nat → UInt8))) :=
  (Tensor.make (TensorShape.of_initializer_list [1]) a.dtype_ a.device_ (some got)).bind fun out =>
  a.shape_.num_elements.bind fun n =>
  (kernel a (out.allocated m) (toSize n)).bind fun x =>
  (out.write_f32 (out.allocated m) 0 x).map fun m => .ok (out, m)

def sum (f : MathFunctions) := scalar (ref.sum_f32 f)

def mean (f : MathFunctions) := scalar (ref.mean_f32 f)

def max (f : MathFunctions) := scalar (ref.max_f32 f)

def min (f : MathFunctions) := scalar (ref.min_f32 f)

def prod (f : MathFunctions) := scalar (ref.accumulate f.mul one)

def std (f : MathFunctions) := scalar fun a m n => (ref.var_f32 f a m n).map f.sqrt

def var (f : MathFunctions) := scalar (ref.var_f32 f)

def norm (f : MathFunctions) (p : BitVec 32) := scalar fun a m n =>
  (ref.accumulate (fun sum x => f.add sum (f.pow (f.abs x) p)) 0 a m n).map
    fun sum => f.pow sum (f.div one p)

/-- The output of `argmax` has the type `kInt64`. -/
def argmax (f : MathFunctions) (m : Nat → UInt8) (got : Nat) (a : Tensor) (axis : Int) :
    Option (Except String (Tensor × (Nat → UInt8))) :=
  if axis = -1 then
    (Tensor.make (TensorShape.of_initializer_list [1]) .kInt64 a.device_ (some got)).bind fun out =>
    a.shape_.num_elements.bind fun n =>
    (a.read_f32 (out.allocated m) 0).bind fun max_val =>
    ((List.range' 1 (toSize n - 1)).foldlM
      (fun (s : BitVec 32 × Nat) i => (a.read_f32 (out.allocated m) i).map fun x =>
        if f.lt s.1 x then (x, i) else s)
      (max_val, 0)).bind fun s =>
    (out.write_i64 (out.allocated m) s.2).map fun m => .ok (out, m)
  else some (.error "Along-axis argmax not yet implemented")

/-! ## Softmax -/

namespace ref

/-- The loop of `max_val`, for the `n` floats of `x` from the offset `off` on. -/
def max_val (f : MathFunctions) (x : Tensor) (off : Int) (n : Nat) (m : Nat → UInt8) :
    Option (BitVec 32) :=
  (x.read_f32_at m off).bind fun max_val =>
    (List.range' 1 (n - 1)).foldlM
      (fun max_val (i : Nat) => (x.read_f32_at m (off + i)).map (f.max max_val)) max_val

/-- With the stride 1. `x` and `out` are taken from the same offset on. -/
def softmax_f32 (f : MathFunctions) (x out : Tensor) (off : Int) (n : Nat) (m : Nat → UInt8) :
    Option (Nat → UInt8) :=
  (max_val f x off n m).bind fun max_val =>
  ((List.range n).foldlM
    (fun (s : (Nat → UInt8) × BitVec 32) (i : Nat) =>
      (x.read_f32_at s.1 (off + i)).bind fun v =>
      (out.write_f32_at s.1 (off + i) (f.exp (f.sub v max_val))).bind fun m =>
      (out.read_f32_at m (off + i)).map fun y => (m, f.add s.2 y))
    (m, 0)).bind fun s =>
  (List.range n).foldlM
    (fun m (i : Nat) => (out.read_f32_at m (off + i)).bind fun y =>
      out.write_f32_at m (off + i) (f.mul y (f.div one s.2))) s.1

def log_softmax_f32 (f : MathFunctions) (x out : Tensor) (off : Int) (n : Nat)
    (m : Nat → UInt8) : Option (Nat → UInt8) :=
  (max_val f x off n m).bind fun max_val =>
  ((List.range n).foldlM
    (fun sum (i : Nat) => (x.read_f32_at m (off + i)).map fun v =>
      f.add sum (f.exp (f.sub v max_val))) 0).bind fun sum =>
  (List.range n).foldlM
    (fun m (i : Nat) => (x.read_f32_at m (off + i)).bind fun v =>
      out.write_f32_at m (off + i) (f.sub v (f.add (f.log sum) max_val))) m

end ref

/-- What `softmax` and `log_softmax` share. There is no result where a product `r * cols` is not
an `int`. -/
def lastAxis (kernel : Tensor → Tensor → Int → Nat → (Nat → UInt8) → Option (Nat → UInt8))
    (message : String) (m : Nat → UInt8) (got : Nat) (a : Tensor) (axis : Int) :
    Option (Except String (Tensor × (Nat → UInt8))) :=
  (Tensor.make a.shape_ a.dtype_ a.device_ (some got)).bind fun out =>
  if axis = -1 ∨ axis = a.shape_.ndims_ - 1 then
    if a.shape_.ndims_ = 2 then
      (a.shape_.dims_.get 0).bind fun d0 => (a.shape_.dims_.get 1).bind fun d1 =>
      let rows := narrow d0
      let cols := narrow d1
      (forRows rows
        (fun r m => (mul32? r cols).bind fun off => kernel a out off (toSize cols) m)
        (out.allocated m)).map fun m => .ok (out, m)
    else
      a.shape_.num_elements.bind fun n =>
      (kernel a out 0 (toSize n) (out.allocated m)).map fun m => .ok (out, m)
  else some (.error message)

def softmax (f : MathFunctions) :=
  lastAxis (ref.softmax_f32 f) "Only last-axis softmax supported"

def log_softmax (f : MathFunctions) :=
  lastAxis (ref.log_softmax_f32 f) "Only last-axis log_softmax supported"

/-! ## Accesses -/

/-- The buffer has float `i`. -/
def HasFloat (t : Tensor) (i : Int) : Prop := t.data.isSome ∧ 0 ≤ i ∧ (i + 1) * 4 ≤ t.bytes

variable {f : MathFunctions} {m : Nat → UInt8} {a out t : Tensor} {ds : List Int} {got n : Nat}
  {c off : Int} {dtype : DType}

theorem read_f32_isSome_iff (t : Tensor) (m : Nat → UInt8) (i : Nat) :
    (t.read_f32 m i).isSome ↔ HasFloat t i := by
  unfold Tensor.read_f32 HasFloat
  cases t.data with
  | none => simp
  | some data =>
    rw [Option.bind_some]
    split_ifs with h
    · simp only [Option.isSome_some, true_and, true_iff]
      omega
    · simp only [Option.isSome_none, Option.isSome_some, true_and, false_iff, Bool.false_eq_true]
      omega

theorem write_f32_isSome_iff (t : Tensor) (m : Nat → UInt8) (i : Nat) (x : BitVec 32) :
    (t.write_f32 m i x).isSome ↔ HasFloat t i := by
  rw [← read_f32_isSome_iff t m]
  unfold Tensor.write_f32 Tensor.read_f32
  cases t.data with
  | none => rfl
  | some data =>
    rw [Option.bind_some, Option.bind_some]
    split_ifs <;> rfl

theorem read_f32_at_isSome_iff (t : Tensor) (m : Nat → UInt8) (i : Int) :
    (t.read_f32_at m i).isSome ↔ HasFloat t i := by
  unfold Tensor.read_f32_at
  split_ifs with h
  · rw [read_f32_isSome_iff, Int.toNat_of_nonneg h]
  · unfold HasFloat
    simp [h]

theorem write_f32_at_isSome_iff (t : Tensor) (m : Nat → UInt8) (i : Int) (x : BitVec 32) :
    (t.write_f32_at m i x).isSome ↔ HasFloat t i := by
  unfold Tensor.write_f32_at
  split_ifs with h
  · rw [write_f32_isSome_iff, Int.toNat_of_nonneg h]
  · unfold HasFloat
    simp [h]

/-- The loops from the second element on, behind an access of the first. -/
theorem first_and_rest_iff (P : Nat → Prop) (n : Nat) :
    (P 0 ∧ ∀ i ∈ List.range' 1 (n - 1), P i) ↔ P 0 ∧ ∀ i < n, P i := by
  refine and_congr_right fun h0 => ⟨fun h i hi => ?_, fun h i hi => ?_⟩
  · by_cases hzero : i = 0
    · exact hzero ▸ h0
    · exact h i (List.mem_range'_1.mpr (by omega))
  · exact h i (by have := List.mem_range'_1.mp hi; omega)

namespace ref

variable {step : BitVec 32 → BitVec 32 → BitVec 32} {init : BitVec 32}

theorem accumulate_isSome_iff (data : Tensor) (m : Nat → UInt8) (n : Nat) :
    (accumulate step init data m n).isSome ↔ ∀ i < n, HasFloat data i := by
  unfold accumulate
  rw [isSome_foldlM_iff (P := fun i : Nat => HasFloat data i)]
  · simp only [List.mem_range]
  · intro result i
    rw [Option.isSome_map, read_f32_isSome_iff]

theorem accumulate_from_first_isSome_iff (data : Tensor) (m : Nat → UInt8) (n : Nat) :
    (accumulate_from_first step data m n).isSome ↔
      HasFloat data 0 ∧ ∀ i < n, HasFloat data i := by
  unfold accumulate_from_first
  rw [isSome_bind_iff (P := ∀ i ∈ List.range' 1 (n - 1), HasFloat data i), read_f32_isSome_iff]
  · exact first_and_rest_iff (fun i : Nat => HasFloat data i) n
  · intro result
    apply isSome_foldlM_iff
    intro result i
    rw [Option.isSome_map, read_f32_isSome_iff]

theorem var_f32_isSome_iff (f : MathFunctions) (data : Tensor) (m : Nat → UInt8) (n : Nat) :
    (var_f32 f data m n).isSome ↔ ∀ i < n, HasFloat data i := by
  unfold var_f32 mean_f32 sum_f32
  rw [isSome_bind_iff (P := ∀ i < n, HasFloat data i), Option.isSome_map, accumulate_isSome_iff,
    and_self]
  intro mean
  rw [Option.isSome_map, accumulate_isSome_iff]

end ref

/-! ## Buffers of floats -/

/-- An element has at least the bytes of a float, and the size of all does not wrap around. -/
def FloatsFit (dtype : DType) (n : Nat) : Prop :=
  4 ≤ kDTypeSize dtype ∧ n * kDTypeSize dtype < wordSize

instance (dtype : DType) (n : Nat) : Decidable (FloatsFit dtype n) :=
  inferInstanceAs (Decidable (_ ∧ _))

theorem OnCPU.bytes_eq (ha : OnCPU a ds) (hcount : a.shape_.num_elements = some c) :
    a.bytes = toSize c * kDTypeSize a.dtype_ % wordSize := ha.bytes c hcount

theorem OnCPU.hasFloat_iff (ha : OnCPU a ds) {i : Int} :
    HasFloat a i ↔ 0 ≤ i ∧ (i + 1) * 4 ≤ a.bytes := by
  unfold HasFloat
  refine and_iff_right_of_imp fun h => ?_
  exact Option.isSome_iff_ne_none.mpr (ha.data (by omega))

/-- The floats of all elements are in the buffer of a type with enough bytes. -/
theorem OnCPU.floats_iff (ha : OnCPU a ds) (hcount : a.shape_.num_elements = some c)
    (hsize : 4 ≤ kDTypeSize a.dtype_) :
    (∀ i < toSize c, HasFloat a i) ↔ toSize c * kDTypeSize a.dtype_ < wordSize := by
  have hbytes := ha.bytes_eq hcount
  simp only [ha.hasFloat_iff]
  generalize hn : toSize c = n at *
  have hcases : kDTypeSize a.dtype_ = 4 ∨ kDTypeSize a.dtype_ = 8 := by
    revert hsize
    cases a.dtype_ <;> decide
  unfold wordSize at *
  constructor
  · intro h
    by_cases hzero : n = 0
    · subst hzero
      omega
    · have hlast := (h (n - 1) (by omega)).2
      rcases hcases with h4 | h8
      · rw [h4] at hbytes ⊢
        omega
      · rw [h8] at hbytes ⊢
        omega
  · intro hlt i hi
    rcases hcases with h4 | h8
    · rw [h4] at hbytes hlt
      omega
    · rw [h8] at hbytes hlt
      omega

/-- With an access of the first element, there has to be one. -/
theorem OnCPU.first_and_floats_iff (ha : OnCPU a ds) (hcount : a.shape_.num_elements = some c) :
    (HasFloat a 0 ∧ ∀ i < toSize c, HasFloat a i) ↔ FloatsFit a.dtype_ (toSize c) ∧ toSize c ≠ 0 := by
  have hbytes := ha.bytes_eq hcount
  constructor
  · rintro ⟨hfirst, hall⟩
    have hn : toSize c ≠ 0 := by
      intro hzero
      rw [hzero, Nat.zero_mul, Nat.zero_mod] at hbytes
      have := hfirst.2.2
      omega
    have hsize : 4 ≤ kDTypeSize a.dtype_ := by
      by_contra hlt
      have hlast := (hall (toSize c - 1) (by omega)).2.2
      have hle := Nat.mod_le (toSize c * kDTypeSize a.dtype_) wordSize
      have hmul := Nat.mul_le_mul_left (toSize c) (show kDTypeSize a.dtype_ ≤ 3 by omega)
      omega
    exact ⟨⟨hsize, (ha.floats_iff hcount hsize).mp hall⟩, hn⟩
  · rintro ⟨⟨hsize, hlt⟩, hn⟩
    have hall := (ha.floats_iff hcount hsize).mpr hlt
    exact ⟨hall 0 (by omega), hall⟩

/-! ## The entry points -/

/-- The output of one element. -/
theorem exists_make_one (dtype : DType) (device : DeviceType) (got : Nat) :
    ∃ out, Tensor.make (TensorShape.of_initializer_list [1]) dtype device (some got) = some out ∧
      out.data = some got ∧ out.bytes = kDTypeSize dtype := by
  have hmul : Word.mul (toSize 1) (kDTypeSize dtype) = kDTypeSize dtype := by
    cases dtype <;> decide
  have hpos := kDTypeSize_pos dtype
  refine ⟨_, rfl, ?_, hmul⟩
  exact if_neg (fun h => hpos.ne' (hmul.symm.trans h))

theorem scalar_isSome_iff {kernel : Tensor → (Nat → UInt8) → Nat → Option (BitVec 32)} {P : Prop}
    (hcount : a.shape_.num_elements = some c) (hP : ∀ m, (kernel a m (toSize c)).isSome ↔ P) :
    (scalar kernel m got a).isSome ↔ P ∧ 4 ≤ kDTypeSize a.dtype_ := by
  obtain ⟨out, hmake, hdata, hbytes⟩ := exists_make_one a.dtype_ a.device_ got
  unfold scalar
  rw [hmake, hcount, Option.bind_some, Option.bind_some, isSome_bind_iff, hP]
  intro x
  rw [Option.isSome_map, write_f32_isSome_iff]
  simp [HasFloat, hdata, hbytes]

/-- The reductions that begin with a constant. -/
theorem OnCPU.scalar_isSome_iff {kernel : Tensor → (Nat → UInt8) → Nat → Option (BitVec 32)}
    (ha : OnCPU a ds) (hcount : a.shape_.num_elements = some c)
    (hkernel : ∀ m, (kernel a m (toSize c)).isSome ↔ ∀ i < toSize c, HasFloat a i) :
    (scalar kernel m got a).isSome ↔ FloatsFit a.dtype_ (toSize c) := by
  rw [math.scalar_isSome_iff hcount hkernel, and_comm]
  exact and_congr_right fun hsize => ha.floats_iff hcount hsize

/-- The reductions that begin with the first element. -/
theorem OnCPU.scalar_from_first_isSome_iff
    {kernel : Tensor → (Nat → UInt8) → Nat → Option (BitVec 32)}
    (ha : OnCPU a ds) (hcount : a.shape_.num_elements = some c)
    (hkernel : ∀ m, (kernel a m (toSize c)).isSome ↔
      HasFloat a 0 ∧ ∀ i < toSize c, HasFloat a i) :
    (scalar kernel m got a).isSome ↔ FloatsFit a.dtype_ (toSize c) ∧ toSize c ≠ 0 := by
  rw [math.scalar_isSome_iff hcount hkernel, ha.first_and_floats_iff hcount]
  exact and_iff_left_of_imp fun h => h.1.1

theorem OnCPU.argmax_isSome_iff (f : MathFunctions) (ha : OnCPU a ds)
    (hcount : a.shape_.num_elements = some c) :
    (argmax f m got a (-1)).isSome ↔ FloatsFit a.dtype_ (toSize c) ∧ toSize c ≠ 0 := by
  obtain ⟨out, hmake, hdata, hbytes⟩ := exists_make_one .kInt64 a.device_ got
  have hwrite : ∀ m x, (out.write_i64 m x).isSome := by
    intro m x
    unfold Tensor.write_i64
    rw [hdata, Option.bind_some, if_pos (show 8 ≤ out.bytes from hbytes.ge)]
    rfl
  unfold argmax
  rw [if_pos rfl, hmake, hcount, Option.bind_some, Option.bind_some,
    isSome_bind_iff (P := ∀ i ∈ List.range' 1 (toSize c - 1), HasFloat a i),
    read_f32_isSome_iff, ← ha.first_and_floats_iff hcount]
  · exact first_and_rest_iff (fun i : Nat => HasFloat a i) _
  · intro max_val
    rw [isSome_bind_iff (P := True), and_true]
    · apply isSome_foldlM_iff
      intro s i
      rw [Option.isSome_map, read_f32_isSome_iff]
    · intro s
      rw [Option.isSome_map]
      exact iff_of_true (hwrite _ _) trivial

/-! ## Softmax on the last axis -/

/-- A function of `n` floats from an offset on that reads the first of them and all of them. -/
def ReadsRow (kernel : Tensor → Tensor → Int → Nat → (Nat → UInt8) → Option (Nat → UInt8)) :
    Prop :=
  ∀ (a out : Tensor) (off : Int) (n : Nat) (m : Nat → UInt8),
    (∀ i, HasFloat out i ↔ HasFloat a i) →
      ((kernel a out off n m).isSome ↔ HasFloat a off ∧ ∀ i < n, HasFloat a (off + (i : Nat)))

theorem max_val_isSome_iff (f : MathFunctions) (x : Tensor) (off : Int) (n : Nat)
    (m : Nat → UInt8) : (ref.max_val f x off n m).isSome ↔
      HasFloat x off ∧ ∀ i < n, HasFloat x (off + (i : Nat)) := by
  unfold ref.max_val
  rw [isSome_bind_iff (P := ∀ i ∈ List.range' 1 (n - 1), HasFloat x (off + (i : Nat))),
    read_f32_at_isSome_iff]
  · have hrest := first_and_rest_iff (fun i : Nat => HasFloat x (off + i)) n
    simpa using hrest
  · intro max_val
    apply isSome_foldlM_iff
    intro max_val i
    rw [Option.isSome_map, read_f32_at_isSome_iff]

theorem readsRow_softmax (f : MathFunctions) : ReadsRow (ref.softmax_f32 f) := by
  intro a out off n m hout
  have hrow : (∀ i ∈ List.range n, HasFloat a (off + (i : Nat))) ↔
      ∀ i < n, HasFloat a (off + (i : Nat)) := by simp only [List.mem_range]
  unfold ref.softmax_f32
  rw [isSome_bind_iff (P := ∀ i < n, HasFloat a (off + (i : Nat))), max_val_isSome_iff]
  · tauto
  · intro max_val
    rw [isSome_bind_iff (P := ∀ i ∈ List.range n, HasFloat a (off + (i : Nat))),
      isSome_foldlM_iff (P := fun i : Nat => HasFloat a (off + i)), hrow, and_self]
    · -- an element of the input is read, and the one of the output is written and read
      intro s i
      rw [isSome_bind_iff (P := HasFloat a (off + i)), read_f32_at_isSome_iff, and_self]
      intro v
      rw [isSome_bind_iff (P := HasFloat a (off + i)), write_f32_at_isSome_iff, hout, and_self]
      intro m
      rw [Option.isSome_map, read_f32_at_isSome_iff, hout]
    · intro s
      apply isSome_foldlM_iff
      intro m i
      rw [isSome_bind_iff (P := HasFloat a (off + i)), read_f32_at_isSome_iff, hout, and_self]
      intro y
      rw [write_f32_at_isSome_iff, hout]

theorem readsRow_log_softmax (f : MathFunctions) : ReadsRow (ref.log_softmax_f32 f) := by
  intro a out off n m hout
  have hrow : (∀ i ∈ List.range n, HasFloat a (off + (i : Nat))) ↔
      ∀ i < n, HasFloat a (off + (i : Nat)) := by simp only [List.mem_range]
  unfold ref.log_softmax_f32
  rw [isSome_bind_iff (P := ∀ i < n, HasFloat a (off + (i : Nat))), max_val_isSome_iff]
  · tauto
  · intro max_val
    rw [isSome_bind_iff (P := ∀ i ∈ List.range n, HasFloat a (off + (i : Nat))),
      isSome_foldlM_iff (P := fun i : Nat => HasFloat a (off + i)), hrow, and_self]
    · intro sum i
      rw [Option.isSome_map, read_f32_at_isSome_iff]
    · intro sum
      apply isSome_foldlM_iff
      intro m i
      rw [isSome_bind_iff (P := HasFloat a (off + i)), read_f32_at_isSome_iff, and_self]
      intro v
      rw [write_f32_at_isSome_iff, hout]

/-- The rows of a matrix, with the numbers of its rows and columns as `int`s. -/
def MatrixFits (bytes : Nat) (rows cols : Int) : Prop :=
  rows ≤ 0 ∨ 0 ≤ cols ∧ (rows - 1) * cols < 2 ^ 31 ∧ 4 ≤ bytes ∧ rows * cols * 4 ≤ bytes

instance (bytes : Nat) (rows cols : Int) : Decidable (MatrixFits bytes rows cols) :=
  inferInstanceAs (Decidable (_ ∨ _))

/-- When the softmax functions on the last axis stay in the buffers. -/
def SoftmaxFits (a : Tensor) (ds : List Int) (n : Nat) : Prop :=
  if ds.length = 2 then MatrixFits a.bytes (narrow (ds.getD 0 0)) (narrow (ds.getD 1 0))
  else FloatsFit a.dtype_ n ∧ n ≠ 0

/-- A row begins at an offset that is an `int`, and its floats are in the buffer. -/
def RowFits (a : Tensor) (cols : Int) (r : Nat) : Prop :=
  (-2 ^ 31 ≤ r * cols ∧ r * cols < 2 ^ 31) ∧ HasFloat a (r * cols) ∧
    ∀ i < toSize cols, HasFloat a (r * cols + (i : Nat))

theorem OnCPU.rows_fit_iff (ha : OnCPU a ds) (hword : a.bytes < wordSize) {rows cols : Int}
    (hrange : -2 ^ 31 ≤ cols ∧ cols < 2 ^ 31) :
    (∀ r : Nat, (r : Int) < rows → RowFits a cols r) ↔ MatrixFits a.bytes rows cols := by
  simp only [RowFits, ha.hasFloat_iff]
  unfold MatrixFits
  constructor
  · intro h
    by_cases hrows : rows ≤ 0
    · exact Or.inl hrows
    obtain ⟨-, hfirst, hrow0⟩ := h 0 (by omega)
    have hcols : 0 ≤ cols := by
      -- a negative number of columns is a `size_t` behind every buffer
      by_contra hneg
      have hsize : 2 ^ 63 < toSize cols := by
        unfold toSize wordSize
        omega
      have hfar := (hrow0 (2 ^ 63) hsize).2
      unfold wordSize at hword
      omega
    obtain ⟨⟨-, hlt⟩, -, hlast⟩ := h (rows.toNat - 1) (by omega)
    have hr : ((rows.toNat - 1 : Nat) : Int) = rows - 1 := by omega
    rw [hr] at hlt hlast
    refine Or.inr ⟨hcols, hlt, by omega, ?_⟩
    by_cases hzero : cols = 0
    · rw [hzero, mul_zero]
      omega
    · have hsize : toSize cols = cols.toNat := by
        unfold toSize wordSize
        omega
      have hend := (hlast (cols.toNat - 1) (by omega)).2
      have hrow : (rows - 1) * cols + cols = rows * cols := by ring
      omega
  · rintro (hrows | ⟨hcols, hlt, hfirst, hend⟩) r hr
    · omega
    have hsize : toSize cols = cols.toNat := by
      unfold toSize wordSize
      omega
    have hnonneg : 0 ≤ (r : Int) * cols := mul_nonneg (by omega) hcols
    have hle : (r : Int) * cols ≤ (rows - 1) * cols := mul_le_mul_of_nonneg_right (by omega) hcols
    have hrow : (rows - 1) * cols + cols = rows * cols := by ring
    refine ⟨⟨by omega, by omega⟩, ⟨hnonneg, ?_⟩, ?_⟩
    · by_cases hzero : cols = 0
      · rw [hzero, mul_zero]
        omega
      · omega
    · intro i hi
      omega

theorem lastAxis_isSome_iff
    {kernel : Tensor → Tensor → Int → Nat → (Nat → UInt8) → Option (Nat → UInt8)}
    (hkernel : ReadsRow kernel) (message : String) (ha : OnCPU a ds)
    (hcount : a.shape_.num_elements = some c) {axis : Int}
    (haxis : axis = -1 ∨ axis = (ds.length : Int) - 1) :
    (lastAxis kernel message m got a axis).isSome ↔ SoftmaxFits a ds (toSize c) := by
  obtain ⟨out, hmake, -, hbytes, hdata⟩ := exists_make ha hcount got
  have hword : a.bytes < wordSize := by
    rw [ha.bytes_eq hcount]
    exact Nat.mod_lt _ (by decide)
  have hout : ∀ i, HasFloat out i ↔ HasFloat a i := by
    intro i
    rw [ha.hasFloat_iff]
    unfold HasFloat
    rw [hbytes]
    refine and_iff_right_of_imp fun h => ?_
    rw [hdata, if_neg (by omega)]
    rfl
  unfold lastAxis SoftmaxFits
  rw [hmake, Option.bind_some, ha.shape.ndims_, if_pos haxis]
  by_cases htwo : ds.length = 2
  · obtain ⟨rows, cols, rfl⟩ := List.length_eq_two.mp htwo
    have h0 : a.shape_.dims_.get 0 = some rows := ha.shape.get 0 (by simp)
    have h1 : a.shape_.dims_.get 1 = some cols := ha.shape.get 1 (by simp)
    rw [if_pos (by rfl), if_pos htwo, h0, h1, Option.bind_some, Option.bind_some,
      Option.isSome_map, isSome_forRows_iff (P := RowFits a (narrow cols)),
      ha.rows_fit_iff hword (narrow_range cols)]
    · rfl
    · intro r m
      unfold RowFits mul32?
      split_ifs with hrange
      · rw [Option.bind_some, hkernel a out _ _ m hout, and_iff_right hrange]
      · exact iff_of_false (by simp) fun h => hrange h.1
  · rw [if_neg (by exact_mod_cast htwo), if_neg htwo, hcount, Option.bind_some, Option.isSome_map,
      hkernel a out _ _ _ hout, ← ha.first_and_floats_iff hcount]
    simp

/-- Each of the eleven functions returns an error, or keeps its accesses in the buffers, exactly
when the buffer of its input has a float for each element, and it does not begin with the first
element of a tensor that has none. -/
theorem reductions_stay_inside_iff (f : MathFunctions) (p : BitVec 32) (m : Nat → UInt8)
    (got : Nat) {axis : Int} (ha : OnCPU a ds) (hcount : a.shape_.num_elements = some c)
    (haxis : axis = -1 ∨ axis = (ds.length : Int) - 1) :
    ((sum f m got a).isSome ↔ FloatsFit a.dtype_ (toSize c)) ∧
    ((mean f m got a).isSome ↔ FloatsFit a.dtype_ (toSize c)) ∧
    ((max f m got a).isSome ↔ FloatsFit a.dtype_ (toSize c) ∧ toSize c ≠ 0) ∧
    ((min f m got a).isSome ↔ FloatsFit a.dtype_ (toSize c) ∧ toSize c ≠ 0) ∧
    ((argmax f m got a (-1)).isSome ↔ FloatsFit a.dtype_ (toSize c) ∧ toSize c ≠ 0) ∧
    ((prod f m got a).isSome ↔ FloatsFit a.dtype_ (toSize c)) ∧
    ((std f m got a).isSome ↔ FloatsFit a.dtype_ (toSize c)) ∧
    ((var f m got a).isSome ↔ FloatsFit a.dtype_ (toSize c)) ∧
    ((norm f p m got a).isSome ↔ FloatsFit a.dtype_ (toSize c)) ∧
    ((softmax f m got a axis).isSome ↔ SoftmaxFits a ds (toSize c)) ∧
    ((log_softmax f m got a axis).isSome ↔ SoftmaxFits a ds (toSize c)) := by
  refine ⟨?_, ?_, ?_, ?_, ha.argmax_isSome_iff f hcount, ?_, ?_, ?_, ?_,
    lastAxis_isSome_iff (readsRow_softmax f) _ ha hcount haxis,
    lastAxis_isSome_iff (readsRow_log_softmax f) _ ha hcount haxis⟩
  · exact ha.scalar_isSome_iff hcount fun m => ref.accumulate_isSome_iff a m _
  · refine ha.scalar_isSome_iff hcount fun m => ?_
    unfold ref.mean_f32
    rw [Option.isSome_map]
    exact ref.accumulate_isSome_iff a m _
  · exact ha.scalar_from_first_isSome_iff hcount fun m =>
      ref.accumulate_from_first_isSome_iff a m _
  · exact ha.scalar_from_first_isSome_iff hcount fun m =>
      ref.accumulate_from_first_isSome_iff a m _
  · exact ha.scalar_isSome_iff hcount fun m => ref.accumulate_isSome_iff a m _
  · refine ha.scalar_isSome_iff hcount fun m => ?_
    rw [Option.isSome_map]
    exact ref.var_f32_isSome_iff f a m _
  · exact ha.scalar_isSome_iff hcount fun m => ref.var_f32_isSome_iff f a m _
  · refine ha.scalar_isSome_iff hcount fun m => ?_
    rw [Option.isSome_map]
    exact ref.accumulate_isSome_iff a m _

/-- Floats that are natural numbers. -/
def naturals : MathFunctions where
  add := (· + ·)
  sub := (· - ·)
  mul := (· * ·)
  div := (· / ·)
  lt := BitVec.ult
  ofSize := BitVec.ofNat 32
  sqrt := id
  abs := id
  exp := id
  log := id
  pow := fun x _ => x

theorem grid_of_floats_is_reduced :
    (sum naturals ones 3000 (gridOf .kFloat32 1000)).isSome ∧
      (argmax naturals ones 3000 (gridOf .kFloat32 1000) (-1)).isSome ∧
      (softmax naturals ones 3000 (gridOf .kFloat32 1000) 1).isSome := by
  have haxis : (1 : Int) = -1 ∨ (1 : Int) = (([2, 3].map (Nat.cast (R := Int))).length : Int) - 1 := by
    decide
  obtain ⟨hsum, -, -, -, hargmax, -, -, -, -, hsoftmax, -⟩ := reductions_stay_inside_iff naturals 0
    ones 3000 (onCPU_gridOf .kFloat32 1000) (c := 6) Formats.grid_count haxis
  have hmatrix : MatrixFits 24 (narrow 2) (narrow 3) := by decide
  exact ⟨hsum.mpr (by decide), hargmax.mpr (by decide), hsoftmax.mpr hmatrix⟩

/-- Six bytes: the sum reads 24, and writes four to an output of one. -/
theorem bytes_are_summed_up_as_floats :
    ¬ ∀ (f : MathFunctions) (m : Nat → UInt8) (got : Nat) (a : Tensor) (ds : List Int) (c : Int),
      OnCPU a ds → a.shape_.num_elements = some c → (sum f m got a).isSome := by
  intro h
  have hsome := h naturals ones 3000 _ _ 6 (onCPU_gridOf .kInt8 1000) Formats.grid_count
  have hfit := ((onCPU_gridOf .kInt8 1000).scalar_isSome_iff (c := 6) Formats.grid_count
    fun m => ref.accumulate_isSome_iff _ m _).mp hsome
  exact absurd hfit (by decide)

end math

end sci.int64
