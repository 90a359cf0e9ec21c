-- Tensors of floats in a memory that holds one number at each place, where pointers count
-- numbers. An access outside of a buffer has no result.
import Scicompute.MatrixLoops
import Scicompute.TensorBuffers

open Word
open BlockMemory (Apart)

namespace sci.int64

/-- A `float*`, and the number of floats that its buffer has. -/
structure Floats where
  data : Option Nat
  size : Nat

namespace Floats

variable {K : Type*}

def read (p : Floats) (m : Nat → K) (i : Int) : Option K :=
  p.data.bind fun data => if 0 ≤ i ∧ i < p.size then some (m (data + i.toNat)) else none

def write (p : Floats) (m : Nat → K) (i : Int) (x : K) : Option (Nat → K) :=
  p.data.bind fun data =>
    if 0 ≤ i ∧ i < p.size then some (Function.update m (data + i.toNat) x) else none

/-- `device.allocate`, which clears the memory. -/
def allocated [Zero K] (p : Floats) (m : Nat → K) : Nat → K :=
  match p.data with
  | none => m
  | some data => BlockMemory.fill m data p.size 0

/-- The buffer has float `i`. -/
def Has (p : Floats) (i : Int) : Prop := p.data.isSome ∧ 0 ≤ i ∧ i < p.size

variable {p : Floats} {m : Nat → K} {i : Int} {data k : Nat}

theorem read_isSome_iff (p : Floats) (m : Nat → K) (i : Int) : (p.read m i).isSome ↔ p.Has i := by
  unfold read Has
  cases p.data with
  | none => simp
  | some data =>
    rw [Option.bind_some]
    split_ifs with h
    · simp [h]
    · exact iff_of_false (by simp) fun h' => h h'.2

theorem write_isSome_iff (p : Floats) (m : Nat → K) (i : Int) (x : K) :
    (p.write m i x).isSome ↔ p.Has i := by
  unfold write Has
  cases p.data with
  | none => simp
  | some data =>
    rw [Option.bind_some]
    split_ifs with h
    · simp [h]
    · exact iff_of_false (by simp) fun h' => h h'.2

theorem read_eq (hp : p.data = some data) (m : Nat → K) (hk : k < p.size) :
    p.read m k = some (m (data + k)) := by
  unfold read
  rw [hp, Option.bind_some, if_pos (by omega), Int.toNat_natCast]

theorem write_eq (hp : p.data = some data) (m : Nat → K) (hk : k < p.size) (x : K) :
    p.write m k x = some (Function.update m (data + k) x) := by
  unfold write
  rw [hp, Option.bind_some, if_pos (by omega), Int.toNat_natCast]

/-- What a write leaves of the other floats. -/
theorem write_eq_some {m' : Nat → K} {x : K} (h : p.write m i x = some m') :
    ∃ k : Nat, i = k ∧ k < p.size ∧ ∃ data, p.data = some data ∧
      m' = Function.update m (data + k) x := by
  unfold write at h
  obtain ⟨data, hp, h⟩ := Option.bind_eq_some_iff.mp h
  split_ifs at h with hi
  refine ⟨i.toNat, by omega, by omega, data, hp, ?_⟩
  exact (Option.some.inj h).symm

/-- Memory that is cleared for another buffer. -/
theorem allocated_of_apart [Zero K] (m : Nat → K) (hapart : ∀ q ∈ p.data, Apart data k q p.size)
    {j : Nat} (hj : j < k) : p.allocated m (data + j) = m (data + j) := by
  unfold allocated
  cases hp : p.data with
  | none => rfl
  | some q =>
    have hq := hapart q hp
    apply BlockMemory.fill_of_outside
    unfold Apart at hq
    omega

theorem allocated_eq_zero [Zero K] (m : Nat → K) (hp : p.data = some data) (hk : k < p.size) :
    p.allocated m (data + k) = 0 := by
  unfold allocated
  rw [hp]
  exact if_pos (by omega)

end Floats

/-- `static_cast<float*>(data())` -/
def Tensor.floats (t : Tensor) : Floats := ⟨t.data, t.bytes / 4⟩

/-- A tensor of floats on the CPU, of `n` elements. The size of the buffer is the one that the
constructors compute, and a `malloc` that succeeded gave it `got`. -/
structure IsFloats (t : Tensor) (n : Nat) : Prop where
  dtype : t.dtype_ = .kFloat32
  count : t.shape_.num_elements = some (n : Int)
  bytes : t.bytes = Word.mul n 4
  data : t.bytes ≠ 0 → t.data ≠ none

variable {t : Tensor} {n : Nat}

theorem IsFloats.lt (h : IsFloats t n) : n < 2 ^ 63 := by
  exact_mod_cast TensorShape.num_elements_lt h.count

theorem IsFloats.size_eq (h : IsFloats t n) : t.floats.size = n * 4 % wordSize / 4 := by
  unfold Tensor.floats
  rw [h.bytes]
  rfl

/-- The buffer has all elements where its size does not wrap around. -/
theorem IsFloats.size_eq_iff (h : IsFloats t n) : t.floats.size = n ↔ n * 4 < wordSize := by
  rw [h.size_eq]
  unfold wordSize
  omega

theorem IsFloats.size_le (h : IsFloats t n) : t.floats.size ≤ n := by
  rw [h.size_eq]
  unfold wordSize
  omega

theorem IsFloats.exists_data (h : IsFloats t n) (hsize : t.floats.size ≠ 0) :
    ∃ data, t.floats.data = some data := by
  apply Option.ne_none_iff_exists'.mp
  refine h.data ?_
  intro hzero
  apply hsize
  unfold Tensor.floats
  rw [hzero]

theorem IsFloats.data_isSome (h : IsFloats t n) (hsize : t.floats.size ≠ 0) :
    t.floats.data.isSome := by
  obtain ⟨data, hx⟩ := h.exists_data hsize
  rw [hx]
  rfl

/-- The output of a function, made like its input. -/
theorem IsFloats.exists_make (h : IsFloats t n) (got : Nat) :
    ∃ out, Tensor.make t.shape_ .kFloat32 t.device_ (some got) = some out ∧
      out.shape_ = t.shape_ ∧ IsFloats out n ∧ out.floats.size = t.floats.size ∧
      (∀ q ∈ out.floats.data, q = got) ∧ (out.floats.size ≠ 0 → out.floats.data = some got) := by
  have hsize : toSize (n : Int) = n := toSize_of_lt (h.lt.trans (by decide))
  have hbytes : Word.mul (toSize (n : Int)) (kDTypeSize .kFloat32) = t.bytes := by
    rw [hsize, h.bytes]
    rfl
  unfold Tensor.make
  rw [h.count, Option.map_some]
  refine ⟨_, rfl, rfl, ⟨rfl, h.count, hbytes.trans h.bytes, ?_⟩, ?_, ?_, ?_⟩
  · intro hne
    dsimp only at hne ⊢
    rw [if_neg hne]
    exact Option.some_ne_none _
  · unfold Tensor.floats
    rw [hbytes]
  · intro q hq
    unfold Tensor.floats at hq
    dsimp only at hq
    split_ifs at hq
    · cases hq
    · exact (Option.some.inj hq).symm
  · intro hne
    unfold Tensor.floats at hne ⊢
    dsimp only at hne ⊢
    rw [if_neg]
    intro hzero
    rw [hzero] at hne
    exact hne rfl

/-- Two rows of three floats. -/
def floatGrid : Tensor :=
  ⟨⟨fun i => [2, 3].getD i 0, 2⟩, .kFloat32, .kContiguous, .kCPU, some 100, 24⟩

theorem isFloats_floatGrid : IsFloats floatGrid [2, 3].prod where
  dtype := rfl
  count := by decide
  bytes := rfl
  data := fun _ => Option.some_ne_none 100

theorem fits_floatGrid : floatGrid.shape_.Fits [2, 3] :=
  ⟨by decide, by decide, by decide, by decide⟩

end sci.int64
