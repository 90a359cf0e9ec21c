-- `GpuTensor::fill` and `zero` (src/gpu/gpu_tensor.cpp, 110-121) on tensors of four-byte elements.
-- Without CUDA the elements get the value. With CUDA the value is converted to an `int`, of which
-- `cudaMemsetAsync` writes the lowest byte to all bytes of the buffer.
import Scicompute.BlockMemory
import Scicompute.Binary32
import Scicompute.GpuTensorViews
import Scicompute.LittleEndian

open LittleEndian (bytes number)

namespace sci.gpu.GpuTensorMembers

/-- `static_cast<int>(value)`. A value without a whole part, or with one that is not an `int`, has
no result. -/
def to_int (value : BitVec 32) : Option Int :=
  if Binary32.IsFinite value ∧ -2 ^ 31 ≤ Binary32.whole value ∧ Binary32.whole value < 2 ^ 31 then
    some (Binary32.whole value)
  else none

/-- `cudaMemsetAsync(data, value, count, stream)`, and the stream is waited for. It does nothing
with a null pointer. -/
def cudaMemset (m : Nat → UInt8) (data : Option Nat) (value : Int) (count : Nat) : Nat → UInt8 :=
  (data.map fun data => BlockMemory.fill m data count (UInt8.ofInt value)).getD m

/-- `std::fill_n`, on floats. -/
def fill_n (m : Nat → UInt8) (data : Option Nat) (n : Int) (value : BitVec 32) :
    Option (Nat → UInt8) :=
  if n ≤ 0 then some m
  else data.map fun data => (List.range n.toNat).foldl
    (fun m i => BlockMemory.store m (data + i * 4) (bytes 4 value.toNat)) m

/-- `cuda` says that the macro `SCI_USE_CUDA` is there. -/
def fill (cuda : Bool) (t : GpuTensorMembers Nat) (m : Nat → UInt8) (value : BitVec 32) :
    Option (Nat → UInt8) :=
  if cuda then (to_int value).map fun v => cudaMemset m t.data_ v t.nbytes
  else fill_n m t.data_ t.size value

def zero (cuda : Bool) (t : GpuTensorMembers Nat) (m : Nat → UInt8) : Option (Nat → UInt8) :=
  t.fill cuda m 0

/-! ## One byte for all bytes -/

/-- Only three numbers are made of the lowest byte of their whole part. -/
theorem to_int_repeats_iff (value : BitVec 32) :
    (∃ v, to_int value = some v ∧ value.toNat = (UInt8.ofInt v).toNat * 0x01010101) ↔
      value = 0 ∨ value = 0x47474747 ∨ value = 0x4B4B4B4B := by
  have hbytes : ∀ b < 256, (to_int (BitVec.ofNat 32 (b * 0x01010101))).map
      (fun v => (UInt8.ofInt v).toNat) = some b → b = 0 ∨ b = 0x47 ∨ b = 0x4B := by
    decide +kernel
  constructor
  · rintro ⟨v, hv, hvalue⟩
    have hof : BitVec.ofNat 32 ((UInt8.ofInt v).toNat * 0x01010101) = value := by
      rw [← hvalue, BitVec.ofNat_toNat, BitVec.setWidth_eq]
    have hb := hbytes _ (UInt8.ofInt v).toNat_lt (by rw [hof, hv]; rfl)
    rw [← hof]
    rcases hb with hb | hb | hb
    · rw [hb]
      decide
    · rw [hb]
      decide
    · rw [hb]
      decide
  · rintro (rfl | rfl | rfl)
    · exact ⟨0, by decide +kernel⟩
    · exact ⟨51015, by decide +kernel⟩
    · exact ⟨13323083, by decide +kernel⟩

/-! ## The floats of a buffer -/

variable {t : GpuTensorMembers Nat} {m m' : Nat → UInt8} {data n : Nat} {value : BitVec 32}

/-- The `n` floats at `data` have the value, and the rest of the memory is as it was. -/
def Filled (m : Nat → UInt8) (data n : Nat) (value : BitVec 32)
    (r : Option (Nat → UInt8)) : Prop :=
  ∃ m', r = some m' ∧
    (∀ i < n, BitVec.ofNat 32 (number (BlockMemory.load m' (data + i * 4) 4)) = value) ∧
    ∀ a, ¬ (data ≤ a ∧ a < data + n * 4) → m' a = m a

theorem number_replicate (b : UInt8) : number [b, b, b, b] = b.toNat * 0x01010101 := by
  unfold number
  simp only [List.map_cons, List.map_nil, Nat.ofDigits_cons, Nat.ofDigits_nil]
  omega

theorem load_fill (m : Nat → UInt8) (b : UInt8) {i : Nat} (hi : i < n) :
    BlockMemory.load (BlockMemory.fill m data (n * 4) b) (data + i * 4) 4 = [b, b, b, b] := by
  have hin : ∀ k < 4, BlockMemory.fill m data (n * 4) b (data + i * 4 + k) = b := by
    intro k hk
    unfold BlockMemory.fill
    rw [if_pos (by omega)]
  unfold BlockMemory.load
  rw [List.map_congr_left fun k hk => hin k (List.mem_range.mp hk)]
  rfl

/-- The bytes are the same, so the value is one of these. -/
theorem filled_memset_iff (hn : 0 < n) (b : UInt8) :
    Filled m data n value (some (BlockMemory.fill m data (n * 4) b)) ↔
      value.toNat = b.toNat * 0x01010101 := by
  have hb := b.toNat_lt
  constructor
  · rintro ⟨m', heq, hfloats, -⟩
    cases heq
    have hfirst := hfloats 0 hn
    rw [load_fill m b hn, number_replicate] at hfirst
    rw [← hfirst, BitVec.toNat_ofNat, Nat.mod_eq_of_lt (by omega)]
  · intro hvalue
    refine ⟨_, rfl, fun i hi => ?_, fun a ha => ?_⟩
    · rw [load_fill m b hi, number_replicate, ← hvalue, BitVec.ofNat_toNat, BitVec.setWidth_eq]
    · exact BlockMemory.fill_of_outside m b ha

/-- The loop of `std::fill_n` writes one float in each round. -/
theorem filled_fill_n (m : Nat → UInt8) (data n : Nat) (value : BitVec 32) :
    Filled m data n value (fill_n m (some data) n value) := by
  set loop := (List.range n).foldl
    (fun m i => BlockMemory.store m (data + i * 4) (bytes 4 value.toNat)) m with hdef
  have hfill : fill_n m (some data) n value = some loop := by
    unfold fill_n
    split_ifs with hn
    · have hzero : n = 0 := by omega
      subst hzero
      rfl
    · rfl
  have hloop : (∀ i < n, ∀ a, (data + i * 4 ≤ a ∧ a < data + i * 4 + 4) →
        loop a = (bytes 4 value.toNat).getD (a - (data + i * 4)) 0) ∧
      ∀ a, (∀ i < n, ¬ (data + i * 4 ≤ a ∧ a < data + i * 4 + 4)) → loop a = m a := by
    rw [hdef]
    apply BlockMemory.foldl_range_blocks
    · intro i _ j hj a ha
      omega
    · intro m' i _ a ha
      apply BlockMemory.store_of_outside
      rw [LittleEndian.length_bytes]
      exact ha
    · intro i _ m' _ a ha
      unfold BlockMemory.store
      have hlt : a - (data + i * 4) < (bytes 4 value.toNat).length := by
        rw [LittleEndian.length_bytes]
        omega
      rw [if_pos ha.1, List.getD_eq_getElem _ _ hlt, List.getD_eq_getElem _ _ hlt]
  refine ⟨loop, hfill, ?_, ?_⟩
  · intro i hi
    have hload : BlockMemory.load loop (data + i * 4) 4 = bytes 4 value.toNat := by
      have hbyte : ∀ k < 4, loop (data + i * 4 + k) = (bytes 4 value.toNat).getD k 0 := by
        intro k hk
        rw [hloop.1 i hi _ (by omega), Nat.add_sub_cancel_left]
      unfold BlockMemory.load
      rw [List.map_congr_left fun k hk => hbyte k (List.mem_range.mp hk)]
      rfl
    have hsmall : value.toNat < 256 ^ 4 := value.isLt
    rw [hload, LittleEndian.number_bytes, Nat.mod_eq_of_lt hsmall, BitVec.ofNat_toNat,
      BitVec.setWidth_eq]
  · intro a ha
    apply hloop.2
    intro i hi
    omega

/-- The tensor has `n` elements of four bytes at `data`. -/
structure IsVector (t : GpuTensorMembers Nat) (data n : Nat) : Prop where
  data_eq : t.data_ = some data
  size_eq : t.size = n
  dtype : get_dtype_size t.dtype_ = 4
  small : n * 4 < Word.wordSize

theorem IsVector.nbytes_eq (h : t.IsVector data n) : t.nbytes = n * 4 := by
  obtain ⟨-, hsize, hdtype, hsmall⟩ := h
  unfold GpuTensorMembers.nbytes
  rw [hsize, hdtype, Word.toSize_of_lt (by omega), Word.mul_of_lt hsmall]

theorem IsVector.fill_cuda (h : t.IsVector data n) (m : Nat → UInt8) (value : BitVec 32) :
    t.fill true m value =
      (to_int value).map fun v => BlockMemory.fill m data (n * 4) (UInt8.ofInt v) := by
  unfold fill cudaMemset
  rw [h.data_eq, h.nbytes_eq]
  rfl

/-- Two rows of three floats. -/
def sixFloats : GpuTensorMembers Nat := .ofData (some 64) [2, 3] [3, 1] 0

theorem sixFloats_isVector : sixFloats.IsVector 64 6 := ⟨rfl, by decide, rfl, by decide⟩

end sci.gpu.GpuTensorMembers
