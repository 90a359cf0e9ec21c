-- The buffer of a tensor (src/tensor/tensor.cpp): the constructor computes its size in machine
-- words, and `fill` copies a value to all its elements, twice as many in each round.
import Scicompute.TensorIndexing

open Word
open BlockMemory (Apart)

namespace sci.int64

/-! ## Fills -/

/-- The arguments of a `memcpy`. -/
structure Memcpy where
  dst : Nat
  src : Nat
  bytes : Nat
  deriving DecidableEq

/-- The memory, and the copies that were made, the last one first. -/
structure Filling where
  memory : Nat → UInt8
  copies : List Memcpy

def Filling.memcpy (f : Filling) (c : Memcpy) : Filling where
  memory := BlockMemory.copy f.memory c.dst c.src c.bytes
  copies := c :: f.copies

namespace Tensor

/-- The copy of the round `step`, of `n` elements. -/
def fill_copy (data elem_size n step : Nat) : Memcpy where
  dst := data + Word.mul step elem_size
  src := data
  bytes := Word.mul (min step (n - step)) elem_size

/-- There is no result when the rounds run out. -/
def fill_loop (data elem_size n : Nat) : Nat → Nat → Filling → Option Filling
  | 0, _, _ => none
  | rounds + 1, step, f =>
    if step < n then
      fill_loop data elem_size n rounds (Word.mul step 2)
        (f.memcpy (fill_copy data elem_size n step))
    else some f

/-- `fill(value)`, with the sizes of the types. A null pointer has no bytes that can be written. -/
def fill (kDTypeSize : DType → Nat) (rounds : Nat) (t : Tensor) (m : Nat → UInt8) (value : Nat) :
    Option Filling :=
  t.shape_.num_elements.bind fun num_elements =>
    let n := toSize num_elements
    if n = 0 then some ⟨m, []⟩
    else t.data.bind fun data =>
      fill_loop data (kDTypeSize t.dtype_) n rounds 1
        (Filling.memcpy ⟨m, []⟩ ⟨data, value, kDTypeSize t.dtype_⟩)

/-- Element by element. -/
def naive_fill (elem_size n data : Nat) (m : Nat → UInt8) (value : List UInt8) : Nat → UInt8 :=
  (List.range n).foldl (fun m k => BlockMemory.store m (data + k * elem_size) value) m

end Tensor

/-! ## The filled part -/

/-- The first `k` elements have the value. -/
def filled (m : Nat → UInt8) (data value elem_size k : Nat) : Nat → UInt8 :=
  fun a => if data ≤ a ∧ a < data + k * elem_size then m (value + (a - data) % elem_size) else m a

variable {m : Nat → UInt8} {data value elem_size n : Nat}

theorem filled_zero : filled m data value elem_size 0 = m := by
  funext a
  unfold filled
  rw [Nat.zero_mul, if_neg (by omega)]

theorem load_filled {k i : Nat} (hi : i < k) :
    BlockMemory.load (filled m data value elem_size k) (data + i * elem_size) elem_size =
      BlockMemory.load m value elem_size := by
  apply List.map_congr_left
  intro j hj
  have hlt := List.mem_range.mp hj
  have hrow := RowMajor.row_end_le elem_size hi
  unfold filled
  rw [if_pos (by omega), show data + i * elem_size + j - data = j + elem_size * i by
    rw [Nat.mul_comm elem_size]; omega, Nat.add_mul_mod_self_left, Nat.mod_eq_of_lt hlt]

/-- The value is stored behind the filled part. -/
theorem store_value_filled {k : Nat} :
    BlockMemory.store (filled m data value elem_size k) (data + k * elem_size)
        (BlockMemory.load m value elem_size) = filled m data value elem_size (k + 1) := by
  rw [BlockMemory.store_load]
  funext a
  by_cases ha : data + k * elem_size ≤ a ∧ a < data + k * elem_size + elem_size
  · obtain ⟨j, rfl⟩ := Nat.exists_eq_add_of_le ha.1
    have hj : j < elem_size := by omega
    rw [if_pos ha, Nat.add_sub_cancel_left]
    unfold filled
    rw [Nat.succ_mul, if_pos (by omega), show data + k * elem_size + j - data = j + elem_size * k by
      rw [Nat.mul_comm elem_size]; omega, Nat.add_mul_mod_self_left, Nat.mod_eq_of_lt hj]
  · rw [if_neg ha]
    unfold filled
    rw [Nat.succ_mul]
    by_cases hin : data ≤ a ∧ a < data + k * elem_size
    · rw [if_pos hin, if_pos (by omega)]
    · rw [if_neg hin, if_neg (by omega)]

/-- A copy of filled elements behind the filled part. -/
theorem copy_filled {k c : Nat} (hc : c ≤ k) :
    BlockMemory.copy (filled m data value elem_size k) (data + k * elem_size) data
        (c * elem_size) = filled m data value elem_size (k + c) := by
  have hle := Nat.mul_le_mul_right elem_size hc
  funext a
  unfold BlockMemory.copy
  by_cases ha : data + k * elem_size ≤ a ∧ a < data + k * elem_size + c * elem_size
  · obtain ⟨j, rfl⟩ := Nat.exists_eq_add_of_le ha.1
    rw [if_pos ha, Nat.add_sub_cancel_left]
    unfold filled
    rw [Nat.add_mul, if_pos (by omega), if_pos (by omega), Nat.add_sub_cancel_left,
      show data + k * elem_size + j - data = j + elem_size * k by
        rw [Nat.mul_comm elem_size]; omega, Nat.add_mul_mod_self_left]
  · rw [if_neg ha]
    unfold filled
    rw [Nat.add_mul]
    by_cases hin : data ≤ a ∧ a < data + k * elem_size
    · rw [if_pos hin, if_pos (by omega)]
    · rw [if_neg hin, if_neg (by omega)]

theorem naive_fill_eq :
    Tensor.naive_fill elem_size n data m (BlockMemory.load m value elem_size) =
      filled m data value elem_size n := by
  unfold Tensor.naive_fill
  induction n with
  | zero => exact filled_zero.symm
  | succ n ih => rw [List.range_succ, List.foldl_concat, ih, store_value_filled]

/-! ## The doubling loop -/

/-- The copy writes to the buffer and reads from it, or reads the value, and its two blocks have no
byte in common. -/
structure Memcpy.Inside (c : Memcpy) (data bytes value elem_size : Nat) : Prop where
  low : data ≤ c.dst
  high : c.dst + c.bytes ≤ data + bytes
  src : (data ≤ c.src ∧ c.src + c.bytes ≤ data + bytes) ∨ (c.src = value ∧ c.bytes = elem_size)
  apart : Apart c.dst c.bytes c.src c.bytes

/-- The first `k` elements have the value, and the copies so far are inside. -/
structure Filling.Has (f : Filling) (m : Nat → UInt8) (data bytes value elem_size k : Nat) :
    Prop where
  memory : f.memory = filled m data value elem_size k
  copies : ∀ c ∈ f.copies, c.Inside data bytes value elem_size

variable {bytes rounds step : Nat} {f : Filling}

/-- No product of a round wraps around. -/
theorem fill_copy_eq (hbytes : n * elem_size < wordSize) (hstep : step < n) :
    Tensor.fill_copy data elem_size n step =
      ⟨data + step * elem_size, data, min step (n - step) * elem_size⟩ := by
  have hplace := Nat.mul_le_mul_right elem_size hstep.le
  have hsize := Nat.mul_le_mul_right elem_size (show min step (n - step) ≤ n by omega)
  unfold Tensor.fill_copy
  rw [Word.mul_of_lt (by omega), Word.mul_of_lt (by omega)]

/-- A round doubles the filled part, up to the end. -/
theorem Filling.Has.round (h : f.Has m data bytes value elem_size (min step n))
    (hbytes : n * elem_size ≤ bytes) (hword : bytes < wordSize) (hstep : step < n) :
    (f.memcpy (Tensor.fill_copy data elem_size n step)).Has m data bytes value elem_size
      (min (step * 2) n) := by
  have hend := Nat.mul_le_mul_right elem_size (show step + min step (n - step) ≤ n by omega)
  have hsrc := Nat.mul_le_mul_right elem_size (show min step (n - step) ≤ step by omega)
  rw [Nat.add_mul] at hend
  rw [fill_copy_eq (by omega) hstep]
  constructor
  · have hmin : min (step * 2) n = step + min step (n - step) := by omega
    rw [hmin, ← copy_filled (by omega), ← show f.memory = filled m data value elem_size step by
      rw [h.memory, min_eq_left hstep.le]]
    rfl
  · intro c hc
    rcases List.mem_cons.mp hc with rfl | hc
    · refine ⟨Nat.le_add_right _ _, ?_, Or.inl ⟨Nat.le_refl _, ?_⟩, Or.inr ?_⟩
      · change data + step * elem_size + min step (n - step) * elem_size ≤ data + bytes
        omega
      · change data + min step (n - step) * elem_size ≤ data + bytes
        omega
      · exact Nat.add_le_add_left hsrc data
    · exact h.copies c hc

/-- The loop ends when its rounds are enough to double `step` up to `n`. -/
theorem fill_loop_eq_some (hbytes : n * elem_size ≤ bytes) (hword : bytes < wordSize)
    (hn : n < 2 ^ 63) (hrounds : n ≤ step * 2 ^ rounds)
    (h : f.Has m data bytes value elem_size (min step n)) :
    ∃ r, Tensor.fill_loop data elem_size n (rounds + 1) step f = some r ∧
      r.Has m data bytes value elem_size n := by
  induction rounds generalizing step f with
  | zero =>
    rw [pow_zero, Nat.mul_one] at hrounds
    refine ⟨f, if_neg (by omega), ?_⟩
    rwa [min_eq_right hrounds] at h
  | succ rounds ih =>
    unfold Tensor.fill_loop
    by_cases hstep : step < n
    · have hdouble : Word.mul step 2 = step * 2 :=
        Word.mul_of_lt (lt_trans (by omega) (by decide : 2 ^ 64 - 1 < wordSize))
      rw [if_pos hstep, hdouble]
      apply ih
      · rw [Nat.mul_assoc, ← Nat.pow_succ']
        exact hrounds
      · exact h.round hbytes hword hstep
    · refine ⟨f, if_neg hstep, ?_⟩
      rwa [min_eq_right (by omega)] at h

/-- More rounds change nothing. -/
theorem fill_loop_mono {r : Filling} {rounds' : Nat} (hle : rounds ≤ rounds')
    (h : Tensor.fill_loop data elem_size n rounds step f = some r) :
    Tensor.fill_loop data elem_size n rounds' step f = some r := by
  induction rounds generalizing rounds' step f with
  | zero => cases h
  | succ rounds ih =>
    obtain ⟨k, rfl⟩ := Nat.exists_eq_add_of_le' (show 1 ≤ rounds' by omega)
    unfold Tensor.fill_loop at h ⊢
    split_ifs at h ⊢ with hstep
    · exact ih (by omega) h
    · exact h

/-- The value of the first element. -/
theorem has_first (hn : 0 < n) (hbytes : n * elem_size ≤ bytes)
    (hvalue : Apart value elem_size data elem_size) :
    (Filling.memcpy ⟨m, []⟩ ⟨data, value, elem_size⟩).Has m data bytes value elem_size
      (min 1 n) := by
  have hfirst := Nat.mul_le_mul_right elem_size hn
  rw [Nat.succ_mul, Nat.zero_mul, Nat.zero_add] at hfirst
  rw [min_eq_left hn]
  constructor
  · have hstore : BlockMemory.store m data (BlockMemory.load m value elem_size) =
        filled m data value elem_size 1 := by
      have h : BlockMemory.store (filled m data value elem_size 0) (data + 0 * elem_size)
          (BlockMemory.load m value elem_size) = filled m data value elem_size 1 :=
        store_value_filled
      rwa [filled_zero, Nat.zero_mul] at h
    exact (BlockMemory.copy_eq_store m data value elem_size).trans hstore
  · intro c hc
    have hc : c ∈ [_] := hc
    rw [List.mem_singleton] at hc
    subst hc
    refine ⟨Nat.le_refl _, ?_, Or.inr ⟨rfl, rfl⟩, hvalue.symm⟩
    change data + elem_size ≤ data + bytes
    omega

namespace Tensor

/-- `fill` ends, all its copies are inside of the buffer and apart from what they read, and it
leaves what the loop over the elements leaves: every element is the value. The value may lie
anywhere but in the first element, which is copied from it. -/
theorem fills_are_naive_fills (t : Tensor) (kDTypeSize : DType → Nat) (m : Nat → UInt8)
    {n data value : Nat} (hcount : t.shape_.num_elements = some (n : Int))
    (hdata : n ≠ 0 → t.data = some data) (hbytes : n * kDTypeSize t.dtype_ ≤ t.bytes)
    (hword : t.bytes < wordSize)
    (hvalue : n ≠ 0 → Apart value (kDTypeSize t.dtype_) data (kDTypeSize t.dtype_)) :
    ∃ r, (∀ rounds ≥ 64, t.fill kDTypeSize rounds m value = some r) ∧
      (∀ c ∈ r.copies, c.Inside data t.bytes value (kDTypeSize t.dtype_)) ∧
      (∀ i < n, BlockMemory.load r.memory (data + i * kDTypeSize t.dtype_)
        (kDTypeSize t.dtype_) = BlockMemory.load m value (kDTypeSize t.dtype_)) ∧
      r.memory = naive_fill (kDTypeSize t.dtype_) n data m
        (BlockMemory.load m value (kDTypeSize t.dtype_)) := by
  have hlt : n < 2 ^ 63 := by exact_mod_cast TensorShape.num_elements_lt hcount
  have hsize : toSize (n : Int) = n := toSize_of_lt (hlt.trans (by decide))
  by_cases hn : n = 0
  · subst hn
    refine ⟨⟨m, []⟩, ?_, by simp, by simp, rfl⟩
    intro rounds _
    unfold fill
    rw [hcount, Option.bind_some, hsize, if_pos rfl]
  · have hpos : 0 < n := Nat.pos_of_ne_zero hn
    have hrounds : n ≤ 1 * 2 ^ 63 := by omega
    obtain ⟨r, hr, hhas⟩ := fill_loop_eq_some hbytes hword hlt hrounds
      (has_first (m := m) hpos hbytes (hvalue hn))
    refine ⟨r, ?_, hhas.copies, ?_, ?_⟩
    · intro rounds hrounds
      unfold fill
      rw [hcount, Option.bind_some, hsize, if_neg hn, hdata hn]
      exact fill_loop_mono hrounds hr
    · intro i hi
      rw [hhas.memory, load_filled hi]
    · rw [hhas.memory, naive_fill_eq]

/-- Every byte is its address. -/
def counting : Nat → UInt8 := fun a => UInt8.ofNat a

theorem grid_is_filled : ∃ r, (∀ rounds ≥ 64, grid.fill kDTypeSize rounds counting 50 = some r) ∧
    (∀ c ∈ r.copies, c.Inside 100 6 50 1) ∧
    (∀ i < 6, BlockMemory.load r.memory (100 + i * 1) 1 = [50]) ∧
    r.memory = naive_fill 1 6 100 counting [50] :=
  grid.fills_are_naive_fills kDTypeSize counting (by decide) (fun _ => rfl) (by decide) (by decide)
    (fun _ => by decide)

/-! ## The size of the buffer -/

/-- `Tensor(shape, dtype, device)`. `got` is what the device gets from the system when it is asked
for memory. -/
def make (shape : TensorShape) (dtype : DType) (device : DeviceType) (got : Option Nat) :
    Option Tensor :=
  shape.num_elements.map fun num_elements =>
    let bytes := Word.mul (toSize num_elements) (kDTypeSize dtype)
    { shape_ := shape, dtype_ := dtype, layout_ := .kContiguous, device_ := device,
      -- the devices do not ask the system for 0 bytes
      data := if bytes = 0 then none else got, bytes := bytes }

def Empty (shape : TensorShape) (dtype : DType) (device : DeviceType) (got : Option Nat) :
    Option Tensor := make shape dtype device got

/-- A buffer has the bytes of all elements, and those that a loop over the elements goes to. -/
def HasElements (t : Tensor) (ds : List Nat) : Prop :=
  t.data ≠ none → t.bytes = ds.prod * sci.kDTypeSize t.dtype_ ∧
    ∀ n ∈ t.shape_.num_elements, toSize n * sci.kDTypeSize t.dtype_ ≤ t.bytes

/-- The two products wrap around as one. -/
theorem mul_toSize_bmod (n k : Nat) : Word.mul (toSize ((n : Int).bmod wordSize)) k =
    n * k % wordSize := by
  unfold Word.mul
  rw [toSize_bmod, toSize_natCast, Nat.mod_mul_mod]

theorem make_hasElements_iff {shape : TensorShape} {ds : List Nat}
    (hds : shape.Holds (ds.map Nat.cast)) (dtype : DType) (device : DeviceType)
    (got : Option Nat) :
    (∃ t, make shape dtype device got = some t ∧ t.HasElements ds) ↔
      ds.prod * kDTypeSize dtype < wordSize ∨ wordSize ∣ ds.prod * kDTypeSize dtype ∨
        got = none := by
  by_cases hne : ds = []
  · -- a shape without dimensions has no elements
    subst hne
    have hcount : shape.num_elements = some 0 := by
      unfold TensorShape.num_elements
      rw [hds.ndims_]
      rfl
    have hsmall : [].prod * kDTypeSize dtype < wordSize := by cases dtype <;> decide
    simp only [hsmall, true_or, iff_true]
    unfold make
    rw [hcount]
    refine ⟨_, rfl, fun hdata => absurd ?_ hdata⟩
    have hzero : Word.mul (toSize 0) (kDTypeSize dtype) = 0 := by cases dtype <;> rfl
    exact if_pos hzero
  · have hcount := hds.num_elements (by simpa using hne)
    rw [← Nat.cast_list_prod] at hcount
    unfold make
    rw [hcount, Option.map_some]
    simp only [mul_toSize_bmod, Option.some.injEq, exists_eq_left']
    unfold HasElements
    simp only [hcount, Option.mem_some_iff, forall_eq', toSize_bmod, toSize_natCast]
    constructor
    · intro h
      by_contra hnot
      obtain ⟨hlarge, hrest, hgot⟩ : wordSize ≤ ds.prod * kDTypeSize dtype ∧
          ¬ wordSize ∣ ds.prod * kDTypeSize dtype ∧ got ≠ none := by simpa using hnot
      rw [Nat.dvd_iff_mod_eq_zero] at hrest
      rw [if_neg hrest] at h
      have hbytes := (h hgot).1
      have hlt := Nat.mod_lt (ds.prod * kDTypeSize dtype) (by decide : 0 < wordSize)
      omega
    · rintro (hsmall | hzero | hgot) hdata
      · refine ⟨Nat.mod_eq_of_lt hsmall, ?_⟩
        rw [Nat.mod_eq_of_lt hsmall]
        exact Nat.mul_le_mul_right _ (Nat.mod_le _ _)
      · rw [if_pos (Nat.dvd_iff_mod_eq_zero.mp hzero)] at hdata
        exact absurd rfl hdata
      · rw [hgot, ite_self] at hdata
        exact absurd rfl hdata

/-- A new tensor has a buffer for all its elements, if it has a buffer, exactly when the bytes are
below `2^64`, or a multiple of it, so that none are asked for, or there is no memory. -/
theorem buffers_have_their_elements_iff {shape : TensorShape} {ds : List Nat}
    (hds : shape.Holds (ds.map Nat.cast)) (dtype : DType) (device : DeviceType)
    (got : Option Nat) :
    ((∃ t, make shape dtype device got = some t ∧ t.HasElements ds) ∧
      ∃ t, Empty shape dtype device got = some t ∧ t.HasElements ds) ↔
      ds.prod * kDTypeSize dtype < wordSize ∨ wordSize ∣ ds.prod * kDTypeSize dtype ∨
        got = none := by
  unfold Empty
  rw [and_self]
  exact make_hasElements_iff hds dtype device got

theorem grid_has_its_elements :
    ((∃ t, make grid.shape_ .kInt8 .kCPU (some 100) = some t ∧ t.HasElements [2, 3]) ∧
      ∃ t, Empty grid.shape_ .kInt8 .kCPU (some 100) = some t ∧ t.HasElements [2, 3]) ↔
      6 < wordSize ∨ wordSize ∣ 6 ∨ some 100 = none :=
  buffers_have_their_elements_iff fits_grid.holds .kInt8 .kCPU (some 100)

/-- `2^62 + 1` floats. -/
def manyFloats : TensorShape := ⟨fun i => [2 ^ 62 + 1].getD i 0, 1⟩

/-- They get a buffer of four bytes. -/
theorem many_floats_get_four_bytes : ∃ t, make manyFloats .kFloat32 .kCPU (some 4096) = some t ∧
    t.data = some 4096 ∧ t.bytes = 4 ∧ ¬ t.HasElements [2 ^ 62 + 1] := by
  refine ⟨⟨manyFloats, .kFloat32, .kContiguous, .kCPU, some 4096, 4⟩, rfl, rfl, rfl, ?_⟩
  intro h
  have hbytes := (h (by decide)).1
  revert hbytes
  decide

end Tensor

end sci.int64
