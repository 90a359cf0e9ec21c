-- `Tensor::Full` for a `float`, `double`, `int32_t` or `int64_t`, and `Tensor::Ones`, on the CPU
-- (include/tensor/tensor.hpp, 49-62, src/tensor/tensor.cpp, 94-104, 177-204). The overloads pass
-- the address of their parameter to `fill`, which copies as many bytes as the tensor's type has.
import Scicompute.LittleEndian
import Scicompute.TensorBuffers

open Word
open LittleEndian (bytes number)
open BlockMemory (Apart)

namespace sci.int64

/-! ## Scalars and elements -/

/-- The parameter of an overload. A floating point number is given by its bits. -/
inductive Scalar
  | float (bits : BitVec 32)
  | double (bits : BitVec 64)
  | int32_t (v : BitVec 32)
  | int64_t (v : BitVec 64)
  deriving DecidableEq

/-- The bytes of the object, on a little endian machine. -/
def Scalar.object : Scalar → List UInt8
  | float bits => bytes 4 bits.toNat
  | double bits => bytes 8 bits.toNat
  | int32_t v => bytes 4 v.toNat
  | int64_t v => bytes 8 v.toNat

def IsFloating : DType → Bool
  | .kFloat32 => true
  | .kFloat16 => true
  | .kBFloat16 => true
  | .kFloat64 => true
  | _ => false

/-- The values of elements. `floating` decodes the bytes of a floating point number, `ofInteger` is
the conversion of an integer to a floating type, and `ofFloating` every conversion of a `float` or
a `double` to another type. -/
structure Formats (V : Type*) where
  integer : Int → V
  floating : DType → List UInt8 → V
  ofInteger : DType → Int → V
  ofFloating : DType → List UInt8 → V
  /-- The bits of `1.0f`. -/
  one : floating .kFloat32 (bytes 4 0x3F800000) = ofInteger .kFloat32 1
  zero_ne_one : ∀ dtype, IsFloating dtype = true →
    floating dtype (List.replicate (kDTypeSize dtype) 0) ≠ ofInteger dtype 1
  integer_injective : Function.Injective integer

namespace Formats

variable {V : Type*}

def decode (f : Formats V) : DType → List UInt8 → V
  | .kInt8, l => f.integer ((number l : Int).bmod (2 ^ 8))
  | .kInt32, l => f.integer ((number l : Int).bmod (2 ^ 32))
  | .kInt64, l => f.integer ((number l : Int).bmod (2 ^ 64))
  | .kUInt8, l => f.integer (number l)
  | .kBool, l => f.integer (if number l = 0 then 0 else 1)
  | dtype, l => f.floating dtype l

/-- The conversion of an integer. -/
def ofInt (f : Formats V) (v : Int) : DType → V
  | .kInt8 => f.integer (v.bmod (2 ^ 8))
  | .kInt32 => f.integer (v.bmod (2 ^ 32))
  | .kInt64 => f.integer (v.bmod (2 ^ 64))
  | .kUInt8 => f.integer (v % (2 ^ 8 : Nat))
  | .kBool => f.integer (if v = 0 then 0 else 1)
  | dtype => f.ofInteger dtype v

def convert (f : Formats V) : Scalar → DType → V
  | .int32_t v, dtype => f.ofInt v.toInt dtype
  | .int64_t v, dtype => f.ofInt v.toInt dtype
  | .float bits, .kFloat32 => f.floating .kFloat32 (bytes 4 bits.toNat)
  | .double bits, .kFloat64 => f.floating .kFloat64 (bytes 8 bits.toNat)
  | s, dtype => f.ofFloating dtype s.object

/-- The overload has the type of the tensor, or an integer of no more bytes is asked for; or the
scalar has enough bytes, and the lowest ones are those of the converted value by chance. -/
def Fits (f : Formats V) : Scalar → DType → Prop
  | .float _, .kFloat32 => True
  | .double _, .kFloat64 => True
  | .int32_t _, .kInt8 => True
  | .int32_t _, .kUInt8 => True
  | .int32_t _, .kInt32 => True
  | .int64_t _, .kInt8 => True
  | .int64_t _, .kUInt8 => True
  | .int64_t _, .kInt32 => True
  | .int64_t _, .kInt64 => True
  | s, dtype => kDTypeSize dtype ≤ s.object.length ∧
      f.decode dtype (s.object.take (kDTypeSize dtype)) = f.convert s dtype

end Formats

/-! ## Full and Ones -/

namespace Tensor

/-- The memory after `CPUDevice::allocate` for the tensor. -/
def allocated (t : Tensor) (m : Nat → UInt8) : Nat → UInt8 :=
  match t.data with
  | none => m
  | some data => CPUDevice.allocate m data t.bytes

/-- `fill(&value)` for a scalar that is kept at the address `value`. -/
def fill_scalar (rounds : Nat) (t : Tensor) (m : Nat → UInt8) (value : Nat) (s : Scalar) :
    Option Filling :=
  t.fill kDTypeSize rounds (BlockMemory.store m value s.object) value

/-- An overload of `Full`. `got` is the address of the memory that the CPU device gets. -/
def Full (rounds : Nat) (m : Nat → UInt8) (got value : Nat) (shape : TensorShape) (dtype : DType)
    (s : Scalar) : Option (Tensor × Filling) :=
  (make shape dtype .kCPU (some got)).bind fun t =>
    (t.fill_scalar rounds (t.allocated m) value s).map (t, ·)

/-- `float val = 1.0f` or `int val = 1`; the other types are left as they are. -/
def fill_ones (rounds : Nat) (t : Tensor) (m : Nat → UInt8) (value : Nat) : Option Filling :=
  match t.dtype_ with
  | .kFloat32 => t.fill_scalar rounds m value (.float 0x3F800000)
  | .kInt32 => t.fill_scalar rounds m value (.int32_t 1)
  | _ => some ⟨m, []⟩

def Ones (rounds : Nat) (m : Nat → UInt8) (got value : Nat) (shape : TensorShape) (dtype : DType) :
    Option (Tensor × Filling) :=
  (make shape dtype .kCPU (some got)).bind fun t =>
    (t.fill_ones rounds (t.allocated m) value).map (t, ·)

end Tensor

namespace Formats

variable {V : Type*}

/-- The `n` elements are in the buffer, each of them is `x`, and nothing was read but the buffer and
the `size` bytes of the scalar. -/
structure Filled (f : Formats V) (n : Nat) (x : V) (got value size : Nat) (r : Tensor × Filling) :
    Prop where
  elements : ∀ i < n, (i + 1) * kDTypeSize r.1.dtype_ ≤ r.1.bytes ∧
    f.decode r.1.dtype_ (BlockMemory.load r.2.memory (got + i * kDTypeSize r.1.dtype_)
      (kDTypeSize r.1.dtype_)) = x
  reads : ∀ c ∈ r.2.copies, (got ≤ c.src ∧ c.src + c.bytes ≤ got + r.1.bytes) ∨
    (value ≤ c.src ∧ c.src + c.bytes ≤ value + size)

/-- `Full` returns a tensor of `n` elements that are the scalar. -/
def IsFull (f : Formats V) (m : Nat → UInt8) (got value : Nat) (shape : TensorShape) (n : Nat)
    (dtype : DType) (s : Scalar) : Prop :=
  ∃ r, (∀ rounds ≥ 64, Tensor.Full rounds m got value shape dtype s = some r) ∧
    f.Filled n (f.convert s dtype) got value s.object.length r

/-- `Ones` returns a tensor of `n` elements that are 1. -/
def IsOnes (f : Formats V) (m : Nat → UInt8) (got value : Nat) (shape : TensorShape) (n : Nat)
    (dtype : DType) : Prop :=
  ∃ r, (∀ rounds ≥ 64, Tensor.Ones rounds m got value shape dtype = some r) ∧
    f.Filled n (f.ofInt 1 dtype) got value 4 r

/-! ## Scalars that fit -/

variable {f : Formats V}

/-- The lowest bytes of a word are the converted integer. -/
theorem decode_bytes_eq_ofInt (f : Formats V) {w : Nat} (x : BitVec (8 * w)) {dtype : DType}
    (hint : dtype ∈ [DType.kInt8, .kUInt8, .kInt32, .kInt64]) (hsize : kDTypeSize dtype ≤ w) :
    f.decode dtype (bytes (kDTypeSize dtype) x.toNat) = f.ofInt x.toInt dtype := by
  have hsigned := LittleEndian.bmod_mod_two_pow x (show 8 * kDTypeSize dtype ≤ 8 * w by omega)
  have hnatural := LittleEndian.mod_two_pow x (show 8 * kDTypeSize dtype ≤ 8 * w by omega)
  have hnumber : number (bytes (kDTypeSize dtype) x.toNat) =
      x.toNat % 2 ^ (8 * kDTypeSize dtype) := by
    rw [LittleEndian.number_bytes, show (256 : Nat) = 2 ^ 8 by norm_num, ← pow_mul]
  cases dtype with
  | kUInt8 =>
    rw [decode, hnumber]
    exact congrArg f.integer hnatural
  | kInt8 =>
    rw [decode, hnumber]
    exact congrArg f.integer hsigned
  | kInt32 =>
    rw [decode, hnumber]
    exact congrArg f.integer hsigned
  | kInt64 =>
    rw [decode, hnumber]
    exact congrArg f.integer hsigned
  | _ => simp at hint

/-- The scalar has the bytes of its value. -/
def HasBytes (f : Formats V) (s : Scalar) (dtype : DType) : Prop :=
  kDTypeSize dtype ≤ s.object.length ∧
    f.decode dtype (s.object.take (kDTypeSize dtype)) = f.convert s dtype

theorem hasBytes_int32_t (f : Formats V) (v : BitVec 32) {dtype : DType}
    (hint : dtype ∈ [DType.kInt8, .kUInt8, .kInt32, .kInt64]) (hsize : kDTypeSize dtype ≤ 4) :
    f.HasBytes (.int32_t v) dtype := by
  constructor
  · rwa [Scalar.object, LittleEndian.length_bytes]
  · rw [Scalar.object, LittleEndian.take_bytes hsize]
    exact decode_bytes_eq_ofInt f (w := 4) v hint hsize

theorem hasBytes_int64_t (f : Formats V) (v : BitVec 64) {dtype : DType}
    (hint : dtype ∈ [DType.kInt8, .kUInt8, .kInt32, .kInt64]) (hsize : kDTypeSize dtype ≤ 8) :
    f.HasBytes (.int64_t v) dtype := by
  constructor
  · rwa [Scalar.object, LittleEndian.length_bytes]
  · rw [Scalar.object, LittleEndian.take_bytes hsize]
    exact decode_bytes_eq_ofInt f (w := 8) v hint hsize

/-- The floating types of the overloads. -/
theorem hasBytes_floating (f : Formats V) :
    (∀ bits, f.HasBytes (.float bits) .kFloat32) ∧ ∀ bits, f.HasBytes (.double bits) .kFloat64 := by
  unfold HasBytes Scalar.object
  simp only [LittleEndian.length_bytes, kDTypeSize, LittleEndian.take_bytes le_rfl]
  exact ⟨fun bits => ⟨le_rfl, rfl⟩, fun bits => ⟨le_rfl, rfl⟩⟩

/-- A scalar fits when it has the bytes of its value. -/
theorem fits_iff (f : Formats V) (s : Scalar) (dtype : DType) :
    f.Fits s dtype ↔ f.HasBytes s dtype := by
  cases s with
  | float bits =>
    cases dtype with
    | kFloat32 => exact iff_of_true trivial (f.hasBytes_floating.1 bits)
    | _ => exact Iff.rfl
  | double bits =>
    cases dtype with
    | kFloat64 => exact iff_of_true trivial (f.hasBytes_floating.2 bits)
    | _ => exact Iff.rfl
  | int32_t v =>
    cases dtype with
    | kInt8 => exact iff_of_true trivial (f.hasBytes_int32_t v (by decide) (by decide))
    | kUInt8 => exact iff_of_true trivial (f.hasBytes_int32_t v (by decide) (by decide))
    | kInt32 => exact iff_of_true trivial (f.hasBytes_int32_t v (by decide) (by decide))
    | _ => exact Iff.rfl
  | int64_t v =>
    cases dtype with
    | kInt8 => exact iff_of_true trivial (f.hasBytes_int64_t v (by decide) (by decide))
    | kUInt8 => exact iff_of_true trivial (f.hasBytes_int64_t v (by decide) (by decide))
    | kInt32 => exact iff_of_true trivial (f.hasBytes_int64_t v (by decide) (by decide))
    | kInt64 => exact iff_of_true trivial (f.hasBytes_int64_t v (by decide) (by decide))
    | _ => exact Iff.rfl

end Formats

/-! ## The copies of a fill -/

namespace Tensor

/-- A loop keeps the copies that were made. -/
theorem mem_copies_of_fill_loop {data elem_size n rounds step : Nat} {p r : Filling} {c : Memcpy}
    (hr : fill_loop data elem_size n rounds step p = some r) (hc : c ∈ p.copies) :
    c ∈ r.copies := by
  induction rounds generalizing step p with
  | zero => cases hr
  | succ rounds ih =>
    unfold fill_loop at hr
    split_ifs at hr
    · exact ih hr (List.mem_cons_of_mem _ hc)
    · cases hr
      exact hc

/-- A fill begins with a copy of the value. -/
theorem first_copy_mem {t : Tensor} {m : Nat → UInt8} {rounds value n got : Nat} {r : Filling}
    (hcount : t.shape_.num_elements = some (n : Int)) (hn : n ≠ 0) (hdata : t.data = some got)
    (hr : t.fill sci.kDTypeSize rounds m value = some r) :
    (⟨got, value, sci.kDTypeSize t.dtype_⟩ : Memcpy) ∈ r.copies := by
  have hlt : n < 2 ^ 63 := by exact_mod_cast TensorShape.num_elements_lt hcount
  have hsize : toSize (n : Int) = n := toSize_of_lt (hlt.trans (by decide))
  unfold fill at hr
  rw [hcount, Option.bind_some, hsize, if_neg hn, hdata, Option.bind_some] at hr
  exact mem_copies_of_fill_loop hr List.mem_cons_self

/-- The buffer of a tensor of `n` elements, as the constructor gets it. -/
structure Made (t : Tensor) (n got : Nat) : Prop where
  count : t.shape_.num_elements = some (n : Int)
  bytes : t.bytes = Word.mul n (sci.kDTypeSize t.dtype_)
  data : t.data = if t.bytes = 0 then none else some got

variable {V : Type*} {f : Formats V} {t : Tensor} {m : Nat → UInt8} {n got value : Nat}
  {s : Scalar} {x : V}

/-- Elements that are in the buffer have a size that does not wrap around. -/
theorem Made.mul_lt {r : Filling} {size : Nat} (ht : t.Made n got)
    (hf : f.Filled n x got value size (t, r)) : n * sci.kDTypeSize t.dtype_ < wordSize := by
  by_cases hn : n = 0
  · rw [hn, Nat.zero_mul]
    decide
  · have hlast := (hf.elements (n - 1) (by omega)).1
    have hbytes : t.bytes = n * sci.kDTypeSize t.dtype_ % wordSize := ht.bytes
    have hlt := Nat.mod_lt (n * sci.kDTypeSize t.dtype_) (by decide : 0 < wordSize)
    have hone : n - 1 + 1 = n := by omega
    dsimp only at hlast
    rw [hone, hbytes] at hlast
    omega

theorem Made.of_mul_lt (ht : t.Made n got) (hn : n ≠ 0)
    (hlt : n * sci.kDTypeSize t.dtype_ < wordSize) :
    t.bytes = n * sci.kDTypeSize t.dtype_ ∧ t.data = some got := by
  have hbytes : t.bytes = n * sci.kDTypeSize t.dtype_ := by
    rw [ht.bytes]
    exact Word.mul_of_lt hlt
  have hpos := Nat.mul_pos (Nat.pos_of_ne_zero hn) (kDTypeSize_pos t.dtype_)
  refine ⟨hbytes, ?_⟩
  rw [ht.data, if_neg (by omega)]

/-- A fill with a scalar that has enough bytes. -/
theorem Made.fill_scalar_eq (ht : t.Made n got) (hn : n ≠ 0)
    (hlt : n * sci.kDTypeSize t.dtype_ < wordSize)
    (hsize : sci.kDTypeSize t.dtype_ ≤ s.object.length)
    (hvalue : Apart value s.object.length got t.bytes) :
    ∃ r, (∀ rounds ≥ 64, t.fill_scalar rounds m value s = some r) ∧
      (∀ c ∈ r.copies, c.Inside got t.bytes value (sci.kDTypeSize t.dtype_)) ∧
      ∀ i < n, BlockMemory.load r.memory (got + i * sci.kDTypeSize t.dtype_)
        (sci.kDTypeSize t.dtype_) = s.object.take (sci.kDTypeSize t.dtype_) := by
  obtain ⟨hbytes, hdata⟩ := ht.of_mul_lt hn hlt
  have hfirst : sci.kDTypeSize t.dtype_ ≤ t.bytes := by
    rw [hbytes]
    exact Nat.le_mul_of_pos_left _ (Nat.pos_of_ne_zero hn)
  have hapart : Apart value (sci.kDTypeSize t.dtype_) got (sci.kDTypeSize t.dtype_) :=
    ((hvalue.mono le_rfl (by omega)).symm.mono le_rfl (by omega)).symm
  obtain ⟨r, hr, hcopies, hload, -⟩ := t.fills_are_naive_fills sci.kDTypeSize
    (BlockMemory.store m value s.object) ht.count (fun _ => hdata) hbytes.ge (by omega)
    (fun _ => hapart)
  refine ⟨r, hr, hcopies, ?_⟩
  intro i hi
  rw [hload i hi, BlockMemory.load_store_of_le m value hsize]

/-- A fill with a scalar is right exactly when the size of the tensor does not wrap around, and the
scalar has the bytes of the value, or there are no elements. -/
theorem Made.filled_iff (ht : t.Made n got) (hvalue : Apart value s.object.length got t.bytes) :
    (∃ r, (∀ rounds ≥ 64, t.fill_scalar rounds m value s = some r) ∧
      f.Filled n x got value s.object.length (t, r)) ↔
      n * sci.kDTypeSize t.dtype_ < wordSize ∧ (n = 0 ∨
        sci.kDTypeSize t.dtype_ ≤ s.object.length ∧
          f.decode t.dtype_ (s.object.take (sci.kDTypeSize t.dtype_)) = x) := by
  constructor
  · rintro ⟨r, hr, hf⟩
    have hlt := ht.mul_lt hf
    refine ⟨hlt, ?_⟩
    by_cases hn : n = 0
    · exact Or.inl hn
    · right
      obtain ⟨hbytes, hdata⟩ := ht.of_mul_lt hn hlt
      have hsize : sci.kDTypeSize t.dtype_ ≤ s.object.length := by
        have hpos := kDTypeSize_pos t.dtype_
        have hfirst := first_copy_mem ht.count hn hdata (hr 64 le_rfl)
        rcases hf.reads _ hfirst with hbuffer | hscalar
        · -- the scalar is not in the buffer
          dsimp only at hbuffer
          have hlen : 0 < s.object.length := by
            cases s <;> simp [Scalar.object]
          unfold Apart at hvalue
          omega
        · dsimp only at hscalar
          omega
      obtain ⟨r', hr', -, hload⟩ := ht.fill_scalar_eq (m := m) hn hlt hsize hvalue
      have hsame : r' = r := Option.some.inj ((hr' 64 le_rfl).symm.trans (hr 64 le_rfl))
      subst hsame
      refine ⟨hsize, ?_⟩
      have helem := (hf.elements 0 (by omega)).2
      dsimp only at helem
      rwa [hload 0 (by omega)] at helem
  · rintro ⟨hlt, hright⟩
    by_cases hn : n = 0
    · subst hn
      refine ⟨⟨BlockMemory.store m value s.object, []⟩, ?_, ?_⟩
      · intro rounds _
        unfold fill_scalar fill
        rw [ht.count]
        rfl
      · constructor
        · intro i hi
          omega
        · intro c hc
          cases hc
    · obtain ⟨hsize, hdecode⟩ := hright.resolve_left hn
      obtain ⟨hbytes, -⟩ := ht.of_mul_lt hn hlt
      obtain ⟨r, hr, hcopies, hload⟩ := ht.fill_scalar_eq (m := m) hn hlt hsize hvalue
      refine ⟨r, hr, ?_⟩
      constructor
      · intro i hi
        dsimp only
        rw [hload i hi, hbytes]
        exact ⟨Nat.mul_le_mul_right _ (by omega), hdecode⟩
      · intro c hc
        rcases (hcopies c hc).src with hbuffer | ⟨hsrc, hlen⟩
        · exact Or.inl hbuffer
        · right
          omega

/-- The constructor makes a tensor of `n` elements. -/
theorem exists_made {shape : TensorShape} (hcount : shape.num_elements = some (n : Int))
    (dtype : DType) (got : Nat) : ∃ t : Tensor, make shape dtype .kCPU (some got) = some t ∧
      t.dtype_ = dtype ∧ t.Made n got := by
  have hlt : n < 2 ^ 63 := by exact_mod_cast TensorShape.num_elements_lt hcount
  have hsize : toSize (n : Int) = n := toSize_of_lt (hlt.trans (by decide))
  unfold make
  rw [hcount, Option.map_some, hsize]
  exact ⟨_, rfl, rfl, hcount, rfl, rfl⟩

/-- What a factory returns is the tensor that it has made, with the filled memory. -/
theorem exists_map_iff {g : Nat → Option Filling} {P : Tensor × Filling → Prop} :
    (∃ r, (∀ rounds ≥ 64, (g rounds).map (t, ·) = some r) ∧ P r) ↔
      ∃ r, (∀ rounds ≥ 64, g rounds = some r) ∧ P (t, r) := by
  constructor
  · rintro ⟨p, hp, hP⟩
    obtain ⟨r, hr, rfl⟩ := Option.map_eq_some_iff.mp (hp 64 le_rfl)
    refine ⟨r, ?_, hP⟩
    intro rounds hrounds
    obtain ⟨r', hr', he⟩ := Option.map_eq_some_iff.mp (hp rounds hrounds)
    rw [hr', (Prod.mk.inj he).2]
  · rintro ⟨r, hr, hP⟩
    refine ⟨(t, r), ?_, hP⟩
    intro rounds hrounds
    rw [hr rounds hrounds, Option.map_some]

end Tensor

/-! ## When the elements are right -/

namespace Formats

variable {V : Type*} {m : Nat → UInt8} {shape : TensorShape} {dtype : DType} {n got value : Nat}

/-- The scalar is apart from the buffer. -/
def OnStack (value got n : Nat) (dtype : DType) : Prop :=
  Apart value 8 got (Word.mul n (kDTypeSize dtype))

instance (value got n : Nat) (dtype : DType) : Decidable (OnStack value got n dtype) :=
  inferInstanceAs (Decidable (Apart ..))

theorem OnStack.apart (h : OnStack value got n dtype) {k : Nat} (hk : k ≤ 8) :
    Apart value k got (Word.mul n (kDTypeSize dtype)) := h.mono le_rfl (by omega)

theorem isFull_iff (f : Formats V) (hcount : shape.num_elements = some (n : Int)) (s : Scalar)
    (hvalue : OnStack value got n dtype) :
    f.IsFull m got value shape n dtype s ↔
      n * kDTypeSize dtype < wordSize ∧ (n = 0 ∨ f.Fits s dtype) := by
  obtain ⟨t, hmake, rfl, ht⟩ := Tensor.exists_made hcount dtype got
  have hlen : s.object.length ≤ 8 := by cases s <;> simp [Scalar.object]
  have hapart := hvalue.apart hlen
  rw [← ht.bytes] at hapart
  rw [fits_iff]
  unfold IsFull Tensor.Full
  simp only [hmake, Option.bind_some]
  rw [Tensor.exists_map_iff]
  exact ht.filled_iff hapart

theorem number_zeros (k : Nat) : number (List.replicate k 0) = 0 := by
  unfold number
  induction k with
  | zero => rfl
  | succ k ih =>
    rw [List.replicate_succ, List.map_cons, Nat.ofDigits_cons, ih]
    rfl

/-- No type has only zeros for 1. -/
theorem decode_zeros_ne (f : Formats V) (dtype : DType) :
    f.decode dtype (List.replicate (kDTypeSize dtype) 0) ≠ f.ofInt 1 dtype := by
  have hinteger : f.integer 0 ≠ f.integer 1 := fun h => by
    have := f.integer_injective h
    omega
  cases dtype with
  | kFloat32 => exact f.zero_ne_one .kFloat32 rfl
  | kFloat16 => exact f.zero_ne_one .kFloat16 rfl
  | kBFloat16 => exact f.zero_ne_one .kBFloat16 rfl
  | kFloat64 => exact f.zero_ne_one .kFloat64 rfl
  | _ =>
    simp only [decode, number_zeros]
    exact hinteger

/-- A type that `fill_ones` does not know. -/
theorem zeros_filled_iff {f : Formats V} {t : Tensor} (ht : t.Made n got) (size : Nat) :
    f.Filled n (f.ofInt 1 t.dtype_) got value size (t, ⟨t.allocated m, []⟩) ↔
      n * kDTypeSize t.dtype_ < wordSize ∧ n = 0 := by
  constructor
  · intro hf
    have hlt := ht.mul_lt hf
    refine ⟨hlt, ?_⟩
    by_contra hn
    obtain ⟨hbytes, hdata⟩ := ht.of_mul_lt hn hlt
    have hfirst : kDTypeSize t.dtype_ ≤ t.bytes := by
      rw [hbytes]
      exact Nat.le_mul_of_pos_left _ (Nat.pos_of_ne_zero hn)
    have hzeros : BlockMemory.load (t.allocated m) got (kDTypeSize t.dtype_) =
        List.replicate (kDTypeSize t.dtype_) 0 := by
      unfold Tensor.allocated
      rw [hdata, List.eq_replicate_iff]
      refine ⟨by simp [BlockMemory.load], ?_⟩
      intro b hb
      obtain ⟨k, hk, rfl⟩ := List.mem_map.mp hb
      rw [List.mem_range] at hk
      exact if_pos (by omega)
    have helem := (hf.elements 0 (by omega)).2
    dsimp only at helem
    rw [Nat.zero_mul, Nat.add_zero, hzeros] at helem
    exact f.decode_zeros_ne t.dtype_ helem
  · rintro ⟨-, rfl⟩
    constructor
    · intro i hi
      omega
    · intro c hc
      cases hc

/-- The bytes of the `float` and of the `int` that `fill_ones` has. -/
theorem ones_bytes (f : Formats V) :
    (f.decode .kFloat32 ((Scalar.float 0x3F800000).object.take 4) = f.ofInt 1 .kFloat32) ∧
      f.decode .kInt32 ((Scalar.int32_t 1).object.take 4) = f.ofInt 1 .kInt32 := by
  constructor
  · exact f.one
  · have h : f.HasBytes (.int32_t 1) .kInt32 := f.hasBytes_int32_t 1 (by decide) (by decide)
    exact h.2

/-- `fill_ones` with a scalar that has the bytes of 1. -/
theorem fill_ones_iff (f : Formats V) {t : Tensor} {s : Scalar} (ht : t.Made n got)
    (hones : ∀ rounds, t.fill_ones rounds m value = t.fill_scalar rounds m value s)
    (hapart : Apart value s.object.length got t.bytes)
    (hone : kDTypeSize t.dtype_ ≤ s.object.length ∧
      f.decode t.dtype_ (s.object.take (kDTypeSize t.dtype_)) = f.ofInt 1 t.dtype_) :
    (∃ r, (∀ rounds ≥ 64, t.fill_ones rounds m value = some r) ∧
      f.Filled n (f.ofInt 1 t.dtype_) got value s.object.length (t, r)) ↔
      n * kDTypeSize t.dtype_ < wordSize := by
  simp only [hones]
  rw [ht.filled_iff hapart]
  exact and_iff_left (Or.inr hone)

theorem isOnes_iff (f : Formats V) (hcount : shape.num_elements = some (n : Int))
    (hvalue : OnStack value got n dtype) :
    f.IsOnes m got value shape n dtype ↔
      n * kDTypeSize dtype < wordSize ∧ (n = 0 ∨ dtype = .kFloat32 ∨ dtype = .kInt32) := by
  obtain ⟨t, hmake, rfl, ht⟩ := Tensor.exists_made hcount dtype got
  have hapart := hvalue.apart (show 4 ≤ 8 by omega)
  rw [← ht.bytes] at hapart
  unfold IsOnes Tensor.Ones
  simp only [hmake, Option.bind_some]
  rw [Tensor.exists_map_iff]
  by_cases hfloat : t.dtype_ = .kFloat32
  · have hones : ∀ rounds, t.fill_ones rounds (t.allocated m) value =
        t.fill_scalar rounds (t.allocated m) value (.float 0x3F800000) := by
      intro rounds
      unfold Tensor.fill_ones
      rw [hfloat]
    have hiff := f.fill_ones_iff ht hones hapart (by
      rw [hfloat]
      exact ⟨by decide, f.ones_bytes.1⟩)
    exact hiff.trans (and_iff_left (Or.inr (Or.inl hfloat))).symm
  · by_cases hint : t.dtype_ = .kInt32
    · have hones : ∀ rounds, t.fill_ones rounds (t.allocated m) value =
          t.fill_scalar rounds (t.allocated m) value (.int32_t 1) := by
        intro rounds
        unfold Tensor.fill_ones
        rw [hint]
      have hiff := f.fill_ones_iff ht hones hapart (by
        rw [hint]
        exact ⟨by decide, f.ones_bytes.2⟩)
      exact hiff.trans (and_iff_left (Or.inr (Or.inr hint))).symm
    · have hones : ∀ rounds, t.fill_ones rounds (t.allocated m) value =
          some ⟨t.allocated m, []⟩ := by
        intro rounds
        unfold Tensor.fill_ones
        cases hd : t.dtype_ with
        | kFloat32 => exact absurd hd hfloat
        | kInt32 => exact absurd hd hint
        | _ => rfl
      have hnot : ¬ (t.dtype_ = .kFloat32 ∨ t.dtype_ = .kInt32) := not_or.mpr ⟨hfloat, hint⟩
      simp only [hones, hnot, or_false]
      rw [← zeros_filled_iff (f := f) (m := m) ht 4]
      constructor
      · rintro ⟨r, hr, hf⟩
        cases hr 64 le_rfl
        exact hf
      · exact fun hf => ⟨_, fun _ _ => rfl, hf⟩

/-- The bytes of 1 in a floating type. -/
def oneBytes : DType → List UInt8
  | .kFloat32 => bytes 4 0x3F800000
  | .kFloat64 => bytes 8 0x3FF0000000000000
  | .kFloat16 => bytes 2 0x3C00
  | _ => bytes 2 0x3F80

/-- Integers, with 0 and 1 in each floating type. Other floating point numbers are their bytes. -/
def smallNumbers : Formats (Int ⊕ List UInt8) where
  integer := .inl
  floating dtype l :=
    if l = oneBytes dtype then .inl 1
    else if l = List.replicate l.length 0 then .inl 0 else .inr l
  ofInteger _ v := .inl v
  ofFloating _ l := .inr l
  one := by decide
  zero_ne_one dtype _ := by cases dtype <;> decide
  integer_injective := Sum.inl_injective

theorem grid_count : Tensor.grid.shape_.num_elements = some ((6 : Nat) : Int) := by decide

end Formats

end sci.int64
