-- `math::add`, `sub`, `mul` and `div` (src/math/elementwise.cpp, 15-59, 101-156) in a build without
-- `SCI_DEBUG`, where the assertions at their beginnings are off (include/core/macros.hpp, 19-29).
-- A float is its bits, and what the processor makes of two of them is a parameter.
import Scicompute.ScalarFills

open Word
open LittleEndian (number)
open BlockMemory (Apart)

namespace sci.int64

namespace Tensor

/-- `static_cast<const float*>(data())[i]`, where the bytes are in the buffer. -/
def read_f32 (t : Tensor) (m : Nat → UInt8) (i : Nat) : Option (BitVec 32) :=
  t.data.bind fun data =>
    if (i + 1) * 4 ≤ t.bytes then
      some (BitVec.ofNat 32 (number (BlockMemory.load m (data + i * 4) 4)))
    else none

def write_f32 (t : Tensor) (m : Nat → UInt8) (i : Nat) (x : BitVec 32) : Option (Nat → UInt8) :=
  t.data.bind fun data =>
    if (i + 1) * 4 ≤ t.bytes then
      some (BlockMemory.store m (data + i * 4) (LittleEndian.bytes 4 x.toNat))
    else none

end Tensor

namespace math

/-- The operations on floats. -/
structure Arithmetic where
  add : BitVec 32 → BitVec 32 → BitVec 32
  sub : BitVec 32 → BitVec 32 → BitVec 32
  mul : BitVec 32 → BitVec 32 → BitVec 32
  div : BitVec 32 → BitVec 32 → BitVec 32

namespace ref

/-- The loop that the four functions share. There is no result where it leaves a buffer. -/
def loop_f32 (op : BitVec 32 → BitVec 32 → BitVec 32) (a b out : Tensor) (n : Nat)
    (m : Nat → UInt8) : Option (Nat → UInt8) :=
  (List.range n).foldlM
    (fun m i =>
      (a.read_f32 m i).bind fun x => (b.read_f32 m i).bind fun y => out.write_f32 m i (op x y))
    m

def add_f32 (f : Arithmetic) := loop_f32 f.add

def mul_f32 (f : Arithmetic) := loop_f32 f.mul

def sub_f32 (f : Arithmetic) := loop_f32 f.sub

def div_f32 (f : Arithmetic) := loop_f32 f.div

end ref

/-- What the four functions share. `got` is the address of the memory that the CPU device gets. -/
def elementwise (kernel : Tensor → Tensor → Tensor → Nat → (Nat → UInt8) → Option (Nat → UInt8))
    (m : Nat → UInt8) (got : Nat) (a b : Tensor) :
    Option (Except String (Tensor × (Nat → UInt8))) :=
  (Tensor.make a.shape_ a.dtype_ a.device_ (some got)).bind fun out =>
  a.shape_.num_elements.bind fun n =>
  (kernel a b out (toSize n) (out.allocated m)).map fun m => .ok (out, m)

def add (f : Arithmetic) := elementwise (ref.add_f32 f)

def sub (f : Arithmetic) := elementwise (ref.sub_f32 f)

def mul (f : Arithmetic) := elementwise (ref.mul_f32 f)

def div (f : Arithmetic) := elementwise (ref.div_f32 f)

/-! ## Tensors of floats -/

/-- A tensor on the CPU with these dimensions, in a buffer of the size that its constructors
compute. -/
structure OnCPU (t : Tensor) (ds : List Int) : Prop where
  shape : t.shape_.Holds ds
  device : t.device_ = .kCPU
  bytes : ∀ n ∈ t.shape_.num_elements, t.bytes = Word.mul (toSize n) (kDTypeSize t.dtype_)
  data : t.bytes ≠ 0 → t.data ≠ none

/-- The shapes are the same, and all elements are floats. -/
def SameFloats (a b : Tensor) (da db : List Int) : Prop :=
  da = db ∧ a.dtype_ = .kFloat32 ∧ b.dtype_ = .kFloat32

/-- The result is an error, or the operands match, and each of the `n` elements of a tensor of the
same shape is made of those of the operands. No result stands for an access behind a buffer. -/
def Answers (op : BitVec 32 → BitVec 32 → BitVec 32) (m : Nat → UInt8) (a b : Tensor)
    (da db : List Int) (n : Nat) (r : Option (Except String (Tensor × (Nat → UInt8)))) : Prop :=
  (∃ e, r = some (.error e)) ∨ SameFloats a b da db ∧
    ∃ out m', r = some (.ok (out, m')) ∧ out.shape_ = a.shape_ ∧ ∀ i < n, ∃ x y,
      a.read_f32 m i = some x ∧ b.read_f32 m i = some y ∧ out.read_f32 m' i = some (op x y)

variable {op : BitVec 32 → BitVec 32 → BitVec 32} {m m' : Nat → UInt8} {a b out t : Tensor}
  {da db ds : List Int} {got p q n i : Nat} {c : Int}

/-- The floats are in a block of the memory. -/
structure HasFloats (t : Tensor) (p n : Nat) : Prop where
  data : t.data = some p
  bytes : n * 4 ≤ t.bytes

theorem HasFloats.read_f32 (h : HasFloats t p n) (m : Nat → UInt8) (hi : i < n) :
    t.read_f32 m i = some (BitVec.ofNat 32 (number (BlockMemory.load m (p + i * 4) 4))) := by
  have hbytes := h.bytes
  unfold Tensor.read_f32
  rw [h.data, Option.bind_some, if_pos (by omega)]

theorem HasFloats.write_f32 (h : HasFloats t p n) (m : Nat → UInt8) (hi : i < n)
    (x : BitVec 32) : t.write_f32 m i x =
      some (BlockMemory.store m (p + i * 4) (LittleEndian.bytes 4 x.toNat)) := by
  have hbytes := h.bytes
  unfold Tensor.write_f32
  rw [h.data, Option.bind_some, if_pos (by omega)]

/-- A memory that differs in another block has the same floats. -/
theorem HasFloats.read_f32_congr (h : HasFloats t p n) (hapart : Apart p (n * 4) q (n * 4))
    (hm : ∀ x, ¬ (q ≤ x ∧ x < q + n * 4) → m' x = m x) (hi : i < n) :
    t.read_f32 m' i = t.read_f32 m i := by
  rw [h.read_f32 m' hi, h.read_f32 m hi]
  have hload : BlockMemory.load m' (p + i * 4) 4 = BlockMemory.load m (p + i * 4) 4 := by
    apply BlockMemory.load_congr
    intro k hk
    apply hm
    unfold Apart at hapart
    omega
  rw [hload]

/-- A float that is stored is read. -/
theorem read_f32_store (h : HasFloats t p n) (hi : i < n) (x : BitVec 32) :
    t.read_f32 (BlockMemory.store m (p + i * 4) (LittleEndian.bytes 4 x.toNat)) i = some x := by
  have hlen : 4 ≤ (LittleEndian.bytes 4 x.toNat).length := by rw [LittleEndian.length_bytes]
  rw [h.read_f32 _ hi, BlockMemory.load_store_of_le m _ hlen, LittleEndian.take_bytes le_rfl,
    LittleEndian.number_bytes, Nat.mod_eq_of_lt (by simpa using x.isLt), BitVec.ofNat_toNat,
    BitVec.setWidth_eq]

theorem read_f32_store_of_ne {j : Nat} (h : HasFloats t p n) (hi : i < n) (hne : i ≠ j)
    (x : BitVec 32) :
    t.read_f32 (BlockMemory.store m (p + j * 4) (LittleEndian.bytes 4 x.toNat)) i =
      t.read_f32 m i := by
  rw [h.read_f32 _ hi, h.read_f32 _ hi]
  have hload : BlockMemory.load
      (BlockMemory.store m (p + j * 4) (LittleEndian.bytes 4 x.toNat)) (p + i * 4) 4 =
        BlockMemory.load m (p + i * 4) 4 := by
    apply BlockMemory.load_congr
    intro k hk
    apply BlockMemory.store_of_outside
    rw [LittleEndian.length_bytes]
    omega
  rw [hload]

/-! ## The loop -/

/-- After `k` rounds the first `k` floats of the output are made, and the rest of the memory is as
it was. -/
theorem exists_loop_f32 (op : BitVec 32 → BitVec 32 → BitVec 32) (m : Nat → UInt8)
    (ha : HasFloats a p n) (hb : HasFloats b q n) (hout : HasFloats out got n)
    (hpa : Apart p (n * 4) got (n * 4)) (hqa : Apart q (n * 4) got (n * 4)) {k : Nat}
    (hk : k ≤ n) :
    ∃ m', ref.loop_f32 op a b out k m = some m' ∧
      (∀ x, ¬ (got ≤ x ∧ x < got + n * 4) → m' x = m x) ∧
      ∀ i < k, ∃ x y, a.read_f32 m i = some x ∧ b.read_f32 m i = some y ∧
        out.read_f32 m' i = some (op x y) := by
  induction k with
  | zero => exact ⟨m, rfl, fun _ _ => rfl, fun i hi => absurd hi (by omega)⟩
  | succ k ih =>
    obtain ⟨m', hloop, hrest, hmade⟩ := ih (by omega)
    have hreada := ha.read_f32_congr hpa hrest (show k < n by omega)
    have hreadb := hb.read_f32_congr hqa hrest (show k < n by omega)
    have hx := ha.read_f32 m (show k < n by omega)
    have hy := hb.read_f32 m (show k < n by omega)
    generalize BitVec.ofNat 32 (number (BlockMemory.load m (p + k * 4) 4)) = x at hx
    generalize BitVec.ofNat 32 (number (BlockMemory.load m (q + k * 4) 4)) = y at hy
    refine ⟨BlockMemory.store m' (got + k * 4) (LittleEndian.bytes 4 (op x y).toNat), ?_, ?_, ?_⟩
    · unfold ref.loop_f32 at hloop ⊢
      rw [List.range_succ, List.foldlM_append, hloop]
      simp only [Option.bind_eq_bind, Option.bind_some, List.foldlM_cons, List.foldlM_nil, hreada,
        hreadb, hx, hy, hout.write_f32 m' (show k < n by omega), Option.pure_def]
    · intro z hz
      rw [BlockMemory.store_of_outside, hrest z hz]
      rw [LittleEndian.length_bytes]
      omega
    · intro i hi
      by_cases hlast : i = k
      · subst hlast
        exact ⟨x, y, hx, hy, read_f32_store hout (by omega) _⟩
      · obtain ⟨x', y', hx', hy', hmade⟩ := hmade i (by omega)
        refine ⟨x', y', hx', hy', ?_⟩
        rw [read_f32_store_of_ne hout (by omega) hlast, hmade]

/-! ## The four functions -/

theorem OnCPU.count_eq (ha : OnCPU a ds) (hb : OnCPU b ds) :
    b.shape_.num_elements = a.shape_.num_elements := by
  by_cases hds : ds = []
  · subst hds
    unfold TensorShape.num_elements
    rw [ha.shape.ndims_, hb.shape.ndims_]
    rfl
  · rw [ha.shape.num_elements hds, hb.shape.num_elements hds]

/-- A tensor of floats, where its size does not wrap around. -/
theorem OnCPU.exists_hasFloats (ht : OnCPU t ds) (hfloat : t.dtype_ = .kFloat32)
    (hcount : t.shape_.num_elements = some c) (hn : toSize c ≠ 0)
    (hlt : toSize c * 4 < wordSize) :
    ∃ p, t.data = some p ∧ t.bytes = toSize c * 4 ∧ HasFloats t p (toSize c) := by
  have hbytes : t.bytes = toSize c * 4 := by
    rw [ht.bytes c hcount, hfloat]
    exact Word.mul_of_lt hlt
  obtain ⟨p, hp⟩ := Option.ne_none_iff_exists'.mp (ht.data (by omega))
  exact ⟨p, hp, hbytes, hp, hbytes.ge⟩

/-- The output is made like the first operand. -/
theorem exists_make (ha : OnCPU a ds) (hcount : a.shape_.num_elements = some c) (got : Nat) :
    ∃ out, Tensor.make a.shape_ a.dtype_ a.device_ (some got) = some out ∧
      out.shape_ = a.shape_ ∧ out.bytes = a.bytes ∧
      out.data = if out.bytes = 0 then none else some got := by
  unfold Tensor.make
  rw [hcount, Option.map_some]
  exact ⟨_, rfl, rfl, (ha.bytes c hcount).symm, rfl⟩

/-- A float that is read lies below the end of the word. -/
theorem lt_of_read_f32 {x : BitVec 32} (hbytes : t.bytes < wordSize)
    (h : t.read_f32 m i = some x) : (i + 1) * 4 < wordSize := by
  unfold Tensor.read_f32 at h
  obtain ⟨p, -, h⟩ := Option.bind_eq_some_iff.mp h
  split_ifs at h with hle
  omega

theorem answers_elementwise_iff (ha : OnCPU a da) (hb : OnCPU b db)
    (hcount : a.shape_.num_elements = some c)
    (hapart : ∀ p ∈ a.data, Apart p a.bytes got a.bytes)
    (hbpart : ∀ q ∈ b.data, Apart q b.bytes got a.bytes) :
    Answers op m a b da db (toSize c) (elementwise (ref.loop_f32 op) m got a b) ↔
      SameFloats a b da db ∧ toSize c * 4 < wordSize := by
  obtain ⟨out, hmake, hshape, hbytes, hdata⟩ := exists_make ha hcount got
  unfold Answers elementwise
  rw [hmake, hcount, Option.bind_some, Option.bind_some]
  constructor
  · -- the functions return no errors
    rintro (⟨e, he⟩ | ⟨hsame, out', m', hr, -, helements⟩)
    · obtain ⟨m', -, he⟩ := Option.map_eq_some_iff.mp he
      cases he
    · refine ⟨hsame, ?_⟩
      by_cases hn : toSize c = 0
      · rw [hn]
        decide
      · obtain ⟨x, y, hx, -, -⟩ := helements (toSize c - 1) (by omega)
        have hword : a.bytes < wordSize := by
          rw [ha.bytes c hcount]
          exact Nat.mod_lt _ (by decide)
        have hlt := lt_of_read_f32 hword hx
        omega
  · rintro ⟨⟨rfl, hfloata, hfloatb⟩, hlt⟩
    refine Or.inr ⟨⟨rfl, hfloata, hfloatb⟩, out, ?_⟩
    by_cases hn : toSize c = 0
    · rw [hn]
      exact ⟨_, rfl, hshape, fun i hi => absurd hi (by omega)⟩
    · have hcountb := (ha.count_eq hb).trans hcount
      obtain ⟨p, hp, hbytesa, hfloatsa⟩ := ha.exists_hasFloats hfloata hcount hn hlt
      obtain ⟨q, hq, hbytesb, hfloatsb⟩ := hb.exists_hasFloats hfloatb hcountb hn hlt
      have hout : HasFloats out got (toSize c) := by
        constructor
        · rw [hdata, if_neg (by omega)]
        · omega
      have hpa := hapart p hp
      have hqa := hbpart q hq
      rw [hbytesa] at hpa hqa
      rw [hbytesb] at hqa
      -- the memory of the output is cleared first
      have hclear : ∀ x, ¬ (got ≤ x ∧ x < got + toSize c * 4) → out.allocated m x = m x := by
        intro x hx
        unfold Tensor.allocated
        rw [hout.data, hbytes, hbytesa]
        exact BlockMemory.fill_of_outside m 0 hx
      obtain ⟨m', hloop, -, hmade⟩ := exists_loop_f32 op (out.allocated m) hfloatsa hfloatsb
        hout hpa hqa le_rfl
      refine ⟨m', ?_, hshape, ?_⟩
      · rw [hloop]
        rfl
      · intro i hi
        obtain ⟨x, y, hx, hy, hxy⟩ := hmade i hi
        rw [hfloatsa.read_f32_congr hpa hclear hi] at hx
        rw [hfloatsb.read_f32_congr hqa hclear hi] at hy
        exact ⟨x, y, hx, hy, hxy⟩

/-- The functions answer for two tensors exactly where their shapes are the same, their elements
are floats, and the size of the buffers does not wrap around. -/
theorem elementwise_answers_iff (f : Arithmetic) (m : Nat → UInt8) (ha : OnCPU a da)
    (hb : OnCPU b db) (hcount : a.shape_.num_elements = some c)
    (hapart : ∀ p ∈ a.data, Apart p a.bytes got a.bytes)
    (hbpart : ∀ q ∈ b.data, Apart q b.bytes got a.bytes) :
    (Answers f.add m a b da db (toSize c) (add f m got a b) ↔
      SameFloats a b da db ∧ toSize c * 4 < wordSize) ∧
    (Answers f.sub m a b da db (toSize c) (sub f m got a b) ↔
      SameFloats a b da db ∧ toSize c * 4 < wordSize) ∧
    (Answers f.mul m a b da db (toSize c) (mul f m got a b) ↔
      SameFloats a b da db ∧ toSize c * 4 < wordSize) ∧
    (Answers f.div m a b da db (toSize c) (div f m got a b) ↔
      SameFloats a b da db ∧ toSize c * 4 < wordSize) :=
  ⟨answers_elementwise_iff ha hb hcount hapart hbpart,
    answers_elementwise_iff ha hb hcount hapart hbpart,
    answers_elementwise_iff ha hb hcount hapart hbpart,
    answers_elementwise_iff ha hb hcount hapart hbpart⟩

/-- A tensor of two rows of three elements. -/
def gridOf (dtype : DType) (data : Nat) : Tensor :=
  { Tensor.grid with dtype_ := dtype, data := some data, bytes := 6 * kDTypeSize dtype }

theorem onCPU_gridOf (dtype : DType) (data : Nat) :
    OnCPU (gridOf dtype data) ([2, 3].map Nat.cast) := by
  refine ⟨Tensor.fits_grid.holds, rfl, ?_, fun _ => Option.some_ne_none _⟩
  intro n hn
  have hcount : Tensor.grid.shape_.num_elements = some n := hn
  rw [Formats.grid_count, Option.some.injEq] at hcount
  subst hcount
  have hbytes : 6 * kDTypeSize dtype = Word.mul (toSize ((6 : Nat) : Int)) (kDTypeSize dtype) := by
    cases dtype <;> decide
  exact hbytes

/-- Each float is `1.0f`. -/
def ones : Nat → UInt8 := fun x => [0, 0, 0x80, 0x3F].getD (x % 4) 0

/-- What the operations make of two of them. -/
def ofOnes : Arithmetic :=
  ⟨fun _ _ => 0x40000000, fun _ _ => 0, fun _ _ => 0x3F800000, fun _ _ => 0x3F800000⟩

theorem ones_are_added_and_divided :
    Answers ofOnes.add ones (gridOf .kFloat32 1000) (gridOf .kFloat32 2000)
        ([2, 3].map Nat.cast) ([2, 3].map Nat.cast) (toSize 6)
        (add ofOnes ones 3000 (gridOf .kFloat32 1000) (gridOf .kFloat32 2000)) ∧
      Answers ofOnes.div ones (gridOf .kFloat32 1000) (gridOf .kFloat32 2000)
        ([2, 3].map Nat.cast) ([2, 3].map Nat.cast) (toSize 6)
        (div ofOnes ones 3000 (gridOf .kFloat32 1000) (gridOf .kFloat32 2000)) := by
  have hapart : ∀ p ∈ (gridOf .kFloat32 1000).data, Apart p 24 3000 24 := by decide
  obtain ⟨hadd, -, -, hdiv⟩ := elementwise_answers_iff ofOnes ones (onCPU_gridOf .kFloat32 1000)
    (onCPU_gridOf .kFloat32 2000) (c := 6) Formats.grid_count hapart (by decide)
  have hsame : SameFloats (gridOf .kFloat32 1000) (gridOf .kFloat32 2000) ([2, 3].map Nat.cast)
      ([2, 3].map Nat.cast) ∧ toSize 6 * 4 < wordSize := ⟨⟨rfl, rfl, rfl⟩, by decide⟩
  exact ⟨hadd.mpr hsame, hdiv.mpr hsame⟩

/-- Floats and bytes of one shape: the loop goes behind the buffer of the bytes. -/
theorem floats_and_bytes_are_not_rejected :
    ¬ ∀ (f : Arithmetic) (m : Nat → UInt8) (a b : Tensor) (da db : List Int) (c : Int) (got : Nat),
      OnCPU a da → OnCPU b db → a.shape_.num_elements = some c →
      (∀ p ∈ a.data, Apart p a.bytes got a.bytes) → (∀ q ∈ b.data, Apart q b.bytes got a.bytes) →
      Answers f.add m a b da db (toSize c) (add f m got a b) := by
  intro h
  have hanswers := h ofOnes ones _ _ _ _ 6 3000 (onCPU_gridOf .kFloat32 1000)
    (onCPU_gridOf .kInt8 2000) Formats.grid_count (by decide) (by decide)
  have hsame := (answers_elementwise_iff (onCPU_gridOf .kFloat32 1000) (onCPU_gridOf .kInt8 2000)
    Formats.grid_count (by decide) (by decide)).mp hanswers
  exact absurd hsame.1.2.2 (by decide)

end math

end sci.int64
