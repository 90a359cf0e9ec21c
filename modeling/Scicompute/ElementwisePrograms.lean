-- Programs of the elementwise functions (src/math/elementwise.cpp): calls of `add`, `sub`, `mul`,
-- `div`, `add_scalar`, `negate`, `abs`, `sqrt`, `rsqrt`, `pow` and `clamp`, whose results are new
-- tensors, and of the functions that write into a tensor that is there. At each index such a
-- program does what the same operations do with single floats.
import Scicompute.Normalization
import Scicompute.Reductions
import Scicompute.Transition

open Word Transition
open LittleEndian (number)
open BlockMemory (Apart)

namespace sci.int64.math

/-! ## The functions -/

namespace MathFunctions

variable (f : MathFunctions)

/-- `-x` -/
def neg (x : BitVec 32) : BitVec 32 := x ^^^ 0x80000000

/-- `1.0f / std::sqrt(x)` -/
def rsqrt (x : BitVec 32) : BitVec 32 := f.div one (f.sqrt x)

/-- `std::clamp` -/
def clamp (min_val max_val x : BitVec 32) : BitVec 32 :=
  if f.lt x min_val then min_val else if f.lt max_val x then max_val else x

end MathFunctions

/-- The loop `out_data[i] = op(a_data[i])`. -/
def map_f32 (op : BitVec 32 → BitVec 32) (a out : Tensor) (n : Nat) (m : Nat → UInt8) :
    Option (Nat → UInt8) :=
  (List.range n).foldlM (fun m i => (a.read_f32 m i).bind fun x => out.write_f32 m i (op x)) m

/-- What the functions of one operand share. -/
def unary (op : BitVec 32 → BitVec 32) (m : Nat → UInt8) (got : Nat) (a : Tensor) :
    Option (Except String (Tensor × (Nat → UInt8))) :=
  (Tensor.make a.shape_ a.dtype_ a.device_ (some got)).bind fun out =>
  a.shape_.num_elements.bind fun n =>
  (map_f32 op a out (toSize n) (out.allocated m)).map fun m => .ok (out, m)

section

variable (f : MathFunctions)

def add_scalar (scalar : BitVec 32) := unary fun x => f.add x scalar

def negate := unary MathFunctions.neg

def abs := unary f.abs

def sqrt := unary f.sqrt

def rsqrt := unary f.rsqrt

def pow (exponent : BitVec 32) := unary fun x => f.pow x exponent

def clamp (min_val max_val : BitVec 32) := unary (f.clamp min_val max_val)

/-- `add` with an output. The tensor that it returns is empty. -/
def add_out (m : Nat → UInt8) (a b out : Tensor) : Option (Nat → UInt8) :=
  a.shape_.num_elements.bind fun n => ref.add_f32 f.toArithmetic a b out (toSize n) m

/-- The loop `a_data[i] += b_data[i]`. -/
def add_inplace (m : Nat → UInt8) (a b : Tensor) : Option (Nat → UInt8) :=
  a.shape_.num_elements.bind fun n => ref.loop_f32 f.add a b a (toSize n) m

def mul_scalar_inplace (scalar : BitVec 32) (m : Nat → UInt8) (a : Tensor) :
    Option (Nat → UInt8) :=
  a.shape_.num_elements.bind fun n => map_f32 (fun x => f.mul x scalar) a a (toSize n) m

end

/-! ## Programs -/

inductive Binary
  | add
  | sub
  | mul
  | div

inductive Unary
  | add_scalar (scalar : BitVec 32)
  | negate
  | abs
  | sqrt
  | rsqrt
  | pow (exponent : BitVec 32)
  | clamp (min_val max_val : BitVec 32)

/-- A call, with the names of its tensors. `got` is the address of the memory that the CPU device
gets for a new tensor, which then has the name `dst`. -/
inductive Call (ρ : Type*)
  | binary (op : Binary) (dst a b : ρ) (got : Nat)
  | unary (op : Unary) (dst a : ρ) (got : Nat)
  | add_out (a b out : ρ)
  | add_inplace (a b : ρ)
  | mul_scalar_inplace (a : ρ) (scalar : BitVec 32)

/-- The tensors and the memory. -/
structure Tensors (ρ : Type*) where
  tensor : ρ → Tensor
  memory : Nat → UInt8

variable (f : MathFunctions) {ρ : Type*} [DecidableEq ρ]

def Binary.run : Binary → (Nat → UInt8) → Nat → Tensor → Tensor →
    Option (Except String (Tensor × (Nat → UInt8)))
  | .add => math.add f.toArithmetic
  | .sub => math.sub f.toArithmetic
  | .mul => math.mul f.toArithmetic
  | .div => math.div f.toArithmetic

def Unary.run : Unary → (Nat → UInt8) → Nat → Tensor →
    Option (Except String (Tensor × (Nat → UInt8)))
  | .add_scalar scalar => math.add_scalar f scalar
  | .negate => math.negate
  | .abs => math.abs f
  | .sqrt => math.sqrt f
  | .rsqrt => math.rsqrt f
  | .pow exponent => math.pow f exponent
  | .clamp min_val max_val => math.clamp f min_val max_val

namespace Tensors

/-- A new tensor gets a name. -/
def bind (s : Tensors ρ) (dst : ρ) : Option (Except String (Tensor × (Nat → UInt8))) →
    Option (Tensors ρ)
  | some (.ok (out, m)) => some ⟨Function.update s.tensor dst out, m⟩
  | _ => none

def step (s : Tensors ρ) : Call ρ → Option (Tensors ρ)
  | .binary op dst a b got => s.bind dst (op.run f s.memory got (s.tensor a) (s.tensor b))
  | .unary op dst a got => s.bind dst (op.run f s.memory got (s.tensor a))
  | .add_out a b out =>
    (math.add_out f s.memory (s.tensor a) (s.tensor b) (s.tensor out)).map ({ s with memory := · })
  | .add_inplace a b =>
    (math.add_inplace f s.memory (s.tensor a) (s.tensor b)).map ({ s with memory := · })
  | .mul_scalar_inplace a scalar =>
    (math.mul_scalar_inplace f scalar s.memory (s.tensor a)).map ({ s with memory := · })

end Tensors

/-! ## The same with single floats -/

/-- Each name has the address of a block, and each block one float. -/
structure Scalars (ρ : Type*) where
  block : ρ → Nat
  value : Nat → BitVec 32

def Binary.op : Binary → BitVec 32 → BitVec 32 → BitVec 32
  | .add => f.add
  | .sub => f.sub
  | .mul => f.mul
  | .div => f.div

def Unary.op : Unary → BitVec 32 → BitVec 32
  | .add_scalar scalar => fun x => f.add x scalar
  | .negate => MathFunctions.neg
  | .abs => f.abs
  | .sqrt => f.sqrt
  | .rsqrt => f.rsqrt
  | .pow exponent => fun x => f.pow x exponent
  | .clamp min_val max_val => f.clamp min_val max_val

namespace Scalars

def get (s : Scalars ρ) (a : ρ) : BitVec 32 := s.value (s.block a)

/-- The float of a name, and of all names of its block. -/
def put (s : Scalars ρ) (a : ρ) (x : BitVec 32) : Scalars ρ :=
  { s with value := Function.update s.value (s.block a) x }

/-- A new block. -/
def bind (s : Scalars ρ) (dst : ρ) (got : Nat) (x : BitVec 32) : Scalars ρ where
  block := Function.update s.block dst got
  value := Function.update s.value got x

def step (s : Scalars ρ) : Call ρ → Scalars ρ
  | .binary op dst a b got => s.bind dst got (op.op f (s.get a) (s.get b))
  | .unary op dst a got => s.bind dst got (op.op f (s.get a))
  | .add_out a b out => s.put out (f.add (s.get a) (s.get b))
  | .add_inplace a b => s.put a (f.add (s.get a) (s.get b))
  | .mul_scalar_inplace a scalar => s.put a (f.mul (s.get a) scalar)

end Scalars

/-! ## The loops -/

variable {f} {op : BitVec 32 → BitVec 32 → BitVec 32} {m m' : Nat → UInt8} {a b out : Tensor}
  {p q got n i k : Nat}

/-- The floats that a loop has not come to are as they were. -/
theorem HasFloats.read_f32_behind (h : HasFloats a p n) (hp : SameOrApart p got (n * 4))
    (hm : ∀ x, ¬ (got ≤ x ∧ x < got + k * 4) → m' x = m x) (hki : k ≤ i) (hi : i < n) :
    a.read_f32 m' i = a.read_f32 m i := by
  rw [h.read_f32 m' hi, h.read_f32 m hi]
  have hload : BlockMemory.load m' (p + i * 4) 4 = BlockMemory.load m (p + i * 4) 4 := by
    apply BlockMemory.load_congr
    intro j hj
    apply hm
    unfold SameOrApart Apart at hp
    omega
  rw [hload]

/-- After `k` rounds the first `k` floats of the output are made of those that the operands had,
also where an operand is the output. -/
theorem exists_loop_f32_in_place (op : BitVec 32 → BitVec 32 → BitVec 32) (m : Nat → UInt8)
    (ha : HasFloats a p n) (hb : HasFloats b q n) (hout : HasFloats out got n)
    (hp : SameOrApart p got (n * 4)) (hq : SameOrApart q got (n * 4)) (hk : k ≤ n) :
    ∃ m', ref.loop_f32 op a b out k m = some m' ∧
      (∀ x, ¬ (got ≤ x ∧ x < got + k * 4) → m' x = m x) ∧
      ∀ i < k, ∃ x y, a.read_f32 m i = some x ∧ b.read_f32 m i = some y ∧
        out.read_f32 m' i = some (op x y) := by
  induction k with
  | zero => exact ⟨m, rfl, fun _ _ => rfl, fun i hi => absurd hi (by omega)⟩
  | succ k ih =>
    obtain ⟨m', hloop, hrest, hmade⟩ := ih (by omega)
    have hreada := ha.read_f32_behind hp hrest (le_refl k) (show k < n by omega)
    have hreadb := hb.read_f32_behind hq hrest (le_refl k) (show k < n by omega)
    have hx := ha.read_f32 m (show k < n by omega)
    have hy := hb.read_f32 m (show k < n by omega)
    generalize BitVec.ofNat 32 (number (BlockMemory.load m (p + k * 4) 4)) = x at hx
    generalize BitVec.ofNat 32 (number (BlockMemory.load m (q + k * 4) 4)) = y at hy
    refine ⟨BlockMemory.store m' (got + k * 4) (LittleEndian.bytes 4 (op x y).toNat), ?_, ?_, ?_⟩
    · unfold ref.loop_f32 at hloop ⊢
      rw [List.range_succ, List.foldlM_append, hloop]
      simp only [Option.bind_eq_bind, Option.bind_some, List.foldlM_cons, List.foldlM_nil, hreada,
        hreadb, hx, hy, hout.write_f32 m' (show k < n by omega), Option.pure_def]
    · intro z hz
      rw [BlockMemory.store_of_outside, hrest z (by omega)]
      rw [LittleEndian.length_bytes]
      omega
    · intro i hi
      by_cases hlast : i = k
      · subst hlast
        exact ⟨x, y, hx, hy, read_f32_store hout (by omega) _⟩
      · obtain ⟨x', y', hx', hy', hmade⟩ := hmade i (by omega)
        refine ⟨x', y', hx', hy', ?_⟩
        rw [read_f32_store_of_ne hout (by omega) hlast, hmade]

theorem map_f32_eq (g : BitVec 32 → BitVec 32) (a out : Tensor) (n : Nat) (m : Nat → UInt8) :
    map_f32 g a out n m = ref.loop_f32 (fun x _ => g x) a a out n m := by
  unfold map_f32 ref.loop_f32
  congr 1
  funext m i
  cases a.read_f32 m i <;> rfl

/-! ## Tensors of one size -/

/-- The address of the block of a tensor. -/
def addr (t : Tensor) : Nat := t.data.getD 0

/-- The tensor has `n` floats. -/
structure IsVector (t : Tensor) (n : Nat) : Prop where
  dtype : t.dtype_ = .kFloat32
  count : ∃ c, t.shape_.num_elements = some c ∧ toSize c = n
  floats : HasFloats t (addr t) n

/-- The tensors have `n` floats each, `n` is not 0, and their blocks are the same or apart. -/
structure Held (tensor : ρ → Tensor) (n : Nat) : Prop where
  pos : 0 < n
  fits : n * 4 < wordSize
  vector : ∀ r, IsVector (tensor r) n
  apart : ∀ r r', SameOrApart (addr (tensor r)) (addr (tensor r')) (n * 4)

/-- The memory for a new tensor is apart from the blocks of the tensors that are there. -/
def Tensors.Fresh (n : Nat) (s : Tensors ρ) : Call ρ → Prop
  | .binary _ _ _ _ got => ∀ r, Apart (addr (s.tensor r)) (n * 4) got (n * 4)
  | .unary _ _ _ got => ∀ r, Apart (addr (s.tensor r)) (n * 4) got (n * 4)
  | _ => True

instance [Fintype ρ] (n : Nat) (s : Tensors ρ) : ∀ c, Decidable (s.Fresh n c)
  | .binary _ _ _ _ got =>
    inferInstanceAs (Decidable (∀ r, Apart (addr (s.tensor r)) (n * 4) got (n * 4)))
  | .unary _ _ _ got =>
    inferInstanceAs (Decidable (∀ r, Apart (addr (s.tensor r)) (n * 4) got (n * 4)))
  | .add_out _ _ _ => isTrue trivial
  | .add_inplace _ _ => isTrue trivial
  | .mul_scalar_inplace _ _ => isTrue trivial

/-- At the index `i` the tensors have the floats of `t`. -/
structure Tensors.Agrees (s : Tensors ρ) (i : Nat) (t : Scalars ρ) : Prop where
  block : ∀ r, t.block r = addr (s.tensor r)
  read : ∀ r, (s.tensor r).read_f32 s.memory i = some (t.get r)

theorem Held.update {tensor : ρ → Tensor} (h : Held tensor n) {out : Tensor} (hout : IsVector out n)
    (hfresh : ∀ r, Apart (addr (tensor r)) (n * 4) (addr out) (n * 4)) (dst : ρ) :
    Held (Function.update tensor dst out) n := by
  refine ⟨h.pos, h.fits, ?_, ?_⟩
  · rw [Function.forall_update_iff tensor fun _ t => IsVector t n]
    exact ⟨hout, fun r _ => h.vector r⟩
  · intro r r'
    by_cases hr : r = dst <;> by_cases hr' : r' = dst
    · rw [hr, hr']
      exact Or.inl rfl
    · rw [hr, Function.update_self, Function.update_of_ne hr']
      exact Or.inr (hfresh r').symm
    · rw [hr', Function.update_self, Function.update_of_ne hr]
      exact Or.inr (hfresh r)
    · rw [Function.update_of_ne hr, Function.update_of_ne hr']
      exact h.apart r r'

/-! ## What a call does -/

namespace Tensors

variable {s : Tensors ρ} {a b dst out : ρ}

/-- The memory for a new tensor is cleared. -/
theorem allocated_of_outside {out : Tensor} (hout : out.data = some got) (m : Nat → UInt8) {x : Nat}
    (hx : ¬ (got ≤ x ∧ x < got + out.bytes)) : out.allocated m x = m x := by
  unfold Tensor.allocated
  rw [hout]
  exact BlockMemory.fill_of_outside m 0 hx

theorem exists_make_vector {t : Tensor} (ht : IsVector t n) (hpos : 0 < n)
    (hfits : n * 4 < wordSize) (got : Nat) : ∃ out,
      Tensor.make t.shape_ t.dtype_ t.device_ (some got) = some out ∧
      IsVector out n ∧ out.data = some got ∧ out.bytes = n * 4 := by
  obtain ⟨c, hcount, hsize⟩ := ht.count
  have hbytes : Word.mul (toSize c) (kDTypeSize t.dtype_) = n * 4 := by
    rw [ht.dtype, hsize]
    exact Word.mul_of_lt hfits
  unfold Tensor.make
  rw [hcount, Option.map_some]
  simp only [hbytes, if_neg (show n * 4 ≠ 0 by omega)]
  exact ⟨_, rfl, ⟨ht.dtype, ⟨c, hcount, hsize⟩, rfl, le_refl _⟩, rfl, rfl⟩

omit [DecidableEq ρ] in
/-- A new tensor, which the loop makes of two that are there. -/
theorem exists_new (h : Held s.tensor n) (op : BitVec 32 → BitVec 32 → BitVec 32) (a b : ρ)
    (hfresh : ∀ r, Apart (addr (s.tensor r)) (n * 4) got (n * 4)) :
    ∃ out m', elementwise (ref.loop_f32 op) s.memory got (s.tensor a) (s.tensor b) =
        some (.ok (out, m')) ∧ IsVector out n ∧ addr out = got ∧
      (∀ x, ¬ (got ≤ x ∧ x < got + n * 4) → m' x = s.memory x) ∧
      ∀ i < n, ∃ x y, (s.tensor a).read_f32 s.memory i = some x ∧
        (s.tensor b).read_f32 s.memory i = some y ∧ out.read_f32 m' i = some (op x y) := by
  obtain ⟨c, hcount, hsize⟩ := (h.vector a).count
  obtain ⟨out, hmake, hout, hdata, hbytes⟩ := exists_make_vector (h.vector a) h.pos h.fits got
  have ha := (h.vector a).floats
  have hb := (h.vector b).floats
  have hclear : ∀ x, ¬ (got ≤ x ∧ x < got + n * 4) → out.allocated s.memory x = s.memory x := by
    intro x hx
    apply allocated_of_outside hdata
    rw [hbytes]
    exact hx
  obtain ⟨m', hloop, hrest, hmade⟩ := exists_loop_f32_in_place op (out.allocated s.memory) ha hb
    ⟨hdata, hbytes.ge⟩ (Or.inr (hfresh a)) (Or.inr (hfresh b)) (le_refl n)
  refine ⟨out, m', ?_, hout, ?_, ?_, ?_⟩
  · unfold elementwise
    rw [hmake, hcount, Option.bind_some, Option.bind_some, hsize, hloop, Option.map_some]
  · rw [addr, hdata, Option.getD_some]
  · intro x hx
    rw [hrest x hx, hclear x hx]
  · intro i hi
    obtain ⟨x, y, hx, hy, hxy⟩ := hmade i hi
    rw [ha.read_f32_congr (hfresh a) hclear hi] at hx
    rw [hb.read_f32_congr (hfresh b) hclear hi] at hy
    exact ⟨x, y, hx, hy, hxy⟩

theorem exists_bind (h : Held s.tensor n) (op : BitVec 32 → BitVec 32 → BitVec 32) (dst a b : ρ)
    (hfresh : ∀ r, Apart (addr (s.tensor r)) (n * 4) got (n * 4)) :
    ∃ t, s.bind dst (elementwise (ref.loop_f32 op) s.memory got (s.tensor a) (s.tensor b)) =
        some t ∧ Held t.tensor n ∧ ∀ i < n, ∀ u : Scalars ρ, s.Agrees i u →
          t.Agrees i (u.bind dst got (op (u.get a) (u.get b))) := by
  obtain ⟨out, m', hnew, hout, haddr, hrest, hmade⟩ := exists_new h op a b hfresh
  refine ⟨⟨Function.update s.tensor dst out, m'⟩, by rw [hnew]; rfl, ?_, ?_⟩
  · apply h.update hout
    rw [haddr]
    exact hfresh
  · intro i hi u hu
    obtain ⟨x, y, hx, hy, hxy⟩ := hmade i hi
    rw [hu.read a, Option.some.injEq] at hx
    rw [hu.read b, Option.some.injEq] at hy
    constructor
    · intro r
      by_cases hr : r = dst
      · simp only [Scalars.bind, hr, Function.update_self, haddr]
      · simp only [Scalars.bind, Function.update_of_ne hr, hu.block r]
    · intro r
      by_cases hr : r = dst
      · simp only [Scalars.get, Scalars.bind, hr, Function.update_self]
        rw [hxy, ← hx, ← hy]
        rfl
      · have hne : u.block r ≠ got := by
          have hpos := h.pos
          have hapart := hfresh r
          rw [hu.block r]
          unfold Apart at hapart
          omega
        simp only [Scalars.get, Scalars.bind, Function.update_of_ne hr, Function.update_of_ne hne]
        rw [(h.vector r).floats.read_f32_congr (hfresh r) hrest hi]
        exact hu.read r

omit [DecidableEq ρ] in
/-- A loop that writes into a tensor that is there. -/
theorem exists_in_place (h : Held s.tensor n) (op : BitVec 32 → BitVec 32 → BitVec 32)
    (a b out : ρ) :
    ∃ t, ((s.tensor a).shape_.num_elements.bind fun c =>
        ref.loop_f32 op (s.tensor a) (s.tensor b) (s.tensor out) (toSize c) s.memory).map
          ({ s with memory := · }) = some t ∧ Held t.tensor n ∧
        ∀ i < n, ∀ u : Scalars ρ, s.Agrees i u →
          t.Agrees i (u.put out (op (u.get a) (u.get b))) := by
  obtain ⟨c, hcount, hsize⟩ := (h.vector a).count
  have hfloats r := (h.vector r).floats
  obtain ⟨m', hloop, hrest, hmade⟩ := exists_loop_f32_in_place op s.memory (hfloats a) (hfloats b)
    (hfloats out) (h.apart a out) (h.apart b out) (le_refl n)
  refine ⟨{ s with memory := m' }, ?_, h, ?_⟩
  · rw [hcount, Option.bind_some, hsize, hloop, Option.map_some]
  · intro i hi u hu
    obtain ⟨x, y, hx, hy, hxy⟩ := hmade i hi
    rw [hu.read a, Option.some.injEq] at hx
    rw [hu.read b, Option.some.injEq] at hy
    refine ⟨hu.block, ?_⟩
    intro r
    by_cases hr : u.block r = u.block out
    · have hsame : (s.tensor r).read_f32 m' i = (s.tensor out).read_f32 m' i := by
        rw [(hfloats r).read_f32 m' hi, (hfloats out).read_f32 m' hi, ← hu.block r, hr,
          hu.block out]
      simp only [Scalars.get, Scalars.put, hr, Function.update_self]
      rw [hsame, hxy, ← hx, ← hy]
      rfl
    · have hapart : Apart (addr (s.tensor r)) (n * 4) (addr (s.tensor out)) (n * 4) := by
        rcases h.apart r out with hsame | hapart
        · rw [← hu.block r, ← hu.block out] at hsame
          exact absurd hsame hr
        · exact hapart
      simp only [Scalars.get, Scalars.put, Function.update_of_ne hr]
      rw [(hfloats r).read_f32_congr hapart hrest hi]
      exact hu.read r

/-- Each call does at each index what it does with single floats. -/
theorem exists_step (h : Held s.tensor n) (c : Call ρ) (hfresh : s.Fresh n c) :
    ∃ t, s.step f c = some t ∧ Held t.tensor n ∧
      ∀ i < n, ∀ u : Scalars ρ, s.Agrees i u → t.Agrees i (u.step f c) := by
  cases c with
  | binary op dst a b got =>
    have hrun : op.run f = elementwise (ref.loop_f32 (op.op f)) := by
      cases op <;> rfl
    simp only [step, hrun]
    exact exists_bind h (op.op f) dst a b hfresh
  | unary op dst a got =>
    have hrun : op.run f s.memory got (s.tensor a) =
        elementwise (ref.loop_f32 fun x _ => op.op f x) s.memory got (s.tensor a) (s.tensor a) := by
      unfold elementwise
      simp only [← map_f32_eq]
      cases op <;> rfl
    simp only [step, hrun]
    exact exists_bind h (fun x _ => op.op f x) dst a a hfresh
  | add_out a b out => exact exists_in_place h f.add a b out
  | add_inplace a b => exact exists_in_place h f.add a b a
  | mul_scalar_inplace a scalar =>
    simp only [step, mul_scalar_inplace, map_f32_eq]
    exact exists_in_place h (fun x _ => f.mul x scalar) a a a

/-- A program of the functions has a result, in which each tensor has at each index what the same
program makes of the single floats that the tensors had there. -/
theorem programs_are_pointwise {s : Tensors ρ} {calls : List (Call ρ)} (h : Held s.tensor n)
    (hfresh : Meets (step f) (Fresh n) s calls) :
    ∃ t, run (step f) s calls = some t ∧ Held t.tensor n ∧
      ∀ i < n, ∀ u : Scalars ρ, s.Agrees i u → t.Agrees i (calls.foldl (Scalars.step f) u) := by
  induction calls generalizing s with
  | nil => exact ⟨s, rfl, h, fun _ _ _ hu => hu⟩
  | cons c calls ih =>
    obtain ⟨t, ht, hheld, hagrees⟩ := exists_step h c hfresh.1
    obtain ⟨t', ht', hheld', hagrees'⟩ := ih hheld (hfresh.2 t ht)
    exact ⟨t', (run_cons ..).mpr ⟨t, ht, ht'⟩, hheld',
      fun i hi u hu => hagrees' i hi _ (hagrees i hi u hu)⟩

/-- Two tensors of six floats. -/
def grids : Tensors Bool := ⟨fun r => gridOf .kFloat32 (if r then 2000 else 1000), ones⟩

/-- A sum, which is doubled in its place, and the negation of that. -/
def doubledSum : List (Call Bool) :=
  [.binary .add true false true 3000, .add_inplace true true, .unary .negate false true 4000]

theorem held_grids : Held grids.tensor 6 where
  pos := by decide
  fits := by decide
  vector r := ⟨rfl, ⟨6, Formats.grid_count, by decide⟩, rfl, by cases r <;> decide⟩
  apart := by
    unfold SameOrApart
    decide

theorem the_sum_is_doubled : ∃ t, run (step naturals) grids doubledSum = some t ∧
    ∀ i < 6, (t.tensor false).read_f32 t.memory i = some 0x7E000000 := by
  have hfresh : Meets (step naturals) (Fresh 6) grids doubledSum := by decide +kernel
  obtain ⟨t, ht, -, hagrees⟩ := programs_are_pointwise held_grids hfresh
  refine ⟨t, ht, ?_⟩
  intro i hi
  have hfirst : grids.Agrees i ⟨fun r => if r then 2000 else 1000, fun _ => 0x3F800000⟩ := by
    constructor
    · decide
    · intro r
      have hread : ∀ i < 6, ∀ r, (grids.tensor r).read_f32 grids.memory i = some 0x3F800000 := by
        decide +kernel
      exact hread i hi r
  exact (hagrees i hi _ hfirst).read false

end Tensors

end sci.int64.math
