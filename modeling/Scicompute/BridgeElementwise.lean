-- The elementwise kernels of the CUDA kernel bridge (src/bridges/cuda_kernel_bridge.cu, 81-157), of
-- which the one for quotients looks at its divisor, and the loops of the CPU (src/math/elementwise.cpp,
-- 15-37). A float is its bits, and the operations on floats are the same on both.
import Scicompute.Elementwise
import Scicompute.RowKernels

namespace sci.bridges

open Simt Simt.Thread sci.cuda Word int64.math

/-- `int idx = blockIdx.x * blockDim.x + threadIdx.x;` -/
def kernel_index (g : Simt.Launch) (blockIdx threadIdx : Nat) : Int :=
  toInt (u32 (u32 (blockIdx * g.blockDim) + threadIdx))

/-- `p[idx]` -/
def entry (p : Nat) (idx : Int) : Option Loc :=
  if 0 ≤ idx then some (.global (p + idx.toNat)) else none

/-- `x != 0.0f`, which is false of the two zeros. -/
def nonzero (x : BitVec 32) : Bool := x != 0 && x != 0x80000000

/-- `if (idx < n) out[idx] = op(a[idx], b[idx]);` -/
def elementwise_kernel (op : BitVec 32 → BitVec 32 → BitVec 32) (out a b : Nat) (n : Int)
    (g : Simt.Launch) (blockIdx threadIdx : Nat) : Simt.Thread Loc (BitVec 32) Unit :=
  let idx := kernel_index g blockIdx threadIdx
  when (idx < n) do
    let x ← at_location (entry a idx) load
    let y ← at_location (entry b idx) load
    at_location (entry out idx) fun loc => store loc (op x y)

def add_kernel (f : Arithmetic) := elementwise_kernel f.add

def mul_kernel (f : Arithmetic) := elementwise_kernel f.mul

def sub_kernel (f : Arithmetic) := elementwise_kernel f.sub

def div_kernel (f : Arithmetic) (out a b : Nat) (n : Int) (g : Simt.Launch)
    (blockIdx threadIdx : Nat) : Simt.Thread Loc (BitVec 32) Unit :=
  let idx := kernel_index g blockIdx threadIdx
  when (idx < n) do
    let divisor ← at_location (entry b idx) load
    when (nonzero divisor = true) do
      let x ← at_location (entry a idx) load
      let y ← at_location (entry b idx) load
      at_location (entry out idx) fun loc => store loc (f.div x y)

/-- `int grid = (n + block - 1) / block;` -/
def grid_of (n : Int) : Option Int :=
  (add32? n 256).bind fun sum => (add32? sum (-1)).map fun sum => sum.tdiv 256

/-- `kernel<<<grid, block, 0, stream>>>(out, a, b, n);` There is no launch where the number of the
blocks is undefined. -/
def launch_blocks (kernel : Simt.Launch → Nat → Nat → Simt.Thread Loc (BitVec 32) Unit) (n : Int) :
    Option (KernelLaunch (BitVec 32)) :=
  (grid_of n).map fun grid => ⟨⟨grid.toNat, 256⟩, 0, kernel⟩

namespace cuda_kernels

def add (f : Arithmetic) (out a b : Nat) (n : Int) := launch_blocks (add_kernel f out a b n) n

def mul (f : Arithmetic) (out a b : Nat) (n : Int) := launch_blocks (mul_kernel f out a b n) n

def sub (f : Arithmetic) (out a b : Nat) (n : Int) := launch_blocks (sub_kernel f out a b n) n

def div (f : Arithmetic) (out a b : Nat) (n : Int) := launch_blocks (div_kernel f out a b n) n

end cuda_kernels

/-! ## The property -/

/-- The loop of the CPU makes the floats `z` of the floats `x` and `y`, wherever they are. -/
def Makes (cpu : int64.Tensor → int64.Tensor → int64.Tensor → Nat → (Nat → UInt8) →
    Option (Nat → UInt8)) (n : Nat) (x y z : Nat → BitVec 32) : Prop :=
  ∀ (a b out : int64.Tensor) (m : Nat → UInt8) (p q r : Nat),
    HasFloats a p n → HasFloats b q n → HasFloats out r n →
    BlockMemory.Apart p (n * 4) r (n * 4) → BlockMemory.Apart q (n * 4) r (n * 4) →
    (∀ i < n, a.read_f32 m i = some (x i) ∧ b.read_f32 m i = some (y i)) →
    ∃ m', cpu a b out n m = some m' ∧ ∀ i < n, out.read_f32 m' i = some (z i)

/-- All schedules end, and have written the elements `0 … n - 1` of `out` and nothing else. These are
then the floats that the loop of the CPU makes. -/
def Agrees (c : Option (KernelLaunch (BitVec 32)))
    (cpu : int64.Tensor → int64.Tensor → int64.Tensor → Nat → (Nat → UInt8) → Option (Nat → UInt8))
    (out a b n : Nat) (m : Loc → BitVec 32) : Prop :=
  ∃ k s, c = some k ∧ Ends k.dims k.threads m s ∧
    (∀ loc, (∃ e ∈ s.log, e.isWrite = true ∧ e.loc = loc) ↔ ∃ i < n, loc = .global (out + i)) ∧
    Makes cpu n (fun i => m (.global (a + i))) (fun i => m (.global (b + i)))
      fun i => s.mem (.global (out + i))

/-! ## Indices -/

variable {f : Arithmetic} {out a b n p i : Nat} {m m1 : Loc → BitVec 32}

theorem kernel_index_eq {g : Simt.Launch} {blockIdx threadIdx : Nat}
    (h : blockIdx * g.blockDim + threadIdx < 2 ^ 31) :
    kernel_index g blockIdx threadIdx = (blockIdx * g.blockDim + threadIdx : Nat) := by
  have hu : u32 (u32 (blockIdx * g.blockDim) + threadIdx) = blockIdx * g.blockDim + threadIdx := by
    unfold u32
    omega
  rw [kernel_index, hu, toInt_of_lt h]

theorem entry_natCast (p i : Nat) : entry p (i : Int) = some (.global (p + i)) :=
  if_pos (Int.natCast_nonneg i)

theorem grid_of_eq (hn : n + 256 < 2 ^ 31) : grid_of n = some (((n + 255) / 256 : Nat) : Int) := by
  have hsum : add32? (n : Int) 256 = some ((n + 256 : Nat) : Int) :=
    add32?_eq_some.mpr ⟨by omega, by omega, by omega⟩
  have hsum' : add32? ((n + 256 : Nat) : Int) (-1) = some ((n + 255 : Nat) : Int) :=
    add32?_eq_some.mpr ⟨by omega, by omega, by omega⟩
  rw [grid_of, hsum, Option.bind_some, hsum', Option.map_some]
  exact congrArg some (Int.ofNat_tdiv (n + 255) 256).symm

theorem lt_of_grid_of {k : Int} (h : grid_of n = some k) : n + 256 < 2 ^ 31 := by
  obtain ⟨sum, hsum, -⟩ := Option.bind_eq_some_iff.mp h
  have hrange := add32?_eq_some.mp hsum
  omega

/-! ## One thread after the other -/

def outCell (out i : Nat) : Loc := .global (out + i)

theorem outCell_injective (out : Nat) : Function.Injective (outCell out) := by
  intro i j h
  have heq := Loc.global.inj h
  omega

/-- The thread with the index `i` stores `f i` where `W` is true of `i`. -/
def Stores (kernel : Nat → Nat → Simt.Thread Loc (BitVec 32) Unit) (grid : Nat)
    (accesses : Nat → List (Loc × Bool)) (out : Nat) (W : Nat → Prop) (f : Nat → BitVec 32)
    (m : Loc → BitVec 32) : Prop :=
  ∀ b < grid, ∀ t < 256, ∀ m1, Simt.Stored (outCell out) (fun j => j < b * 256 + t ∧ W j) f m m1 →
    ∃ m2, Exec (kernel b t) m1 (accesses (b * 256 + t)) (done ()) m2 ∧
      Simt.Stored (outCell out) (fun j => j < b * 256 + t + 1 ∧ W j) f m m2

/-- The accesses of the thread with the index `i`: reads of inputs at this index, and the write. -/
structure Accesses (accesses : Nat → List (Loc × Bool)) (out a b n : Nat) (W : Nat → Prop) :
    Prop where
  read : ∀ i loc, (loc, false) ∈ accesses i → i < n ∧ (loc = .global (a + i) ∨ loc = .global (b + i))
  write : ∀ i loc, (loc, true) ∈ accesses i ↔ W i ∧ loc = outCell out i
  bound : ∀ i, W i → i < n

/-- The thread with the index `i` has the element `i` of the output. -/
def entryHome (out n : Nat) : Loc → Option Nat
  | .global x => if out ≤ x ∧ x < out + n then some ((x - out) / 256) else none
  | .shared b _ => some b

def entryOwner (out n : Nat) : Loc → Option Nat
  | .global x => if out ≤ x ∧ x < out + n then some ((x - out) % 256) else none
  | .shared _ _ => none

theorem owned_of_index {e : Event Loc} (hi : i < n) (hsame : SameOrApart p out n)
    (hblock : e.block = i / 256) (htid : e.tid = i % 256) (hloc : e.loc = .global (p + i))
    (hread : e.isWrite = true → p = out) :
    Owned (entryHome out n) (fun _ => entryOwner out n) e := by
  unfold Owned
  dsimp only
  rw [hloc, hblock, htid]
  by_cases hp : p = out
  · rw [hp, entryHome, entryOwner, if_pos (by omega), if_pos (by omega), Nat.add_sub_cancel_left]
    exact ⟨Or.inl rfl, Or.inl rfl⟩
  · have hapart := hsame.resolve_left hp
    unfold BlockMemory.Apart at hapart
    have hfalse : e.isWrite = false := Bool.eq_false_iff.mpr fun h => hp (hread h)
    rw [entryHome, entryOwner, if_neg (by omega), if_neg (by omega)]
    exact ⟨Or.inr ⟨rfl, hfalse⟩, Or.inr ⟨rfl, hfalse⟩⟩

/-- What a thread reads has not been stored to by others. -/
theorem read_of_stored {W : Nat → Prop} {x : Nat → BitVec 32} (hi : i < n)
    (hsame : SameOrApart p out n)
    (h : Simt.Stored (outCell out) (fun j => j < i ∧ W j) x m m1) :
    m1 (.global (p + i)) = m (.global (p + i)) := by
  refine h.2 _ fun j hj heq => ?_
  have heq' := Loc.global.inj heq
  rcases hsame with rfl | hapart
  · omega
  · unfold BlockMemory.Apart at hapart
    omega

section
variable {accesses : Nat → List (Loc × Bool)} {W : Nat → Prop}

/-- An event of a block is at an element of its own. -/
theorem Accesses.owned (hacc : Accesses accesses out a b n W) (ha : SameOrApart a out n)
    (hb : SameOrApart b out n) {d k : Nat} (hd : d = 256) {e : Event Loc}
    (he : e ∈ ∑ t ∈ Finset.range d, events k t 0 (accesses (k * 256 + t))) :
    Owned (entryHome out n) (fun _ => entryOwner out n) e := by
  obtain ⟨hblock, ht, -, hmem⟩ := mem_sum_events.mp he
  have hdiv : e.block = (k * 256 + e.tid) / 256 := by omega
  have hmod : e.tid = (k * 256 + e.tid) % 256 := by omega
  cases hw : e.isWrite with
  | false =>
    rw [hw] at hmem
    have hread : ∀ {p}, e.isWrite = true → p = out := fun h => by
      rw [hw] at h
      cases h
    obtain ⟨hi, hloc | hloc⟩ := hacc.read _ _ hmem
    · exact owned_of_index hi ha hdiv hmod hloc hread
    · exact owned_of_index hi hb hdiv hmod hloc hread
  | true =>
    rw [hw] at hmem
    obtain ⟨hW, hloc⟩ := (hacc.write _ _).mp hmem
    exact owned_of_index (hacc.bound _ hW) (Or.inl rfl) hdiv hmod hloc fun _ => rfl

/-- Where a block writes. -/
theorem Accesses.exists_write_iff (hacc : Accesses accesses out a b n W) {d k : Nat} (hd : d = 256)
    {loc : Loc} : (∃ e ∈ ∑ t ∈ Finset.range d, events k t 0 (accesses (k * 256 + t)),
      e.isWrite = true ∧ e.loc = loc) ↔
      ∃ i, k * 256 ≤ i ∧ i < (k + 1) * 256 ∧ W i ∧ loc = outCell out i := by
  constructor
  · rintro ⟨e, he, hw, rfl⟩
    obtain ⟨-, ht, -, hmem⟩ := mem_sum_events.mp he
    rw [hw] at hmem
    exact ⟨k * 256 + e.tid, by omega, by omega, (hacc.write _ _).mp hmem⟩
  · rintro ⟨i, hlow, hhigh, hW, rfl⟩
    have hindex : k * 256 + (i - k * 256) = i := by omega
    refine ⟨⟨k, i - k * 256, 0, outCell out i, true⟩, mem_sum_events.mpr
      ⟨rfl, (by omega : i - k * 256 < d), rfl, ?_⟩, rfl, rfl⟩
    dsimp only
    rw [hindex]
    exact (hacc.write _ _).mpr ⟨hW, rfl⟩

/-- The threads of a block, one after the other. -/
theorem Stores.exists_blockRun {kernel : Nat → Nat → Simt.Thread Loc (BitVec 32) Unit}
    {g : Simt.Launch} {x : Nat → BitVec 32} (h : Stores kernel g.gridDim accesses out W x m)
    (hdim : g.blockDim = 256) {k : Nat} (hk : k < g.gridDim)
    (hm1 : Simt.Stored (outCell out) (fun j => j < k * 256 ∧ W j) x m m1) :
    ∃ m', BlockRun g k (kernel k) m1 0
        (∑ t ∈ Finset.range g.blockDim, events k t 0 (accesses (k * 256 + t))) (fun _ => done ()) m' 0 ∧
      Simt.Stored (outCell out) (fun j => j < (k + 1) * 256 ∧ W j) x m m' := by
  have hstart : Simt.Stored (outCell out) (fun j => j < k * 256 + 0 ∧ W j) x m m1 :=
    hm1.congr fun j => by rw [Nat.add_zero]
  have hstep : ∀ t < g.blockDim, ∀ m2,
      Simt.Stored (outCell out) (fun j => j < k * 256 + t ∧ W j) x m m2 →
      ∃ m3, Exec (kernel k t) m2 (accesses (k * 256 + t)) (done ()) m3 ∧
        Simt.Stored (outCell out) (fun j => j < k * 256 + (t + 1) ∧ W j) x m m3 := by
    intro t ht m2 hm2
    obtain ⟨m3, hexec, hm3⟩ := h k hk t (ht.trans_eq hdim) m2 hm2
    exact ⟨m3, hexec, hm3.congr fun j => by rw [Nat.add_assoc]⟩
  obtain ⟨m', hrun, hm'⟩ := Simt.exists_blockRun
    (I := fun t m2 => Simt.Stored (outCell out) (fun j => j < k * 256 + t ∧ W j) x m m2) hk 0
    hstart hstep
  rw [hdim] at hm'
  exact ⟨m', hrun, hm'.congr fun j => by rw [Nat.succ_mul]⟩

theorem exists_ends_of_stores {kernel : Nat → Nat → Simt.Thread Loc (BitVec 32) Unit}
    {g : Simt.Launch} {x : Nat → BitVec 32}
    (hdim : g.blockDim = 256) (hgrid : n ≤ g.gridDim * 256) (ha : SameOrApart a out n)
    (hb : SameOrApart b out n)
    (hacc : Accesses accesses out a b n W) (h : Stores kernel g.gridDim accesses out W x m) :
    ∃ s, Ends g kernel m s ∧ Simt.Stored (outCell out) W x m s.mem ∧
      ∀ loc, (∃ e ∈ s.log, e.isWrite = true ∧ e.loc = loc) ↔ ∃ i, W i ∧ loc = outCell out i := by
  let I : Nat → (Loc → BitVec 32) → Multiset (Event Loc) → Prop := fun b m1 F =>
    Simt.Stored (outCell out) (fun j => j < b * 256 ∧ W j) x m m1 ∧
    (∀ e ∈ F, Owned (entryHome out n) (fun _ => entryOwner out n) e) ∧
    ∀ loc, (∃ e ∈ F, e.isWrite = true ∧ e.loc = loc) ↔ ∃ i < b * 256, W i ∧ loc = outCell out i
  have h0 : I 0 m 0 := by
    refine ⟨stored_nothing fun j => by omega, fun e he => absurd he (Multiset.notMem_zero e), ?_⟩
    refine fun loc => iff_of_false ?_ ?_
    · rintro ⟨e, he, -⟩
      exact Multiset.notMem_zero e he
    · rintro ⟨i, hi, -⟩
      omega
  have hblock : ∀ b < g.gridDim, ∀ m1 F, I b m1 F → ∃ F' m' n',
      BlockRun g b (kernel b) m1 0 F' (fun _ => done ()) m' n' ∧
        I (b + 1) m' (F + F') := by
    rintro k hk m1 F ⟨hm1, howned, hwrites⟩
    obtain ⟨m', hrun, hm'⟩ := h.exists_blockRun hdim hk hm1
    refine ⟨_, m', 0, hrun, hm', fun e he => ?_, fun loc => ?_⟩
    · rcases Multiset.mem_add.mp he with he | he
      · exact howned e he
      · exact hacc.owned ha hb hdim he
    · simp only [Multiset.mem_add, or_and_right, exists_or]
      rw [hwrites, hacc.exists_write_iff hdim]
      constructor
      · rintro (⟨i, hi, hW⟩ | ⟨i, -, hi, hW⟩)
        · exact ⟨i, hi.trans_le (Nat.mul_le_mul_right 256 (Nat.le_succ k)), hW⟩
        · exact ⟨i, hi, hW⟩
      · rintro ⟨i, hi, hW⟩
        rcases lt_or_ge i (k * 256) with hlt | hge
        · exact Or.inl ⟨i, hlt, hW⟩
        · exact Or.inr ⟨i, hge, hi, hW⟩
  obtain ⟨s, hs, hmem, -, hwrites⟩ := exists_ends (by omega) h0 hblock
    fun m1 F hI => noRace_of_owned hI.2.1
  have hall : ∀ j, (j < g.gridDim * 256 ∧ W j) ↔ W j :=
    fun j => and_iff_right_of_imp fun hW => (hacc.bound j hW).trans_le hgrid
  refine ⟨s, hs, hmem.congr hall, fun loc => (hwrites loc).trans (exists_congr fun i => ?_)⟩
  rw [← and_assoc, hall]

end

/-! ## The kernels -/

theorem stored_next {W : Nat → Prop} {x : Nat → BitVec 32} (hW : W i)
    (h : Simt.Stored (outCell out) (fun j => j < i ∧ W j) x m m1) :
    Simt.Stored (outCell out) (fun j => j < i + 1 ∧ W j) x m
      (Function.update m1 (outCell out i) (x i)) := by
  refine (h.update (outCell_injective out) i).congr fun j => ?_
  constructor
  · rintro (⟨hj, hWj⟩ | rfl)
    · exact ⟨by omega, hWj⟩
    · exact ⟨by omega, hW⟩
  · rintro ⟨hj, hWj⟩
    by_cases hji : j = i
    · exact Or.inr hji
    · exact Or.inl ⟨by omega, hWj⟩

theorem stored_skip {W : Nat → Prop} {x : Nat → BitVec 32} (hW : ¬ W i)
    (h : Simt.Stored (outCell out) (fun j => j < i ∧ W j) x m m1) :
    Simt.Stored (outCell out) (fun j => j < i + 1 ∧ W j) x m m1 := by
  refine h.congr fun j => ?_
  constructor
  · rintro ⟨hj, hWj⟩
    exact ⟨by omega, hWj⟩
  · rintro ⟨hj, hWj⟩
    by_cases hji : j = i
    · exact absurd (hji ▸ hWj) hW
    · exact ⟨by omega, hWj⟩

def operated (op : BitVec 32 → BitVec 32 → BitVec 32) (a b : Nat) (m : Loc → BitVec 32) (i : Nat) :
    BitVec 32 :=
  op (m (.global (a + i))) (m (.global (b + i)))

def readsAndWrite (out a b i : Nat) : List (Loc × Bool) :=
  [(.global (a + i), false), (.global (b + i), false), (outCell out i, true)]

theorem exec_operation (op : BitVec 32 → BitVec 32 → BitVec 32) (out a b i : Nat)
    (m1 : Loc → BitVec 32) :
    Exec (do
        let x ← at_location (entry a i) load
        let y ← at_location (entry b i) load
        at_location (entry out i) fun loc => store loc (op x y)) m1 (readsAndWrite out a b i) (done ())
      (Function.update m1 (outCell out i) (operated op a b m1 i)) := by
  rw [entry_natCast, entry_natCast, entry_natCast]
  exact Exec.read (Exec.read (Exec.write (Exec.refl _ _)))

theorem operated_of_stored (op : BitVec 32 → BitVec 32 → BitVec 32) {W : Nat → Prop}
    {x : Nat → BitVec 32} (hi : i < n) (ha : SameOrApart a out n) (hb : SameOrApart b out n)
    (h : Simt.Stored (outCell out) (fun j => j < i ∧ W j) x m m1) :
    operated op a b m1 i = operated op a b m i := by
  unfold operated
  rw [read_of_stored hi ha h, read_of_stored hi hb h]

/-- The index of a thread of the grid. -/
theorem kernel_index_of_grid {g : Simt.Launch} {k t : Nat} (hn : n + 256 < 2 ^ 31)
    (hdim : g.blockDim = 256) (hgrid : g.gridDim = (n + 255) / 256) (hk : k < g.gridDim)
    (ht : t < 256) : kernel_index g k t = (k * 256 + t : Nat) := by
  rw [kernel_index_eq (by rw [hdim]; omega), hdim]

def elementAccesses (out a b n i : Nat) : List (Loc × Bool) :=
  if i < n then readsAndWrite out a b i else []

def divAccesses (out a b n : Nat) (m : Loc → BitVec 32) (i : Nat) : List (Loc × Bool) :=
  if i < n then
    (.global (b + i), false) ::
      if nonzero (m (.global (b + i))) = true then readsAndWrite out a b i else []
  else []

theorem mem_readsAndWrite {loc : Loc} {isWrite : Bool} :
    (loc, isWrite) ∈ readsAndWrite out a b i ↔
      isWrite = false ∧ (loc = .global (a + i) ∨ loc = .global (b + i)) ∨
        isWrite = true ∧ loc = outCell out i := by
  simp only [readsAndWrite, List.mem_cons, Prod.mk.injEq, List.not_mem_nil, or_false]
  tauto

theorem accesses_element : Accesses (elementAccesses out a b n) out a b n (· < n) where
  read i loc h := by
    unfold elementAccesses at h
    split_ifs at h with hi
    · rcases mem_readsAndWrite.mp h with ⟨-, hloc⟩ | ⟨hw, -⟩
      · exact ⟨hi, hloc⟩
      · cases hw
    · cases h
  write i loc := by
    unfold elementAccesses
    split_ifs with hi
    · rw [mem_readsAndWrite]
      simp [hi]
    · simp [hi]
  bound i hi := hi

theorem accesses_div (m : Loc → BitVec 32) : Accesses (divAccesses out a b n m) out a b n
    fun i => i < n ∧ nonzero (m (.global (b + i))) = true where
  read i loc h := by
    unfold divAccesses at h
    split_ifs at h with hi hdivisor
    · rcases List.mem_cons.mp h with h | h
      · exact ⟨hi, Or.inr (Prod.mk.inj h).1⟩
      · rcases mem_readsAndWrite.mp h with ⟨-, hloc⟩ | ⟨hw, -⟩
        · exact ⟨hi, hloc⟩
        · cases hw
    · exact ⟨hi, Or.inr (Prod.mk.inj (List.mem_singleton.mp h)).1⟩
    · cases h
  write i loc := by
    unfold divAccesses
    split_ifs with hi hdivisor
    · rw [List.mem_cons, mem_readsAndWrite]
      simp [hi, hdivisor]
    · simp [hi, hdivisor]
    · simp [hi]
  bound i hi := hi.1

theorem stores_element (op : BitVec 32 → BitVec 32 → BitVec 32) {g : Simt.Launch}
    (hn : n + 256 < 2 ^ 31) (hdim : g.blockDim = 256) (hgrid : g.gridDim = (n + 255) / 256)
    (ha : SameOrApart a out n) (hb : SameOrApart b out n) (m : Loc → BitVec 32) :
    Stores (elementwise_kernel op out a b n g) g.gridDim (elementAccesses out a b n) out (· < n)
      (operated op a b m) m := by
  intro k hk t ht m1 hm1
  unfold elementwise_kernel elementAccesses when
  dsimp only
  rw [kernel_index_of_grid hn hdim hgrid hk ht]
  by_cases hi : k * 256 + t < n
  · rw [if_pos hi, if_pos (by exact_mod_cast hi)]
    have hvalue := operated_of_stored op hi ha hb hm1
    exact ⟨_, exec_operation op out a b _ m1, hvalue ▸ stored_next hi hm1⟩
  · rw [if_neg hi, if_neg (by exact_mod_cast hi)]
    exact ⟨m1, Exec.refl _ _, stored_skip hi hm1⟩

theorem stores_div (f : Arithmetic) {g : Simt.Launch} (hn : n + 256 < 2 ^ 31)
    (hdim : g.blockDim = 256) (hgrid : g.gridDim = (n + 255) / 256) (ha : SameOrApart a out n)
    (hb : SameOrApart b out n) (m : Loc → BitVec 32) :
    Stores (div_kernel f out a b n g) g.gridDim (divAccesses out a b n m) out
      (fun i => i < n ∧ nonzero (m (.global (b + i))) = true) (operated f.div a b m) m := by
  intro k hk t ht m1 hm1
  unfold div_kernel divAccesses when
  dsimp only
  rw [kernel_index_of_grid hn hdim hgrid hk ht]
  by_cases hi : k * 256 + t < n
  · rw [if_pos hi, if_pos (by exact_mod_cast hi), entry_natCast b]
    have hdivisor := read_of_stored hi hb hm1
    by_cases hzero : nonzero (m (.global (b + (k * 256 + t)))) = true
    · have hvalue := operated_of_stored f.div hi ha hb hm1
      have hnext := stored_next (W := fun i => i < n ∧ nonzero (m (.global (b + i))) = true)
        ⟨hi, hzero⟩ hm1
      rw [if_pos hzero]
      refine ⟨_, (exec_load (.global (b + (k * 256 + t))) m1).seq ?_, hvalue ▸ hnext⟩
      rw [hdivisor, if_pos hzero, ← entry_natCast b]
      exact exec_operation f.div out a b _ m1
    · rw [if_neg hzero]
      refine ⟨m1, (exec_load (.global (b + (k * 256 + t))) m1).seq ?_,
        stored_skip (fun hW => hzero hW.2) hm1⟩
      rw [hdivisor, if_neg hzero]
      exact Exec.refl _ _
  · rw [if_neg hi, if_neg (by exact_mod_cast hi)]
    exact ⟨m1, Exec.refl _ _, stored_skip (fun hW => hi hW.1) hm1⟩

/-! ## The launches -/

theorem makes_operated (op : BitVec 32 → BitVec 32 → BitVec 32) {z : Nat → BitVec 32}
    (hz : ∀ i < n, z i = operated op a b m i) :
    Makes (ref.loop_f32 op) n (fun i => m (.global (a + i))) (fun i => m (.global (b + i))) z := by
  intro ta tb tout host p q r hta htb htout hpr hqr hfloats
  obtain ⟨host', hloop, -, hmade⟩ := exists_loop_f32 op host hta htb htout hpr hqr le_rfl
  refine ⟨host', hloop, fun i hi => ?_⟩
  obtain ⟨x, y, hx, hy, hout⟩ := hmade i hi
  obtain ⟨hx', hy'⟩ := hfloats i hi
  rw [hout, hz i hi, operated, Option.some.inj (hx.symm.trans hx'), Option.some.inj (hy.symm.trans hy')]

theorem agrees_launch_iff {op : BitVec 32 → BitVec 32 → BitVec 32}
    {kernel : Simt.Launch → Nat → Nat → Simt.Thread Loc (BitVec 32) Unit}
    {accesses : Nat → List (Loc × Bool)} {W : Nat → Prop} (ha : SameOrApart a out n)
    (hb : SameOrApart b out n) (hacc : Accesses accesses out a b n W)
    (h : ∀ g : Simt.Launch, n + 256 < 2 ^ 31 → g.blockDim = 256 → g.gridDim = (n + 255) / 256 →
      Stores (kernel g) g.gridDim accesses out W (operated op a b m) m) :
    Agrees (launch_blocks kernel n) (ref.loop_f32 op) out a b n m ↔
      n + 256 < 2 ^ 31 ∧ ∀ i < n, W i := by
  have hends : n + 256 < 2 ^ 31 → ∃ k s, launch_blocks kernel n = some k ∧ 0 < k.dims.blockDim ∧
      Ends k.dims k.threads m s ∧ Simt.Stored (outCell out) W (operated op a b m) m s.mem ∧
      ∀ loc, (∃ e ∈ s.log, e.isWrite = true ∧ e.loc = loc) ↔ ∃ i, W i ∧ loc = outCell out i := by
    intro hn
    obtain ⟨s, hs⟩ := exists_ends_of_stores (g := ⟨(n + 255) / 256, 256⟩) rfl
      (show n ≤ (n + 255) / 256 * 256 by omega) ha hb hacc (h ⟨(n + 255) / 256, 256⟩ hn rfl rfl)
    refine ⟨⟨⟨(n + 255) / 256, 256⟩, 0, kernel⟩, s, ?_, Nat.succ_pos 255, hs⟩
    rw [launch_blocks, grid_of_eq hn, Option.map_some, Int.toNat_natCast]
  constructor
  · rintro ⟨k, s, hk, hs, hwrites, -⟩
    obtain ⟨grid, hgrid, -⟩ := Option.map_eq_some_iff.mp hk
    have hn := lt_of_grid_of hgrid
    obtain ⟨k', s', hk', hdim, hs', -, hwrites'⟩ := hends hn
    obtain rfl : k = k' := Option.some.inj (hk.symm.trans hk')
    refine ⟨hn, fun i hi => ?_⟩
    obtain ⟨j, hj, heq⟩ := (hwrites' (outCell out i)).mp
      (hs.unique hdim hs' ▸ (hwrites _).mpr ⟨i, hi, rfl⟩)
    exact outCell_injective out heq ▸ hj
  · rintro ⟨hn, hW⟩
    obtain ⟨k, s, hk, -, hs, hmem, hwrites⟩ := hends hn
    refine ⟨k, s, hk, hs, fun loc => (hwrites loc).trans ?_, makes_operated op fun i hi =>
      hmem.1 i (hW i hi)⟩
    constructor
    · rintro ⟨i, hi, hloc⟩
      exact ⟨i, hacc.bound i hi, hloc⟩
    · rintro ⟨i, hi, hloc⟩
      exact ⟨i, hW i hi, hloc⟩

/-- Sums, products and differences are those of the CPU. Quotients are where no divisor is zero: the
elements of the others are not written. -/
theorem elementwise_agrees_iff (f : Arithmetic) (ha : SameOrApart a out n)
    (hb : SameOrApart b out n) (m : Loc → BitVec 32) :
    (Agrees (cuda_kernels.add f out a b n) (ref.add_f32 f) out a b n m ↔ n + 256 < 2 ^ 31) ∧
    (Agrees (cuda_kernels.mul f out a b n) (ref.mul_f32 f) out a b n m ↔ n + 256 < 2 ^ 31) ∧
    (Agrees (cuda_kernels.sub f out a b n) (ref.sub_f32 f) out a b n m ↔ n + 256 < 2 ^ 31) ∧
    (Agrees (cuda_kernels.div f out a b n) (ref.div_f32 f) out a b n m ↔
      n + 256 < 2 ^ 31 ∧ ∀ i < n, nonzero (m (.global (b + i))) = true) := by
  have hop : ∀ op : BitVec 32 → BitVec 32 → BitVec 32,
      Agrees (launch_blocks (elementwise_kernel op out a b n) n) (ref.loop_f32 op) out a b n m ↔
        n + 256 < 2 ^ 31 := by
    intro op
    rw [agrees_launch_iff ha hb accesses_element fun g hn hdim hgrid =>
      stores_element op hn hdim hgrid ha hb m]
    exact and_iff_left fun i hi => hi
  refine ⟨hop f.add, hop f.mul, hop f.sub, ?_⟩
  have hdiv : Agrees (launch_blocks (div_kernel f out a b n) n) (ref.loop_f32 f.div) out a b n m ↔
      n + 256 < 2 ^ 31 ∧ ∀ i < n, i < n ∧ nonzero (m (.global (b + i))) = true :=
    agrees_launch_iff ha hb (accesses_div m) fun g hn hdim hgrid =>
      stores_div f hn hdim hgrid ha hb m
  refine hdiv.trans (and_congr_right fun _ => forall₂_congr fun i hi => and_iff_right hi)

/-- Three quotients of ones. -/
theorem three_quotients_agree :
    Agrees (cuda_kernels.div ofOnes 0 3 6 (3 : Nat)) (ref.div_f32 ofOnes) 0 3 6 3
      fun _ => 0x3F800000 :=
  (elementwise_agrees_iff ofOnes (Or.inr (by decide)) (Or.inr (by decide)) _).2.2.2.mpr
    ⟨by decide, by decide⟩

/-- A one at the address 1, and zeros. -/
def oneAndZeros : Loc → BitVec 32 := fun loc => if loc = .global 1 then 0x3F800000 else 0

/-- The quotient of the one and of a zero is not written. -/
theorem a_zero_divisor_is_skipped :
    ¬ Agrees (cuda_kernels.div { ofOnes with div := fun _ _ => 0x7F800000 } 0 1 2 (1 : Nat))
      (ref.div_f32 { ofOnes with div := fun _ _ => 0x7F800000 }) 0 1 2 1 oneAndZeros := by
  intro h
  have ha : SameOrApart 1 0 1 := Or.inr (by decide)
  have hb : SameOrApart 2 0 1 := Or.inr (by decide)
  have hstores := ((agrees_launch_iff ha hb (accesses_div oneAndZeros) fun g hn hdim hgrid =>
    stores_div _ hn hdim hgrid ha hb oneAndZeros).mp h).2 0 Nat.one_pos
  exact absurd hstores.2 (by decide)

end sci.bridges
