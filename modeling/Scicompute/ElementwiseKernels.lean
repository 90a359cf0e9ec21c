-- The elementwise kernels: each thread goes through the elements with a stride. The first index and
-- the stride are 32-bit products, and only then `size_t` values.
import Scicompute.DeviceKernels
import Scicompute.Strides

namespace sci.cuda.kernels

open Simt Simt.Thread

variable {V : Type}

/-- `for (size_t i = idx; i < n; i += stride) out[i] = value;` -/
def grid_stride (value : Nat → Simt.Thread Loc V V) (out n : Nat) (g : Simt.Launch)
    (blockIdx threadIdx : Nat) : Simt.Thread Loc V Unit :=
  let idx := u32 (u32 (blockIdx * g.blockDim) + threadIdx)
  let stride := u32 (g.blockDim * g.gridDim)
  loop (fun i => decide (i < n)) (Word.add · stride)
    (fun i _ => do
      let v ← value i
      store (Loc.global (out + i)) v)
    Word.wordSize idx ()

def add_kernel [Add V] (out a b : Nat) : Nat → Simt.Launch → Nat → Nat → Simt.Thread Loc V Unit :=
  grid_stride (fun i => do return (← load (.global (a + i))) + (← load (.global (b + i)))) out

def mul_kernel [Mul V] (out a b : Nat) : Nat → Simt.Launch → Nat → Nat → Simt.Thread Loc V Unit :=
  grid_stride (fun i => do return (← load (.global (a + i))) * (← load (.global (b + i)))) out

def sub_kernel [Sub V] (out a b : Nat) : Nat → Simt.Launch → Nat → Nat → Simt.Thread Loc V Unit :=
  grid_stride (fun i => do return (← load (.global (a + i))) - (← load (.global (b + i)))) out

def div_kernel [Div V] (out a b : Nat) : Nat → Simt.Launch → Nat → Nat → Simt.Thread Loc V Unit :=
  grid_stride (fun i => do return (← load (.global (a + i))) / (← load (.global (b + i)))) out

def add_scalar_kernel [Add V] (out a : Nat) (scalar : V) :
    Nat → Simt.Launch → Nat → Nat → Simt.Thread Loc V Unit :=
  grid_stride (fun i => do return (← load (.global (a + i))) + scalar) out

def mul_scalar_kernel [Mul V] (out a : Nat) (scalar : V) :
    Nat → Simt.Launch → Nat → Nat → Simt.Thread Loc V Unit :=
  grid_stride (fun i => do return (← load (.global (a + i))) * scalar) out

def sqrt_kernel (sqrtf : V → V) (out a : Nat) :
    Nat → Simt.Launch → Nat → Nat → Simt.Thread Loc V Unit :=
  grid_stride (fun i => do return sqrtf (← load (.global (a + i)))) out

def rsqrt_kernel (rsqrtf : V → V) (out a : Nat) :
    Nat → Simt.Launch → Nat → Nat → Simt.Thread Loc V Unit :=
  grid_stride (fun i => do return rsqrtf (← load (.global (a + i)))) out

def block_size : Nat := 256

/-- `int grid_size = (n + block_size - 1) / block_size;` -/
def grid_size (n : Nat) : Int := Word.toInt (Word.sub (Word.add n block_size) 1 / block_size)

/-- `kernel<<<grid_size, block_size, 0, stream>>>(.., n)` -/
def launch_elementwise (kernel : Nat → Simt.Launch → Nat → Nat → Simt.Thread Loc V Unit) (n : Nat) :
    KernelLaunch V :=
  ⟨⟨(grid_size n).toNat, block_size⟩, 0, kernel n⟩

def launch_add [Add V] (out a b n : Nat) : KernelLaunch V := launch_elementwise (add_kernel out a b) n

def launch_mul [Mul V] (out a b n : Nat) : KernelLaunch V := launch_elementwise (mul_kernel out a b) n

def launch_sub [Sub V] (out a b n : Nat) : KernelLaunch V := launch_elementwise (sub_kernel out a b) n

def launch_div [Div V] (out a b n : Nat) : KernelLaunch V := launch_elementwise (div_kernel out a b) n

def launch_add_scalar [Add V] (out a : Nat) (scalar : V) (n : Nat) : KernelLaunch V :=
  launch_elementwise (add_scalar_kernel out a scalar) n

def launch_mul_scalar [Mul V] (out a : Nat) (scalar : V) (n : Nat) : KernelLaunch V :=
  launch_elementwise (mul_scalar_kernel out a scalar) n

def launch_sqrt (sqrtf : V → V) (out a n : Nat) : KernelLaunch V :=
  launch_elementwise (sqrt_kernel sqrtf out a) n

def launch_rsqrt (rsqrtf : V → V) (out a n : Nat) : KernelLaunch V :=
  launch_elementwise (rsqrt_kernel rsqrtf out a) n

/-! ## The property -/

/-- In every schedule all threads get to their ends, and then the elements `0 … n - 1` of `out` are
those that have been written. -/
structure WritesAll (c : KernelLaunch V) (out n : Nat) : Prop where
  leaves : ∀ m, ∃ N, ∀ as s, Transition.run (step c.dims) (launch c.threads m) as = some s →
    as.length ≤ N ∧ ∃ bs t, Transition.run (step c.dims) s bs = some t ∧ Finished c.dims t
  indices : ∀ m as s, Transition.run (step c.dims) (launch c.threads m) as = some s →
    Finished c.dims s → ∀ loc,
      (∃ e ∈ s.log, e.isWrite = true ∧ e.loc = loc) ↔ ∃ i < n, loc = .global (out + i)

/-! ## The counters -/

variable {n : Nat}

theorem block_size_pos : 0 < block_size := Nat.succ_pos 255

theorem grid_size_eq (hn : n < 2 ^ 38) : grid_size n = ((n + 255) / 256 : Nat) := by
  have hadd : Word.add n 256 = n + 256 := Word.add_of_lt (by unfold Word.wordSize; omega)
  have hsub : Word.sub (n + 256) 1 = n + 255 :=
    Word.sub_of_le (by omega) (by unfold Word.wordSize; omega)
  rw [grid_size, block_size, hadd, hsub, Word.toInt_of_lt]
  omega

/-- The stride is 0 where the number of the blocks is a multiple of `2 ^ 24`. -/
theorem stride_pos_iff (grid : Nat) : 0 < u32 (block_size * grid) ↔ ¬ 2 ^ 24 ∣ grid := by
  unfold u32 block_size
  omega

theorem rounds_grid_stride {stride first fuel : Nat} (hn : n < 2 ^ 38) (hpos : 0 < stride)
    (hstride : stride < 2 ^ 32) (hfuel : n < fuel) :
    rounds (fun i => decide (i < n)) (Word.add · stride) fuel first =
      some (strided first stride n) := by
  have hnext : ∀ i < n, Word.add i stride = i + stride := fun i hi =>
    Word.add_of_lt (by unfold Word.wordSize; omega)
  have h : rounds (fun i => decide (i < n)) (Word.add · stride) fuel (id first) =
      some ((strided first stride n).map id) := rounds_strided id hpos (fun _ => rfl) hnext hfuel
  rwa [List.map_id] at h

theorem rounds_of_stride_zero {first fuel : Nat} (hfirst : first < n) (hn : n < 2 ^ 38) :
    rounds (fun i => decide (i < n)) (Word.add · 0) fuel first = none := by
  refine rounds_eq_none (J := fun i => i < n) (fun i hi => ⟨decide_eq_true hi, ?_⟩) hfirst fuel
  rwa [Word.add_of_lt (by unfold Word.wordSize; omega), Nat.add_zero]

/-- Each index is in the stride of some thread: of the one with this remainder. -/
theorem exists_thread_of_index {grid i : Nat} (hpos : 0 < u32 (block_size * grid)) (hi : i < n) :
    ∃ b < grid, ∃ t < block_size,
      i ∈ strided (u32 (u32 (b * block_size) + t)) (u32 (block_size * grid)) n := by
  have hrem := Nat.mod_lt i hpos
  have hgrid : i % u32 (block_size * grid) < block_size * grid := hrem.trans_le (Nat.mod_le _ _)
  have hlt : i % u32 (block_size * grid) < 2 ^ 32 := hrem.trans_le (Nat.mod_lt _ (by decide)).le
  have hsplit : ∀ r, r < 2 ^ 32 → u32 (u32 (r / block_size * block_size) + r % block_size) = r := by
    intro r hr
    unfold u32 block_size
    omega
  refine ⟨i % u32 (block_size * grid) / block_size, Nat.div_lt_of_lt_mul hgrid,
    i % u32 (block_size * grid) % block_size, Nat.mod_lt _ block_size_pos, ?_⟩
  rw [hsplit _ hlt, mem_strided_of_lt hrem]
  exact ⟨hi, rfl⟩

/-! ## The family -/

variable {value : Nat → Simt.Thread Loc V V} {R : Nat → List Loc} {out : Nat}

/-- The accesses of a round: what the value reads, and the element. -/
def roundAccesses (R : Nat → List Loc) (out i : Nat) : List (Loc × Bool) :=
  (R i).map (·, false) ++ [(.global (out + i), true)]

theorem mem_roundAccesses {i : Nat} {loc : Loc} :
    (loc, true) ∈ roundAccesses R out i ↔ loc = .global (out + i) := by
  simp [roundAccesses]

/-- The accesses of a thread of the family. -/
def strideAccesses (R : Nat → List Loc) (out n grid b t : Nat) : List (Loc × Bool) :=
  (strided (u32 (u32 (b * block_size) + t)) (u32 (block_size * grid)) n).flatMap (roundAccesses R out)

theorem always_grid_stride (hvalue : ∀ i, Always (value i) ((R i).map (·, false)))
    (hn : n < 2 ^ 38) {grid : Nat} (hpos : 0 < u32 (block_size * grid)) (b t : Nat) :
    Always (grid_stride value out n ⟨grid, block_size⟩ b t) (strideAccesses R out n grid b t) := by
  have hstride : u32 (block_size * grid) < 2 ^ 32 := Nat.mod_lt _ (by decide)
  have hfuel : n < Word.wordSize := by
    unfold Word.wordSize
    omega
  exact always_loop (A := roundAccesses R out) (rounds_grid_stride hn hpos hstride hfuel)
    (fun i _ _ => (hvalue i).bind fun v => always_store _ v) ()

theorem mem_strideAccesses {grid b t : Nat} {loc : Loc} :
    (loc, true) ∈ strideAccesses R out n grid b t ↔
      ∃ i ∈ strided (u32 (u32 (b * block_size) + t)) (u32 (block_size * grid)) n,
        loc = .global (out + i) := by
  unfold strideAccesses
  rw [List.mem_flatMap]
  exact exists_congr fun i => and_congr_right fun _ => mem_roundAccesses

/-- The family with any number of blocks. -/
def strideLaunch (value : Nat → Simt.Thread Loc V V) (out n grid : Nat) : KernelLaunch V :=
  ⟨⟨grid, block_size⟩, 0, grid_stride value out n⟩

variable {grid : Nat}

theorem writesAll_of_pos (hvalue : ∀ i, Always (value i) ((R i).map (·, false))) (hn : n < 2 ^ 38)
    (hpos : 0 < u32 (block_size * grid)) : WritesAll (strideLaunch value out n grid) out n := by
  have hA : ∀ b < grid, ∀ t < block_size, Always ((strideLaunch value out n grid).threads b t)
      (strideAccesses R out n grid b t) := fun b _ t _ => always_grid_stride hvalue hn hpos b t
  refine ⟨leaves_of_always block_size_pos hA, fun m as s hr hfinished loc => ?_⟩
  have hlog := (onTheWay_of_run block_size_pos hA hr).1.log_eq hfinished
  rw [hlog]
  constructor
  · rintro ⟨e, he, hwrite, rfl⟩
    have hloc := (mem_total.mp he).2.2.2
    rw [hwrite] at hloc
    obtain ⟨i, hi, hloc⟩ := mem_strideAccesses.mp hloc
    exact ⟨i, ((mem_strided hpos).mp hi).2.1, hloc⟩
  · rintro ⟨i, hi, rfl⟩
    obtain ⟨b, hb, t, ht, hmem⟩ := exists_thread_of_index hpos hi
    exact ⟨⟨b, t, 0, .global (out + i), true⟩,
      mem_total.mpr ⟨hb, ht, rfl, mem_strideAccesses.mpr ⟨i, hmem, rfl⟩⟩, rfl, rfl⟩

/-- With the stride 0 the first thread stays at its first element. -/
theorem not_writesAll_of_zero [Nonempty V] (hn : 1 ≤ n) (hn' : n < 2 ^ 38) (hgrid : 0 < grid)
    (hzero : u32 (block_size * grid) = 0) : ¬ WritesAll (strideLaunch value out n grid) out n := by
  intro h
  obtain ⟨N, hruns⟩ := h.leaves fun _ => Classical.arbitrary V
  obtain ⟨-, as, s, hr, hfinished⟩ := hruns [] _ rfl
  have hmust : ((strideLaunch value out n grid).threads 0 0).Must fun _ _ => False := by
    change (grid_stride value out n ⟨grid, block_size⟩ 0 0).Must _
    unfold grid_stride
    dsimp only
    rw [hzero]
    refine must_loop (rounds_of_stride_zero ?_ hn') ()
    rw [Nat.zero_mul]
    exact hn
  obtain ⟨e, -, -, -, hfalse⟩ := exists_event_of_run hmust hr (hfinished 0 hgrid 0 block_size_pos)
  exact hfalse

theorem grid_stride_writesAll_iff [Nonempty V]
    (hvalue : ∀ i, Always (value i) ((R i).map (·, false))) (hn : 1 ≤ n) (hn' : n < 2 ^ 38) :
    WritesAll (launch_elementwise (grid_stride value out) n) out n ↔
      ¬ 2 ^ 24 ∣ (n + 255) / 256 := by
  have hgrid : (grid_size n).toNat = (n + 255) / 256 := by
    rw [grid_size_eq hn', Int.toNat_natCast]
  unfold launch_elementwise
  rw [hgrid, ← stride_pos_iff]
  constructor
  · intro h
    by_contra hzero
    exact not_writesAll_of_zero hn hn' (by omega) (Nat.eq_zero_of_not_pos hzero) h
  · exact writesAll_of_pos hvalue hn'

/-! ## The kernels -/

theorem always_load_two (f : V → V → V) (x y : Loc) :
    Always (do return f (← load x) (← load y)) ([x, y].map (·, false)) :=
  Always.read fun _ => Always.read fun _ => Always.done _

theorem always_load_one (f : V → V) (x : Loc) :
    Always (do return f (← load x)) ([x].map (·, false)) :=
  Always.read fun _ => Always.done _

/-- The launches on two arrays, on an array and a number, and on one array. -/
def elementwise_launches [Add V] [Mul V] [Sub V] [Div V] (sqrtf rsqrtf : V → V) (out a b : Nat)
    (scalar : V) (n : Nat) : List (KernelLaunch V) :=
  [launch_add out a b n, launch_mul out a b n, launch_sub out a b n, launch_div out a b n,
    launch_add_scalar out a scalar n, launch_mul_scalar out a scalar n, launch_sqrt sqrtf out a n,
    launch_rsqrt rsqrtf out a n]

/-- A grid-stride kernel writes all elements unless its stride is a multiple of `2 ^ 32`. -/
theorem elementwise_writesAll_iff [Add V] [Mul V] [Sub V] [Div V] (sqrtf rsqrtf : V → V)
    (out a b : Nat) (scalar : V) {n : Nat} (hn : 1 ≤ n) (hn' : n < 2 ^ 38) :
    ∀ c ∈ elementwise_launches sqrtf rsqrtf out a b scalar n,
      WritesAll c out n ↔ ¬ 2 ^ 24 ∣ (n + 255) / 256 := by
  have : Nonempty V := ⟨scalar⟩
  unfold elementwise_launches
  simp only [List.forall_mem_cons]
  refine ⟨?_, ?_, ?_, ?_, ?_, ?_, ?_, ?_, by simp⟩
  · exact grid_stride_writesAll_iff (fun i => always_load_two (· + ·) _ _) hn hn'
  · exact grid_stride_writesAll_iff (fun i => always_load_two (· * ·) _ _) hn hn'
  · exact grid_stride_writesAll_iff (fun i => always_load_two (· - ·) _ _) hn hn'
  · exact grid_stride_writesAll_iff (fun i => always_load_two (· / ·) _ _) hn hn'
  · exact grid_stride_writesAll_iff (fun i => always_load_one (· + scalar) _) hn hn'
  · exact grid_stride_writesAll_iff (fun i => always_load_one (· * scalar) _) hn hn'
  · exact grid_stride_writesAll_iff (fun i => always_load_one sqrtf _) hn hn'
  · exact grid_stride_writesAll_iff (fun i => always_load_one rsqrtf _) hn hn'

theorem a_thousand_elements_are_added : WritesAll (launch_add (V := ℝ) 0 1000 2000 1000) 0 1000 :=
  (elementwise_writesAll_iff Real.sqrt (fun x => 1 / Real.sqrt x) 0 1000 2000 1 (by decide)
    (by decide) _ (List.mem_cons_self ..)).mpr (by decide)

/-- Here the product of the block size and of the number of the blocks is `2 ^ 32`. -/
theorem a_stride_of_zero_never_ends :
    ¬ WritesAll (launch_add (V := ℝ) 0 (2 ^ 32) (2 ^ 33) (2 ^ 32)) 0 (2 ^ 32) := fun h =>
  (grid_stride_writesAll_iff (fun _ => always_load_two (· + ·) _ _) (by decide) (by decide)).mp h
    (by decide)

end sci.cuda.kernels
