-- The reductions of an array: each thread goes through pairs of elements with a stride of the whole
-- grid, and each block leaves one partial result, by a tree in the shared memory or by the exchanges
-- of its warps.
import Scicompute.BlockMemory
import Scicompute.BlockReductions
import Scicompute.DeviceKernels
import Scicompute.Strides

namespace sci.cuda.kernels

open Simt Simt.Thread BlockMemory

variable {V : Type}

/-- The body of the loop of both kernels, where `op` is `+` or `max`. -/
def pair_round (op : V → V → V) (inp n : Nat) (g : Simt.Launch) (i : Nat) (acc : V) :
    Simt.Thread Loc V V := do
  let x ← load (.global (inp + i))
  if Word.add i g.blockDim < n then do
    let y ← load (.global (inp + Word.add i g.blockDim))
    return op (op acc x) y
  else return op acc x

/-- The loop, which begins with the value `init`. -/
def reduce_pairs (op : V → V → V) (init : V) (inp n : Nat) (g : Simt.Launch)
    (blockIdx threadIdx : Nat) : Simt.Thread Loc V V :=
  let idx := u32 (u32 (u32 (blockIdx * g.blockDim) * 2) + threadIdx)
  let stride := u32 (u32 (g.blockDim * 2) * g.gridDim)
  loop (fun i => decide (i < n)) (Word.add · stride) (pair_round op inp n g) Word.wordSize idx init

def block_reduce_sum [Add V] (g : Simt.Launch) (blockIdx tid : Nat) (val : V) :
    Simt.Thread Loc V V := do
  store (.shared blockIdx tid) val
  barrier
  tree_reduce (· + ·) (fun _ => true) (Loc.shared blockIdx) (g.blockDim / 2) tid
  load (.shared blockIdx 0)

def sum_kernel [Zero V] [Add V] (inp out n : Nat) (g : Simt.Launch) (blockIdx threadIdx : Nat) :
    Simt.Thread Loc V Unit := do
  let sum ← reduce_pairs (· + ·) 0 inp n g blockIdx threadIdx
  barrier
  let sum ← block_reduce_sum g blockIdx threadIdx sum
  when (threadIdx = 0) do
    store (.global (out + blockIdx)) sum

/-- `-HUGE_VALF` is the least value. -/
def max_kernel [Max V] [Bot V] (inp out n : Nat) (g : Simt.Launch) (blockIdx threadIdx : Nat) :
    Simt.Thread Loc V Unit := do
  let max_val ← reduce_pairs max ⊥ inp n g blockIdx threadIdx
  let max_val ← warp_reduce max max_val
  lane_store (Loc.shared blockIdx) threadIdx max_val
  barrier
  when (threadIdx = 0) do
    let first ← load (Loc.shared blockIdx 0)
    let max_val ← serial_reduce max (Loc.shared blockIdx) 1 (g.blockDim / 32) first
    store (.global (out + blockIdx)) max_val

/-- `min((n + 511) / 512, 256)` -/
def reduction_grid (n : Nat) : Nat := min (Word.add n 511 / 512) 256

def launch_sum [Zero V] [Add V] (inp out n : Nat) : KernelLaunch V :=
  ⟨⟨reduction_grid n, 256⟩, 256 * 4, sum_kernel inp out n⟩

def launch_max [Max V] [Bot V] (inp out n : Nat) : KernelLaunch V :=
  ⟨⟨reduction_grid n, 256⟩, 256 / 32 * 4, max_kernel inp out n⟩

/-! ## The property -/

/-- Each element of the input is read once, and nothing else of the global memory is read. -/
def ReadsOnce (inp n : Nat) (s : State Loc V) : Prop :=
  globalReads s.log = (Multiset.range n).map fun i => .global (inp + i)

/-! ## The indices -/

/-- The indices of a round: the second one is guarded. -/
def pairIndices (n i : Nat) : List Nat := if i + 256 < n then [i, i + 256] else [i]

/-- The indices that the thread `t` of the block `b` reads. -/
def threadIndices (n grid b t : Nat) : List Nat :=
  (strided (b * 512 + t) (512 * grid) n).flatMap (pairIndices n)

/-- The first and the second indices of the rounds. -/
theorem coe_flatMap_pairIndices (n : Nat) (l : List Nat) (hl : ∀ i ∈ l, i < n) :
    ((l.flatMap (pairIndices n) : List Nat) : Multiset Nat) =
      l + ((l.map (· + 256)).filter (· < n) : List Nat) := by
  induction l with
  | nil => rfl
  | cons i l ih =>
    rw [List.forall_mem_cons] at hl
    rw [List.flatMap_cons, ← Multiset.coe_add, ih hl.2, List.map_cons, pairIndices]
    by_cases hin : i + 256 < n
    · rw [if_pos hin, List.filter_cons_of_pos (p := fun x => decide (x < n)) (decide_eq_true hin)]
      simp only [← Multiset.cons_coe, Multiset.coe_nil]
      rw [Multiset.cons_add, Multiset.cons_add, Multiset.cons_add, Multiset.add_cons, zero_add]
    · rw [if_neg hin, List.filter_cons_of_neg (p := fun x => decide (x < n)) (by simpa using hin)]
      simp only [← Multiset.cons_coe, Multiset.coe_nil]
      rw [Multiset.cons_add, Multiset.cons_add, zero_add]

/-- The second indices of a thread are those of another counter. -/
theorem filter_strided_perm (n first : Nat) {step : Nat} (hstep : 0 < step) :
    (((strided first step n).map (· + 256)).filter (· < n)).Perm (strided (first + 256) step n) := by
  have hinj : Function.Injective (· + 256 : Nat → Nat) := fun a b h => Nat.add_right_cancel h
  refine (List.perm_ext_iff_of_nodup (((nodup_strided hstep).map hinj).filter _)
    (nodup_strided hstep)).mpr fun x => ?_
  rw [List.mem_filter, decide_eq_true_iff, List.mem_map, mem_strided hstep]
  constructor
  · rintro ⟨⟨i, hi, rfl⟩, hlt⟩
    obtain ⟨hle, -, hdvd⟩ := (mem_strided hstep).mp hi
    refine ⟨by omega, hlt, ?_⟩
    rwa [Nat.add_sub_add_right]
  · rintro ⟨hle, hlt, hdvd⟩
    refine ⟨⟨x - 256, (mem_strided hstep).mpr ⟨by omega, by omega, ?_⟩, by omega⟩, hlt⟩
    rwa [Nat.sub_sub, Nat.add_comm 256]

theorem coe_threadIndices {grid : Nat} (hgrid : 0 < grid) (n b t : Nat) :
    (threadIndices n grid b t : Multiset Nat) =
      strided (b * 512 + t) (512 * grid) n + strided (b * 512 + (256 + t)) (512 * grid) n := by
  have hstep : 0 < 512 * grid := by omega
  have hperm := filter_strided_perm n (b * 512 + t) hstep
  have hcomm : b * 512 + t + 256 = b * 512 + (256 + t) := by omega
  rw [threadIndices, coe_flatMap_pairIndices n _ fun i hi => ((mem_strided hstep).mp hi).2.1,
    Multiset.coe_eq_coe.mpr hperm, hcomm]

/-- All threads together read each index once. -/
theorem sum_threadIndices {grid : Nat} (hgrid : 0 < grid) (n : Nat) :
    ∑ b ∈ Finset.range grid, ∑ t ∈ Finset.range 256, (threadIndices n grid b t : Multiset Nat) =
      Multiset.range n := by
  have hblock : ∀ b, ∑ t ∈ Finset.range 256, (threadIndices n grid b t : Multiset Nat) =
      ∑ u ∈ Finset.range 512, (strided (b * 512 + u) (512 * grid) n : Multiset Nat) := by
    intro b
    rw [Finset.sum_congr rfl fun t _ => coe_threadIndices hgrid n b t, Finset.sum_add_distrib]
    exact (Finset.sum_range_add _ 256 256).symm
  rw [Finset.sum_congr rfl fun b _ => hblock b,
    sum_range_blocks (fun u => (strided u (512 * grid) n : Multiset Nat)) 512 grid,
    sum_strided (by omega)]

/-! ## The loop -/

section Loop

variable {op : V → V → V} {init : V} {inp n : Nat} {g : Simt.Launch} {b t : Nat}

/-- The round of an index takes its pair. -/
theorem exec_pair (hdim : g.blockDim = 256) (hn : n * 4 ≤ 2 ^ 64) {i : Nat} (hi : i < n) (acc : V)
    (m : Loc → V) :
    Exec (pair_round op inp n g i acc) m
      ((pairIndices n i).map fun i => (Loc.global (inp + i), false))
      (done ((pairIndices n i).foldl (fun x i => op x (m (.global (inp + i)))) acc)) m := by
  have hadd : Word.add i g.blockDim = i + 256 := by
    rw [hdim]
    exact Word.add_of_lt (by unfold Word.wordSize; omega)
  unfold pair_round pairIndices
  rw [hadd]
  by_cases hin : i + 256 < n
  · simp only [if_pos hin]
    exact Exec.read (Exec.read (Exec.refl _ _))
  · simp only [if_neg hin]
    exact Exec.read (Exec.refl _ _)

theorem exec_reduce_pairs (op : V → V → V) (init : V) (inp : Nat) (hdim : g.blockDim = 256)
    (hgrid : g.gridDim ≤ 256) (hb : b < g.gridDim) (ht : t < 256) (hn : n * 4 ≤ 2 ^ 64) (m : Loc → V) :
    Exec (reduce_pairs op init inp n g b t) m
      ((threadIndices n g.gridDim b t).map fun i => (Loc.global (inp + i), false))
      (done ((threadIndices n g.gridDim b t).foldl (fun x i => op x (m (.global (inp + i)))) init)) m := by
  have hidx : u32 (u32 (u32 (b * g.blockDim) * 2) + t) = b * 512 + t := by
    rw [hdim]
    unfold u32
    omega
  have hstride : u32 (u32 (g.blockDim * 2) * g.gridDim) = 512 * g.gridDim := by
    rw [hdim]
    unfold u32
    omega
  have hrounds : rounds (fun i => decide (i < n)) (Word.add · (512 * g.gridDim)) Word.wordSize
      (id (b * 512 + t)) = some ((strided (b * 512 + t) (512 * g.gridDim) n).map id) := by
    refine rounds_strided id (by omega) (fun _ => rfl) (fun i hi => ?_) ?_
    · exact Word.add_of_lt (by unfold Word.wordSize id; omega)
    · unfold Word.wordSize
      omega
  rw [List.map_id] at hrounds
  unfold reduce_pairs
  dsimp only
  rw [hidx, hstride, threadIndices, List.map_flatMap, List.foldl_flatMap]
  refine exec_loop hrounds (chain_of_read (fun i hi acc => ?_) init)
  exact exec_pair hdim hn ((mem_strided (by omega)).mp hi).2.1 acc m

end Loop

/-! ## The grid -/

/-- The indices that the block `b` reads. -/
@[irreducible]
def blockIndices (n grid b : Nat) : Multiset Nat :=
  ∑ t ∈ Finset.range 256, (threadIndices n grid b t : Multiset Nat)

theorem sum_threadIndices_block {d : Nat} (hd : d = 256) (n grid b : Nat) :
    ∑ t ∈ Finset.range d, (threadIndices n grid b t : Multiset Nat) = blockIndices n grid b := by
  unfold blockIndices
  subst hd
  rfl

theorem sum_blockIndices {grid : Nat} (hgrid : 0 < grid) (n : Nat) :
    ∑ b ∈ Finset.range grid, blockIndices n grid b = Multiset.range n := by
  unfold blockIndices
  exact sum_threadIndices hgrid n

theorem lt_of_mem_threadIndices {n grid b t i : Nat} (hgrid : 0 < grid)
    (h : i ∈ threadIndices n grid b t) : i < n := by
  have hstep : 0 < 512 * grid := by omega
  rw [← Multiset.mem_coe, coe_threadIndices hgrid, Multiset.mem_add] at h
  rcases h with h | h
  · exact ((mem_strided hstep).mp h).2.1
  · exact ((mem_strided hstep).mp h).2.1

/-- The values of the threads of a block are those of its indices. -/
theorem fold_blockIndices {op : V → V → V} [Std.Commutative op] [Std.Associative op] {e : V}
    (he : ∀ a, op e a = a) (v : Nat → V) (n grid b : Nat) :
    ((Finset.range 256).fold op e fun t => (threadIndices n grid b t).foldl (fun x i => op x (v i)) e) =
      ((blockIndices n grid b).map v).fold op e := by
  have hthread : ∀ t, (threadIndices n grid b t).foldl (fun x i => op x (v i)) e =
      ((threadIndices n grid b t : Multiset Nat).map v).fold op e := by
    intro t
    rw [Multiset.map_coe, Multiset.coe_fold_l, List.foldl_map]
  have hsum : (blockIndices n grid b).map v =
      ∑ t ∈ Finset.range 256, (threadIndices n grid b t : Multiset Nat).map v := by
    unfold blockIndices
    rw [Folding.map_sum_range]
  rw [hsum, Folding.fold_sum he]
  exact Finset.fold_congr fun t _ => hthread t

theorem lt_of_mem_blockIndices {n grid b i : Nat} (hb : b < grid) (h : i ∈ blockIndices n grid b) :
    i < n := by
  have hmem : i ∈ ∑ b ∈ Finset.range grid, blockIndices n grid b :=
    Multiset.mem_sum.mpr ⟨b, Finset.mem_range.mpr hb, h⟩
  rw [sum_blockIndices (Nat.zero_lt_of_lt hb)] at hmem
  exact Multiset.mem_range.mp hmem

/-- The partial result of the block `b` is written by this block. -/
def partialHome (out grid : Nat) : Loc → Option Nat
  | .global a => if out ≤ a ∧ a < out + grid then some (a - out) else none
  | .shared b _ => some b

section Grid

variable {op : V → V → V} {e : V} {inp out n : Nat} {g : Simt.Launch}
  {kernel : Nat → Nat → Simt.Thread Loc V Unit} {owner : Nat → Loc → Option Nat} {m : Loc → V}

/-- Each block reads its indices once and leaves the result of their elements. -/
def LeavesPartials (op : V → V → V) [Std.Commutative op] [Std.Associative op] (e : V) (inp out n : Nat)
    (g : Simt.Launch) (kernel : Nat → Nat → Simt.Thread Loc V Unit)
    (owner : Nat → Loc → Option Nat) : Prop :=
  ∀ b < g.gridDim, ∀ m : Loc → V, ∃ F m' n', BlockRun g b (kernel b) m 0 F (fun _ => done ()) m' n' ∧
    (∀ ev ∈ F, Owned (partialHome out g.gridDim) owner ev) ∧
    globalReads F = (blockIndices n g.gridDim b).map (fun i => Loc.global (inp + i)) ∧
    m' (.global (out + b)) =
      ((blockIndices n g.gridDim b).map fun i => m (.global (inp + i))).fold op e ∧
    ∀ a, a ≠ out + b → m' (.global a) = m (.global a)

theorem exists_ends_of_partials [Std.Commutative op] [Std.Associative op] (he : ∀ a, op e a = a)
    (hdim : 0 < g.blockDim) (hgrid : 0 < g.gridDim) (hapart : Apart inp n out g.gridDim)
    (h : LeavesPartials op e inp out n g kernel owner) (m : Loc → V) :
    ∃ s, Ends g kernel m s ∧
      globalReads s.log = (Multiset.range n).map (fun i => Loc.global (inp + i)) ∧
      (Finset.range g.gridDim).fold op e (fun b => s.mem (.global (out + b))) =
        (Finset.range n).fold op e fun i => m (.global (inp + i)) := by
  let result : Nat → V := fun b =>
    ((blockIndices n g.gridDim b).map fun i => m (.global (inp + i))).fold op e
  let I : Nat → (Loc → V) → Multiset (Event Loc) → Prop := fun b m1 F =>
    (∀ ev ∈ F, Owned (partialHome out g.gridDim) owner ev) ∧
    globalReads F = (∑ b' ∈ Finset.range b, blockIndices n g.gridDim b').map
      (fun i => Loc.global (inp + i)) ∧
    (∀ b' < b, m1 (.global (out + b')) = result b') ∧
    ∀ a, (∀ b' < b, a ≠ out + b') → m1 (.global a) = m (.global a)
  have h0 : I 0 m 0 := by
    refine ⟨fun ev hev => absurd hev (Multiset.notMem_zero ev), ?_, nofun, fun _ _ => rfl⟩
    rw [Finset.sum_range_zero]
    rfl
  have hblock : ∀ b < g.gridDim, ∀ m1 F, I b m1 F → ∃ F' m' n',
      BlockRun g b (kernel b) m1 0 F' (fun _ => done ()) m' n' ∧ I (b + 1) m' (F + F') := by
    rintro b hb m1 F ⟨howned, hreads, hresults, hrest⟩
    obtain ⟨F', m', n', hrun, howned', hreads', hresult', hrest'⟩ := h b hb m1
    refine ⟨F', m', n', hrun, fun ev hev => ?_, ?_, fun b' hb' => ?_, fun a ha => ?_⟩
    · rcases Multiset.mem_add.mp hev with hev | hev
      · exact howned ev hev
      · exact howned' ev hev
    · rw [globalReads_add, hreads, hreads', Finset.sum_range_succ, Multiset.map_add]
    · by_cases hbb : b' = b
      · rw [hbb, hresult']
        refine congrArg (Multiset.fold op e) (Multiset.map_congr rfl fun i hi => ?_)
        -- the input is not among the results that are written
        have hlt := lt_of_mem_blockIndices hb hi
        refine hrest _ fun b'' hb'' => ?_
        unfold Apart at hapart
        omega
      · rw [hrest' _ (by omega)]
        exact hresults b' (by omega)
    · rw [hrest' a (ha b (Nat.lt_succ_self b))]
      exact hrest a fun b' hb' => ha b' (by omega)
  obtain ⟨s, hs, -, hreads, hresults, -⟩ := exists_ends hdim h0 hblock fun m1 F hI =>
    noRace_of_owned hI.1
  refine ⟨s, hs, ?_, ?_⟩
  · rw [hreads, sum_blockIndices hgrid]
  · have hsum : ∑ b ∈ Finset.range g.gridDim,
        ((blockIndices n g.gridDim b).map fun i => m (.global (inp + i))) =
        (Multiset.range n).map fun i => m (.global (inp + i)) := by
      rw [← sum_blockIndices hgrid n, Folding.map_sum_range]
    rw [Finset.fold_congr fun b hb => hresults b (Finset.mem_range.mp hb), ← Folding.fold_sum he, hsum]
    rfl

end Grid

/-! ## The sum -/

section Sum

variable [AddCommMonoid V] {inp out n b t : Nat} {g : Simt.Launch} {m : Loc → V}

/-- What a thread does after the tree. -/
def sumLast (out b t : Nat) : Simt.Thread Loc V Unit := do
  let sum ← load (.shared b 0)
  when (t = 0) do
    store (.global (out + b)) sum

theorem sum_kernel_eq (hdim : g.blockDim = 256) : sum_kernel (V := V) inp out n g b t =
    reduce_pairs (· + ·) 0 inp n g b t >>= fun sum => Thread.sync (Thread.write (.shared b t) sum
      (Thread.sync (tree_reduce (· + ·) (fun _ => true) (Loc.shared b) (2 ^ 7) t >>= fun _ =>
        sumLast out b t))) := by
  unfold sum_kernel block_reduce_sum sumLast
  rw [hdim]
  simp only [bind_bind]
  rfl

/-- The tree is in the epochs 2 to 9, and the sum is written in the epoch 10. -/
def sumOwner (n : Nat) : Loc → Option Nat
  | .global _ => if n = 10 then some 0 else none
  | .shared _ j => if n = 1 ∨ j < 2 ^ 7 / 2 ^ (n - 2) then some j else none

/-- The accesses of the thread `t` after the tree. -/
def sumLastAccesses (out b t : Nat) : List (Loc × Bool) :=
  (.shared b 0, false) :: if t = 0 then [(.global (out + b), true)] else []

variable {d grid : Nat} {ev : Event Loc}

/-- Reads of the input in the epoch 0, in which nothing is written. -/
theorem owned_of_input {owner : Nat → Loc → Option Nat} {l : Nat → List Nat}
    (howner : ∀ a, owner 0 (.global a) = none) (hl : ∀ t, ∀ i ∈ l t, i < n)
    (hapart : Apart inp n out grid)
    (h : ev ∈ ∑ t ∈ Finset.range d, events b t 0 ((l t).map fun i => (Loc.global (inp + i), false))) :
    Owned (partialHome out grid) owner ev := by
  obtain ⟨-, -, hepoch, hmem⟩ := mem_sum_events.mp h
  obtain ⟨i, hi, heq⟩ := List.mem_map.mp hmem
  obtain ⟨hloc, hread⟩ := Prod.mk.inj heq
  have hlt := hl _ i hi
  unfold Owned
  rw [← hloc, ← hread, hepoch]
  refine ⟨Or.inr ⟨if_neg ?_, rfl⟩, Or.inr ⟨howner _, rfl⟩⟩
  unfold Apart at hapart
  omega

theorem owned_of_sum_store (h : ev ∈ ∑ t ∈ Finset.range d, events b t 1 [(Loc.shared b t, true)]) :
    Owned (partialHome out grid) sumOwner ev := by
  obtain ⟨hb, -, hepoch, hmem⟩ := mem_sum_events.mp h
  obtain ⟨hloc, -⟩ := Prod.mk.inj (List.mem_singleton.mp hmem)
  unfold Owned
  rw [hloc, hepoch, hb]
  exact ⟨Or.inl rfl, Or.inl (by simp [sumOwner])⟩

theorem owned_of_sum_tree (hb : ev.block = b) (h : TreeAccess (Loc.shared b) (2 ^ 7) 2 ev) :
    Owned (partialHome out grid) sumOwner ev := by
  obtain ⟨hepoch, htid, hloc⟩ := h
  unfold Owned
  rw [hb]
  rcases hloc with hloc | ⟨hloc, hread⟩
  · rw [hloc]
    exact ⟨Or.inl rfl, Or.inl (if_pos (Or.inr htid))⟩
  · rw [hloc]
    exact ⟨Or.inl rfl, Or.inr ⟨if_neg (by omega), hread⟩⟩

theorem owned_of_sum_last (hb : b < grid)
    (h : ev ∈ ∑ t ∈ Finset.range d, events b t 10 (sumLastAccesses out b t)) :
    Owned (partialHome out grid) sumOwner ev := by
  obtain ⟨hblock, -, hepoch, hmem⟩ := mem_sum_events.mp h
  unfold Owned
  rw [hblock, hepoch]
  rcases List.mem_cons.mp hmem with hfirst | hrest
  · obtain ⟨hloc, hread⟩ := Prod.mk.inj hfirst
    rw [hloc]
    exact ⟨Or.inl rfl, Or.inr ⟨by simp [sumOwner], hread⟩⟩
  · split_ifs at hrest with ht
    · obtain ⟨hloc, -⟩ := Prod.mk.inj (List.mem_singleton.mp hrest)
      rw [hloc, ht]
      refine ⟨Or.inl ?_, Or.inl rfl⟩
      rw [partialHome, if_pos (by omega), Nat.add_sub_cancel_left]
    · cases hrest

theorem sumLast_reads (h : ev ∈ ∑ t ∈ Finset.range d, events b t 10 (sumLastAccesses out b t)) :
    ev.isWrite = true ∨ ev.loc.isGlobal = false := by
  rcases List.mem_cons.mp (mem_sum_events.mp h).2.2.2 with hfirst | hrest
  · rw [(Prod.mk.inj hfirst).1]
    exact Or.inr rfl
  · split_ifs at hrest
    · exact Or.inl (Prod.mk.inj (List.mem_singleton.mp hrest)).2
    · cases hrest

omit [AddCommMonoid V] in
/-- The first thread writes the result. -/
theorem exists_sum_last (hb : b < g.gridDim) (hdim : 0 < g.blockDim) (m : Loc → V) :
    BlockRun g b (sumLast out b) m 10
      (∑ t ∈ Finset.range g.blockDim, events b t 10 (sumLastAccesses out b t)) (fun _ => done ())
      (Function.update m (.global (out + b)) (m (.shared b 0))) 10 := by
  have hthread : ∀ t < g.blockDim, ∀ m1,
      m1 = (if t = 0 then m else Function.update m (.global (out + b)) (m (.shared b 0))) →
      ∃ m2, Exec (sumLast out b t) m1 (sumLastAccesses out b t) (done ()) m2 ∧
        m2 = if t + 1 = 0 then m else Function.update m (.global (out + b)) (m (.shared b 0)) := by
    intro t ht m1 hm1
    unfold sumLast sumLastAccesses when
    by_cases hfirst : t = 0
    · subst hfirst
      rw [if_pos rfl] at hm1
      subst hm1
      exact ⟨_, Exec.read (Exec.write (Exec.refl _ _)), rfl⟩
    · rw [if_neg hfirst] at hm1
      simp only [if_neg hfirst]
      exact ⟨m1, Exec.read (Exec.refl _ _), hm1⟩
  obtain ⟨m', hrun, hm'⟩ := exists_blockRun hb 10 rfl hthread
  rw [if_neg (by omega)] at hm'
  rwa [hm'] at hrun

/-- The block leaves the sum of its elements. -/
theorem sum_leavesPartials (hdim : g.blockDim = 256) (hgrid : g.gridDim ≤ 256)
    (hn : n * 4 ≤ 2 ^ 64) (hapart : Apart inp n out g.gridDim) :
    LeavesPartials (V := V) (· + ·) 0 inp out n g (sum_kernel inp out n g) sumOwner := by
  intro b hb m
  have hcell := shared_injective b
  let x : Nat → V := fun t =>
    (threadIndices n g.gridDim b t).foldl (fun x i => x + m (.global (inp + i))) 0
  let tail : Nat → Simt.Thread Loc V Unit := fun t =>
    tree_reduce (· + ·) (fun _ => true) (Loc.shared b) (2 ^ 7) t >>= fun _ => sumLast out b t
  have hkernel : sum_kernel inp out n g b = fun t => reduce_pairs (· + ·) 0 inp n g b t >>= fun sum =>
      Thread.sync (Thread.write (.shared b t) sum (Thread.sync (tail t))) :=
    funext fun t => sum_kernel_eq hdim
  have hrun1 := blockRun_of_read_seq hb 0
    (fun t ht => exec_reduce_pairs (· + ·) (0 : V) inp hdim hgrid hb
      (hdim ▸ ht) hn m)
    fun t sum => Thread.sync (Thread.write (.shared b t) sum (Thread.sync (tail t)))
  have hstore : ∀ t < g.blockDim, ∀ m1, Simt.Stored (Loc.shared b) (· < t) x m m1 →
      ∃ m2, Exec (Thread.write (.shared b t) (x t) (Thread.sync (tail t))) m1
          [(Loc.shared b t, true)] (Thread.sync (tail t)) m2 ∧
        Simt.Stored (Loc.shared b) (· < t + 1) x m m2 := fun t _ m1 hm1 =>
    ⟨_, Exec.write (Exec.refl _ _), (hm1.update hcell t).congr fun j => by omega⟩
  obtain ⟨m1, hrun2, hm1⟩ := exists_blockRun hb 1 (stored_nothing fun j => Nat.not_lt_zero j) hstore
  obtain ⟨F, m2, hF, hsum, hrest, hrun3⟩ := exists_tree_reduce (g := g) (m := m1) zero_add hcell hb
    (by omega : 2 ^ 7 ≤ g.blockDim) (by decide)
    (fun t s h => nomatch h : ∀ t s : Nat, true = false → 2 ^ 8 ≤ t + s)
    (fun j hj hlt => absurd hlt (not_lt.mpr hj)) 2
  refine ⟨_, _, _, hkernel ▸ (hrun1.trans (blockRun_of_sync hb 0 m _)).trans
    ((hrun2.trans (blockRun_of_sync hb 1 m1 _)).trans
      ((hrun3 _).trans (exists_sum_last hb (by omega) m2))), fun ev hev => ?_, ?_, ?_, fun a ha => ?_⟩
  · rw [add_zero, add_zero] at hev
    rcases Multiset.mem_add.mp hev with hev | hev
    · exact owned_of_input (fun a => rfl) (fun t i hi => lt_of_mem_threadIndices (by omega) hi) hapart hev
    rcases Multiset.mem_add.mp hev with hev | hev
    · exact owned_of_sum_store hev
    rcases Multiset.mem_add.mp hev with hev | hev
    · exact owned_of_sum_tree (hF ev hev).1 (hF ev hev).2
    · exact owned_of_sum_last hb hev
  · have hreads := globalReads_sum_events b 0 inp g.blockDim fun t => threadIndices n g.gridDim b t
    rw [sum_threadIndices_block hdim] at hreads
    rw [add_zero, add_zero, globalReads_add, hreads, globalReads_eq_zero, add_zero]
    intro ev hev
    rcases Multiset.mem_add.mp hev with hev | hev
    · have hmem := (mem_sum_events.mp hev).2.2.2
      exact Or.inl (Prod.mk.inj (List.mem_singleton.mp hmem)).2
    rcases Multiset.mem_add.mp hev with hev | hev
    · right
      rcases (hF ev hev).2.2.2 with hloc | ⟨hloc, -⟩ <;> rw [hloc] <;> rfl
    · exact sumLast_reads hev
  · rw [Function.update_self, hsum, ← fold_blockIndices zero_add]
    exact Finset.fold_congr fun t ht => hm1.1 t (by rw [hdim]; exact Finset.mem_range.mp ht)
  · have hne : Loc.global a ≠ .global (out + b) := fun h => ha (Loc.global.inj h)
    rw [Function.update_of_ne hne, hrest (.global a) fun j _ => nofun]
    exact hm1.2 (.global a) fun j _ => nofun

end Sum

/-! ## The maximum -/

section Max

variable [LinearOrder V] [OrderBot V] {inp out n b t d grid : Nat} {g : Simt.Launch} {m : Loc → V}
  {ev : Event Loc}

/-- What a thread does after the barrier. -/
def maxLast (out b t : Nat) : Simt.Thread Loc V Unit :=
  when (t = 0) do
    let first ← load (.shared b 0)
    let max_val ← serial_reduce max (Loc.shared b) 1 8 first
    store (.global (out + b)) max_val

theorem max_kernel_eq (hdim : g.blockDim = 256) : max_kernel (V := V) inp out n g b t =
    reduce_pairs max ⊥ inp n g b t >>= fun v => warp_reduce max v >>= fun v =>
      lane_store (Loc.shared b) t v >>= fun _ => Thread.sync (maxLast out b t) := by
  unfold max_kernel maxLast
  rw [hdim]
  rfl

/-- The warps store in the epoch 0, and the maximum is written in the epoch 1. -/
def maxOwner (n : Nat) : Loc → Option Nat
  | .global _ => if n = 1 then some 0 else none
  | .shared _ j => if n = 0 then some (j * 32) else none

/-- The accesses of the thread `t` after the barrier. -/
def maxLastAccesses (out b t : Nat) : List (Loc × Bool) :=
  if t = 0 then (.shared b 0, false) :: (((strided 1 1 8).map fun i => (Loc.shared b i, false)) ++
    [(.global (out + b), true)]) else []

theorem owned_of_max_store
    (h : ev ∈ ∑ t ∈ Finset.range d, events b t 0 (laneAccesses (Loc.shared b) t)) :
    Owned (partialHome out grid) maxOwner ev := by
  obtain ⟨hb, -, hepoch, hmem⟩ := mem_sum_events.mp h
  obtain ⟨hlane, hloc, -⟩ := mem_laneAccesses hmem
  have howner : maxOwner 0 (.shared b (ev.tid / 32)) = some (ev.tid / 32 * 32) := by
    rw [maxOwner, if_pos rfl]
  rw [hlane] at howner
  unfold Owned
  rw [hloc, hepoch, hb]
  exact ⟨Or.inl rfl, Or.inl howner⟩

theorem mem_maxLastAccesses {loc : Loc} {isWrite : Bool}
    (h : (loc, isWrite) ∈ maxLastAccesses out b t) : t = 0 ∧
      ((∃ j < 8, loc = .shared b j ∧ isWrite = false) ∨ loc = .global (out + b) ∧ isWrite = true) := by
  unfold maxLastAccesses at h
  split_ifs at h with ht
  · refine ⟨ht, ?_⟩
    rcases List.mem_cons.mp h with hfirst | hrest
    · obtain ⟨hloc, hread⟩ := Prod.mk.inj hfirst
      exact Or.inl ⟨0, by decide, hloc, hread⟩
    · rcases List.mem_append.mp hrest with hloop | hlast
      · obtain ⟨j, hj, heq⟩ := List.mem_map.mp hloop
        obtain ⟨hloc, hread⟩ := Prod.mk.inj heq
        exact Or.inl ⟨j, ((mem_strided Nat.one_pos).mp hj).2.1, hloc.symm, hread.symm⟩
      · exact Or.inr (Prod.mk.inj (List.mem_singleton.mp hlast))
  · cases h

theorem owned_of_max_last (hb : b < grid)
    (h : ev ∈ ∑ t ∈ Finset.range d, events b t 1 (maxLastAccesses out b t)) :
    Owned (partialHome out grid) maxOwner ev := by
  obtain ⟨hblock, -, hepoch, hmem⟩ := mem_sum_events.mp h
  obtain ⟨ht, ⟨j, -, hloc, hread⟩ | ⟨hloc, -⟩⟩ := mem_maxLastAccesses hmem
  · unfold Owned
    rw [hloc, hepoch, hblock]
    exact ⟨Or.inl rfl, Or.inr ⟨rfl, hread⟩⟩
  · unfold Owned
    rw [hloc, hepoch, hblock, ht]
    refine ⟨Or.inl ?_, Or.inl rfl⟩
    rw [partialHome, if_pos (by omega), Nat.add_sub_cancel_left]

/-- The first thread takes the maximum of the warps. -/
theorem exists_max_last (hb : b < g.gridDim) (hdim : 0 < g.blockDim) (m : Loc → V) :
    BlockRun g b (maxLast out b) m 1
      (∑ t ∈ Finset.range g.blockDim, events b t 1 (maxLastAccesses out b t)) (fun _ => done ())
      (Function.update m (.global (out + b)) ((Finset.range 8).fold max ⊥ fun w => m (.shared b w)))
      1 := by
  refine blockRun_of_first hb hdim 1 ?_ fun t ht => ?_
  · have hexec : Exec (maxLast out b 0) m (maxLastAccesses out b 0) (done ())
        (Function.update m (.global (out + b))
          ((strided 1 1 8).foldl (fun x i => max x (m (.shared b i))) (m (.shared b 0)))) :=
      Exec.read ((exec_serial_reduce max _ 1 (by decide) _ m).seq (Exec.write (Exec.refl _ _)))
    rwa [foldl_strided_one bot_sup_eq (fun w => m (.shared b w)) (by decide)] at hexec
  · unfold maxLast maxLastAccesses when
    rw [if_neg ht, if_neg ht]
    exact Exec.refl _ _

/-- The block leaves the maximum of its elements. -/
theorem max_leavesPartials (hdim : g.blockDim = 256) (hgrid : g.gridDim ≤ 256)
    (hn : n * 4 ≤ 2 ^ 64) (hapart : Apart inp n out g.gridDim) :
    LeavesPartials (V := V) max ⊥ inp out n g (max_kernel inp out n g) maxOwner := by
  intro b hb m
  let x : Nat → V := fun t =>
    (threadIndices n g.gridDim b t).foldl (fun x i => max x (m (.global (inp + i)))) ⊥
  have hkernel : max_kernel (V := V) inp out n g b = fun t =>
      reduce_pairs (V := V) max ⊥ inp n g b t >>= fun v => warp_reduce max v >>= fun v =>
        lane_store (Loc.shared b) t v >>= fun _ => Thread.sync (maxLast out b t) :=
    funext fun t => max_kernel_eq hdim
  have hrun1 := blockRun_of_read_seq hb 0
    (fun t ht => exec_reduce_pairs max (⊥ : V) inp hdim hgrid hb
      (hdim ▸ ht) hn m)
    fun t (v : V) => warp_reduce max v >>= fun v => lane_store (Loc.shared b) t v >>= fun _ =>
      Thread.sync (maxLast out b t)
  obtain ⟨v, hv, hrun2⟩ := exists_warp_reduce (bot_sup_eq : ∀ a : V, max ⊥ a = a) hb
    (hdim ▸ by decide : 32 ∣ g.blockDim) 0 m x
  obtain ⟨m1, hm1, hrun3⟩ := exists_lane_store (shared_injective b) hb 0 m v
    fun t => Thread.sync (maxLast out b t)
  refine ⟨_, _, _, hkernel ▸ (hrun1.trans ((hrun2 _).trans hrun3)).trans
    ((blockRun_of_sync hb 0 m1 _).trans (exists_max_last hb (by omega) m1)), fun ev hev => ?_, ?_, ?_,
    fun a ha => ?_⟩
  · rw [zero_add, zero_add] at hev
    rcases Multiset.mem_add.mp hev with hev | hev
    · rcases Multiset.mem_add.mp hev with hev | hev
      · exact owned_of_input (fun a => rfl) (fun t i hi => lt_of_mem_threadIndices (by omega) hi) hapart
          hev
      · exact owned_of_max_store hev
    · exact owned_of_max_last hb hev
  · have hreads := globalReads_sum_events b 0 inp g.blockDim fun t => threadIndices n g.gridDim b t
    rw [sum_threadIndices_block hdim] at hreads
    rw [zero_add, zero_add, add_assoc, globalReads_add, hreads, globalReads_eq_zero, add_zero]
    intro ev hev
    rcases Multiset.mem_add.mp hev with hev | hev
    · exact Or.inl (mem_laneAccesses (mem_sum_events.mp hev).2.2.2).2.2
    · obtain ⟨-, ⟨j, -, hloc, -⟩ | ⟨-, hwrite⟩⟩ := mem_maxLastAccesses (mem_sum_events.mp hev).2.2.2
      · rw [hloc]
        exact Or.inr rfl
      · exact Or.inl hwrite
  · rw [Function.update_self, ← fold_blockIndices bot_sup_eq]
    have hwarp : ∀ w ∈ Finset.range 8, m1 (.shared b w) =
        (Finset.range 32).fold max ⊥ fun l => x (w * 32 + l) := by
      intro w hw
      have hlt := Finset.mem_range.mp hw
      rw [hm1.1 w (by omega)]
      exact hv w
    rw [Finset.fold_congr hwarp, Folding.fold_range_blocks bot_sup_eq x 32 8]
  · have hne : Loc.global a ≠ .global (out + b) := fun h => ha (Loc.global.inj h)
    rw [Function.update_of_ne hne]
    exact hm1.2 (.global a) fun j _ => nofun

end Max

/-! ## The launches -/

theorem reduction_grid_pos {n : Nat} (hn : 1 ≤ n) (hn' : n * 4 ≤ 2 ^ 64) : 0 < reduction_grid n := by
  unfold reduction_grid
  rw [Word.add_of_lt (by unfold Word.wordSize; omega)]
  omega

theorem reduction_grid_le (n : Nat) : reduction_grid n ≤ 256 := Nat.min_le_right _ _

/-- Each element is read once, and the partial results of the blocks have the sum and the maximum of
the input. -/
theorem partials_reduce_input {V W : Type} [AddCommMonoid V] [LinearOrder W] [OrderBot W]
    {inp out n : Nat} (hn : 1 ≤ n) (hn' : n * 4 ≤ 2 ^ 64)
    (hapart : Apart inp n out (reduction_grid n)) (m : Loc → V) (m' : Loc → W) :
    (∃ s, Ends (launch_sum (V := V) inp out n).dims (launch_sum inp out n).threads m s ∧
      ReadsOnce inp n s ∧
      ∑ b ∈ Finset.range (reduction_grid n), s.mem (.global (out + b)) =
        ∑ i ∈ Finset.range n, m (.global (inp + i))) ∧
    ∃ s, Ends (launch_max (V := W) inp out n).dims (launch_max inp out n).threads m' s ∧
      ReadsOnce inp n s ∧
      (Finset.range (reduction_grid n)).sup (fun b => s.mem (.global (out + b))) =
        (Finset.range n).sup fun i => m' (.global (inp + i)) := by
  have hpos := reduction_grid_pos hn hn'
  have hle := reduction_grid_le n
  have hdim : (⟨reduction_grid n, 256⟩ : Simt.Launch).blockDim = 256 := rfl
  constructor
  · obtain ⟨s, hs, hreads, hsum⟩ := exists_ends_of_partials (g := ⟨reduction_grid n, 256⟩) zero_add
      (Nat.succ_pos 255) hpos hapart (sum_leavesPartials hdim hle hn' hapart) m
    refine ⟨s, hs, hreads, ?_⟩
    rw [Finset.sum_eq_fold, Finset.sum_eq_fold]
    exact hsum
  · obtain ⟨s, hs, hreads, hmax⟩ := exists_ends_of_partials (g := ⟨reduction_grid n, 256⟩) bot_sup_eq
      (Nat.succ_pos 255) hpos hapart (max_leavesPartials hdim hle hn' hapart) m'
    exact ⟨s, hs, hreads, hmax⟩

theorem a_thousand_elements_are_reduced :
    (∃ s, Ends (launch_sum (V := ℚ) 0 1000 1000).dims (launch_sum 0 1000 1000).threads (fun _ => 1) s ∧
      ReadsOnce 0 1000 s ∧
      ∑ b ∈ Finset.range (reduction_grid 1000), s.mem (.global (1000 + b)) =
        ∑ _i ∈ Finset.range 1000, (1 : ℚ)) ∧
    ∃ s, Ends (launch_max (V := EReal) 0 1000 1000).dims (launch_max 0 1000 1000).threads
        (fun _ => 1) s ∧
      ReadsOnce 0 1000 s ∧
      (Finset.range (reduction_grid 1000)).sup (fun b => s.mem (.global (1000 + b))) =
        (Finset.range 1000).sup fun _ => (1 : EReal) :=
  partials_reduce_input (by decide) (by decide) (by decide) (fun _ => (1 : ℚ)) fun _ => (1 : EReal)

end sci.cuda.kernels
