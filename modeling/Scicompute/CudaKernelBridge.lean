-- The sum of the CUDA kernel bridge: one block of 256 threads, of which each takes one element, and a
-- tree in the shared memory.
import Scicompute.BlockReductions
import Scicompute.DeviceKernels

namespace sci.bridges

open Simt Simt.Thread sci.cuda

variable {V : Type}

def reduce_sum_kernel [Zero V] [Add V] (out inp n : Nat) (g : Simt.Launch) (blockIdx threadIdx : Nat) :
    Simt.Thread Loc V Unit := do
  let idx := Word.toInt (u32 (u32 (blockIdx * g.blockDim) + threadIdx))
  let sum ← (if idx < n then load (Loc.global (inp + idx.toNat)) else pure 0)
  store (.shared blockIdx threadIdx) sum
  barrier
  -- `idx + s` and `n` are compared as unsigned numbers
  tree_reduce (· + ·) (fun s => decide (u32 (idx.toNat + s) < n)) (Loc.shared blockIdx)
    (g.blockDim / 2) threadIdx
  when (threadIdx = 0) do
    let sum ← load (Loc.shared blockIdx 0)
    store (.global (out + blockIdx)) sum

/-- The kernel that `cuda_kernels::reduce_sum` launches, and then waits for. -/
def cuda_kernels.reduce_sum [Zero V] [Add V] (out inp n : Nat) : KernelLaunch V :=
  ⟨⟨1, 256⟩, 256 * 4, reduce_sum_kernel out inp n⟩

/-- All schedules end with the sum of the elements in `out[0]`. -/
def SumsUp [AddCommMonoid V] (out inp n : Nat) (m : Loc → V) : Prop :=
  ∃ s, Ends (cuda_kernels.reduce_sum (V := V) out inp n).dims
      (cuda_kernels.reduce_sum out inp n).threads m s ∧
    s.mem (.global out) = ∑ i ∈ Finset.range n, m (.global (inp + i))

/-! ## The block -/

section Block

variable [AddCommMonoid V] {g : Simt.Launch} {out inp n : Nat} {m m' : Loc → V} {t : Nat}

/-- The value that the thread `t` takes. -/
def taken (inp n : Nat) (m : Loc → V) (t : Nat) : V := if t < n then m (.global (inp + t)) else 0

/-- The accesses of the thread `t` before the tree, and after it. -/
def takeAccesses (inp n t : Nat) : List (Loc × Bool) :=
  (if t < n then [(.global (inp + t), false)] else []) ++ [(.shared 0 t, true)]

def lastAccesses (out t : Nat) : List (Loc × Bool) :=
  if t = 0 then [(.shared 0 0, false), (.global (out + 0), true)] else []

/-- What is left after the barrier of the first phase. -/
def reduceTail (out n t : Nat) : Simt.Thread Loc V Unit := do
  tree_reduce (· + ·) (fun s => decide (u32 (t + s) < n)) (Loc.shared 0) (2 ^ 7) t
  when (t = 0) do
    let sum ← load (Loc.shared 0 0)
    store (.global (out + 0)) sum

theorem toInt_index (d : Nat) (ht : t < 256) : Word.toInt (u32 (u32 (0 * d) + t)) = t := by
  have hu : u32 (u32 (0 * d) + t) = t := by
    unfold u32
    omega
  rw [hu, Word.toInt_of_lt (by omega)]

theorem exec_take (hdim : g.blockDim = 256) (ht : t < g.blockDim) (m : Loc → V) :
    Exec (reduce_sum_kernel out inp n g 0 t) m
      (takeAccesses inp n t)
      (sync (reduceTail out n t)) (Function.update m (.shared 0 t) (taken inp n m t)) := by
  unfold reduce_sum_kernel
  dsimp only
  rw [toInt_index g.blockDim (hdim ▸ ht), hdim]
  unfold taken takeAccesses
  rw [Int.toNat_natCast]
  by_cases hin : t < n
  · rw [if_pos hin, if_pos hin, if_pos (by omega)]
    exact Exec.read (Exec.write (Exec.refl _ _))
  · rw [if_neg hin, if_neg hin, if_neg (by omega)]
    exact Exec.write (Exec.refl _ _)

/-- The elements are taken in the epoch 0, the tree is in the epochs 1 to 8, and the sum is written in
the epoch 9. -/
def reduceOwner (n : Nat) : Loc → Option Nat
  | .global _ => if n = 9 then some 0 else none
  | .shared _ j => if n = 0 ∨ j < 2 ^ 7 / 2 ^ (n - 1) then some j else none

theorem owned_of_take {d : Nat} {e : Event Loc} 
    (h : e ∈ ∑ t ∈ Finset.range d, events 0 t 0 (takeAccesses inp n t)) :
    Owned (fun _ => some 0) reduceOwner e := by
  obtain ⟨hb, ht, hepoch, hmem⟩ := mem_sum_events.mp h
  refine ⟨Or.inl (by rw [hb]), ?_⟩
  rw [hepoch]
  rcases List.mem_append.mp hmem with hread | hwrite
  · split_ifs at hread with hin
    · obtain ⟨hloc, hw⟩ := Prod.mk.inj (List.mem_singleton.mp hread)
      rw [hloc]
      exact Or.inr ⟨rfl, hw⟩
    · cases hread
  · obtain ⟨hloc, -⟩ := Prod.mk.inj (List.mem_singleton.mp hwrite)
    rw [hloc]
    exact Or.inl (by simp [reduceOwner])

theorem owned_of_tree {e : Event Loc} (hb : e.block = 0) (h : TreeAccess (Loc.shared 0) (2 ^ 7) 1 e) :
    Owned (fun _ => some 0) reduceOwner e := by
  obtain ⟨hepoch, htid, hloc⟩ := h
  refine ⟨Or.inl (by rw [hb]), ?_⟩
  rcases hloc with hloc | ⟨hloc, hread⟩
  · rw [hloc]
    exact Or.inl (if_pos (Or.inr htid))
  · rw [hloc]
    exact Or.inr ⟨if_neg (by omega), hread⟩

theorem owned_of_last {d : Nat} {e : Event Loc} 
    (h : e ∈ ∑ t ∈ Finset.range d, events 0 t 9 (lastAccesses out t)) :
    Owned (fun _ => some 0) reduceOwner e := by
  obtain ⟨hb, -, hepoch, hmem⟩ := mem_sum_events.mp h
  refine ⟨Or.inl (by rw [hb]), ?_⟩
  unfold lastAccesses at hmem
  split_ifs at hmem with ht
  · rw [hepoch, ht]
    simp only [List.mem_cons, Prod.mk.injEq, List.not_mem_nil, or_false] at hmem
    rcases hmem with ⟨hloc, hread⟩ | ⟨hloc, -⟩
    · rw [hloc]
      exact Or.inr ⟨by decide, hread⟩
    · rw [hloc]
      exact Or.inl rfl
  · cases hmem

/-- The block leaves the sum of the first 256 elements. -/
theorem exists_reduce_block (out inp n : Nat) (hb : 0 < g.gridDim) (hdim : g.blockDim = 256) (m : Loc → V) :
    ∃ F m', BlockRun g 0 (reduce_sum_kernel out inp n g 0) m 0 F (fun _ => done ()) m' 9 ∧
      (∀ e ∈ F, Owned (fun _ => some 0) reduceOwner e) ∧
      m' (.global out) = ∑ t ∈ Finset.range 256, taken inp n m t := by
  have hcell := shared_injective 0
  -- the elements of the first threads are taken
  have htake : ∀ t < g.blockDim, ∀ m1, Simt.Stored (Loc.shared 0) (· < t) (taken inp n m) m m1 →
      ∃ m2, Exec (reduce_sum_kernel out inp n g 0 t) m1 (takeAccesses inp n t)
          (sync (reduceTail out n t)) m2 ∧
        Simt.Stored (Loc.shared 0) (· < t + 1) (taken inp n m) m m2 := by
    intro t ht m1 hm1
    refine ⟨_, exec_take hdim ht m1, ?_⟩
    have htaken : taken inp n m1 t = taken inp n m t := by
      unfold taken
      rw [hm1.2 (.global (inp + t)) fun j _ => nofun]
    rw [htaken]
    exact (hm1.update hcell t).congr fun j => by omega
  obtain ⟨m1, hrun1, hm1⟩ := exists_blockRun hb 0 (stored_nothing fun j => Nat.not_lt_zero j) htake
  have hguard : ∀ t s, decide (u32 (t + s) < n) = false → n ≤ t + s := fun t s h =>
    (not_lt.mp (of_decide_eq_false h)).trans (Nat.mod_le _ _)
  have hbound : ∀ j, n ≤ j → j < 2 ^ (7 + 1) → m1 (.shared 0 j) = 0 := by
    intro j hj hlt
    rw [hm1.1 j (by omega), taken, if_neg (by omega)]
  obtain ⟨F, m2, hF, hsum, -, hrun2⟩ := exists_tree_reduce (g := g) zero_add hcell hb
    (by omega) (by decide : 7 < 32) hguard hbound 1
  have hlast : BlockRun g 0 (fun t => when (t = 0) do
        let sum ← load (Loc.shared 0 0)
        store (.global (out + 0)) sum) m2 9
      (∑ t ∈ Finset.range g.blockDim, events 0 t 9 (lastAccesses out t)) (fun _ => done ())
      (Function.update m2 (.global out) (m2 (.shared 0 0))) 9 := by
    refine blockRun_of_first hb (by omega) 9 (Exec.read (Exec.write (Exec.refl _ _))) fun t ht => ?_
    unfold when lastAccesses
    rw [if_neg ht, if_neg ht]
    exact Exec.refl _ _
  refine ⟨_, _, (hrun1.trans (blockRun_of_sync hb 0 m1 _)).trans ((hrun2 _).trans hlast),
    fun e he => ?_, ?_⟩
  · rw [add_zero] at he
    rcases Multiset.mem_add.mp he with he | he
    · exact owned_of_take he
    · rcases Multiset.mem_add.mp he with he | he
      · exact owned_of_tree (hF e he).1 (hF e he).2
      · exact owned_of_last he
  · rw [Function.update_self, hsum, ← Finset.sum_eq_fold]
    exact Finset.sum_congr rfl fun t ht => hm1.1 t (by rw [hdim]; exact Finset.mem_range.mp ht)

/-- All schedules end with the sum of the first 256 elements in `out[0]`. -/
theorem exists_ends_reduce (out inp n : Nat) (m : Loc → V) :
    ∃ s, Ends (cuda_kernels.reduce_sum (V := V) out inp n).dims
        (cuda_kernels.reduce_sum out inp n).threads m s ∧
      s.mem (.global out) = ∑ t ∈ Finset.range 256, taken inp n m t := by
  obtain ⟨F, m', hrun, hF, hsum⟩ := exists_reduce_block out inp n (g := ⟨1, 256⟩) Nat.one_pos rfl m
  obtain ⟨s, hs, rfl, -⟩ := exists_ends_of_block (g := ⟨1, 256⟩) (Nat.succ_pos 255) rfl hrun
    (noRace_of_owned hF)
  exact ⟨s, hs, hsum⟩

theorem sum_taken (inp n : Nat) (m : Loc → V) :
    ∑ t ∈ Finset.range 256, taken inp n m t + ∑ i ∈ Finset.Ico 256 n, m (.global (inp + i)) =
      ∑ i ∈ Finset.range n, m (.global (inp + i)) := by
  have hfirst : ∑ t ∈ Finset.range 256, taken inp n m t =
      ∑ i ∈ Finset.range (min 256 n), m (.global (inp + i)) := by
    unfold taken
    rw [← Finset.sum_filter]
    refine Finset.sum_congr (Finset.ext fun i => ?_) fun _ _ => rfl
    rw [Finset.mem_filter, Finset.mem_range, Finset.mem_range, lt_min_iff]
  have hrest : Finset.Ico 256 n = Finset.Ico (min 256 n) n := by
    ext i
    rw [Finset.mem_Ico, Finset.mem_Ico]
    omega
  rw [hfirst, hrest, Finset.sum_range_add_sum_Ico _ (min_le_right 256 n)]

end Block

/-- The elements behind the first 256 are not part of the sum. -/
theorem reduce_sum_sumsUp_iff [AddCommGroup V] (out inp n : Nat) (m : Loc → V) :
    SumsUp out inp n m ↔ ∑ i ∈ Finset.Ico 256 n, m (.global (inp + i)) = 0 := by
  obtain ⟨s, hs, hsum⟩ := exists_ends_reduce out inp n m
  have hsplit := sum_taken inp n m
  unfold SumsUp
  constructor
  · rintro ⟨s', hs', htotal⟩
    rw [hs'.unique (Nat.succ_pos 255) hs, hsum, ← hsplit] at htotal
    exact left_eq_add.mp htotal
  · intro hzero
    rw [hzero, add_zero] at hsplit
    exact ⟨s, hs, hsum.trans hsplit⟩

/-- With ones in 257 elements the sum is 256. -/
theorem the_257th_element_is_left_out : ¬ SumsUp (V := ℚ) 0 1 257 fun _ => 1 := by
  intro h
  obtain ⟨s, hs, hsum⟩ := exists_ends_reduce (V := ℚ) 0 1 257 fun _ => 1
  obtain ⟨s', hs', htotal⟩ := h
  rw [hs'.unique (Nat.succ_pos 255) hs, hsum, ← sum_taken 1 257 fun _ => (1 : ℚ)] at htotal
  have hrest := left_eq_add.mp htotal
  norm_num at hrest

end sci.bridges
