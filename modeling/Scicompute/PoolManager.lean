-- `MemoryPoolManager` (include/memory/memory_pool.hpp): pools by their block sizes, made when they
-- are asked for first. The pools link their free blocks through one memory, which the users of the
-- blocks write as well.
import Scicompute.MemoryPoolHistory

open Word Transition LinkedStack FreeList

namespace sci.pools

/-! ## What a pool writes -/

namespace FixedSizeMemoryPool

variable {p : FixedSizeMemoryPool} {page n x : Nat}

/-- The loop of `Expand` writes to the new blocks only. -/
theorem carve_next (hn : p.block_size_ * n < wordSize)
    (hx : x ∉ (Chunk.mk page p.block_size_ n).blocks) : (p.carve page n).next x = p.next x := by
  induction n with
  | zero => rfl
  | succ n ih =>
    rw [Chunk.blocks_succ, List.mem_append, not_or, List.mem_singleton] at hx
    have hlt : p.block_size_ * n < wordSize :=
      lt_of_le_of_lt (Nat.mul_le_mul_left _ (Nat.le_succ n)) hn
    have hblock : (p.carve page n).block page n = page + n * p.block_size_ := by
      have hsame : (p.carve page n).block page n = p.block page n := by simp [block]
      rw [hsame, block_eq hn (Nat.lt_succ_self n)]
    rw [carve, hblock]
    change Function.update (p.carve page n).next (page + n * p.block_size_) _ x = _
    rw [Function.update_of_ne hx.2, ih hlt hx.1]

theorem pop_next : p.Pop.1.next = p.next := by
  unfold Pop
  split_ifs <;> rfl

end FixedSizeMemoryPool

namespace PoolHistory

variable {block_size : Nat} {s s' : PoolHistory} {v : Version}

/-- A call writes to blocks of the pool only. -/
theorem Kept.next_eq (h : s.Kept block_size) {c : PoolCall}
    (hs : PoolHistory.step v s c = some s') {x : Nat} (hx : x ∉ carved s'.chunks) :
    s'.pool.next x = s.pool.next x := by
  cases c with
  | Allocate page =>
    obtain ⟨freed, heq⟩ := s.pool.allocate_eq v h.idle page
    have hnext : (s.pool.Allocate v page).1.next = (s.pool.supplied v page).next := by
      rw [heq]
      exact FixedSizeMemoryPool.pop_next
    simp only [PoolHistory.step] at hs
    cases hneeds : s.pool.needsChunk v with
    | true =>
      rw [hneeds, if_pos rfl] at hs
      split at hs
      · cases hs
        have hnot : x ∉ (s.pool.newChunk v page).blocks := fun hin =>
          hx (mem_carved.mpr ⟨_, List.mem_cons_self .., hin⟩)
        change (s.pool.Allocate v page).1.next x = _
        rw [hnext, FixedSizeMemoryPool.supplied, if_pos hneeds]
        exact FixedSizeMemoryPool.carve_next
          (p := { s.pool with chunks_ := s.pool.chunks_ ++ [page] }) (h.carvable.blocks_lt v) hnot
      · cases hs
    | false =>
      rw [hneeds, if_neg Bool.false_ne_true] at hs
      cases hs
      change (s.pool.Allocate v page).1.next x = _
      rw [hnext, FixedSizeMemoryPool.supplied, hneeds, if_neg Bool.false_ne_true]
  | Deallocate ptr =>
    simp only [PoolHistory.step] at hs
    split_ifs at hs with hlive
    cases hs
    have hne : x ≠ ptr := by
      rintro rfl
      exact hx (h.live_carved hlive)
    change (s.pool.Deallocate v ptr).next x = _
    unfold FixedSizeMemoryPool.Deallocate
    split_ifs
    · rfl
    · cases v <;> exact Function.update_of_ne hne _ _
  | SetMaxChunks max =>
    cases v with
    | memory => cases hs
    | legacy_pool =>
      cases hs
      rfl
  | SetGrowFactor grown =>
    cases v with
    | memory => cases hs
    | legacy_pool =>
      simp only [PoolHistory.step] at hs
      split_ifs at hs
      cases hs
      rfl
  | use ptr value =>
    simp only [PoolHistory.step] at hs
    split_ifs at hs with hlive
    cases hs
    have hne : x ≠ ptr := by
      rintro rfl
      exact hx (h.live_carved hlive)
    exact Function.update_of_ne hne _ _

/-- A write outside of its blocks leaves the pool in order. -/
theorem Kept.frame (h : s.Kept block_size) {next : Nat → Nat}
    (hnext : ∀ x ∈ carved s.chunks, next x = s.pool.next x) :
    Kept block_size { s with pool := { s.pool with next := next } } := by
  obtain ⟨free, hs⟩ := h.stocked
  have hchain := hs.chain.frame fun x hx => hnext x ((hs.mem_iff x).mpr (Or.inl hx))
  exact ⟨h.size, h.carvable.of_eq rfl rfl rfl, h.idle, h.cut, h.chunk, h.pages, h.nodup, free,
    hchain, hs.nodup, hs.apart, hs.mem_iff⟩

/-- The chunks after a call: those that there were, and the one that the call carves. -/
theorem step_chunks (hidle : s.pool.is_expanding_ = false) {c : PoolCall}
    (hs : step .memory s c = some s') :
    s'.pool.block_size_ = s.pool.block_size_ ∧
      s'.pool.blocks_per_chunk_ = s.pool.blocks_per_chunk_ ∧
      (s'.chunks = s.chunks ∨ ∃ page, c = .Allocate page ∧ s.pool.needsChunk .memory = true ∧
        s'.chunks = s.pool.newChunk .memory page :: s.chunks) := by
  cases c with
  | Allocate page =>
    obtain ⟨freed, heq⟩ := s.pool.allocate_eq .memory hidle page
    have hsizes : (s.pool.Allocate .memory page).1.block_size_ = s.pool.block_size_ ∧
        (s.pool.Allocate .memory page).1.blocks_per_chunk_ = s.pool.blocks_per_chunk_ := by
      rw [heq]
      simp only [FixedSizeMemoryPool.Pop, FixedSizeMemoryPool.supplied]
      split_ifs <;> simp
    simp only [step] at hs
    cases hneeds : s.pool.needsChunk .memory with
    | true =>
      rw [hneeds, if_pos rfl] at hs
      split at hs
      · cases hs
        exact ⟨hsizes.1, hsizes.2, Or.inr ⟨page, rfl, rfl, rfl⟩⟩
      · cases hs
    | false =>
      rw [hneeds, if_neg Bool.false_ne_true] at hs
      cases hs
      exact ⟨hsizes.1, hsizes.2, Or.inl rfl⟩
  | Deallocate ptr =>
    simp only [step] at hs
    split_ifs at hs
    cases hs
    unfold FixedSizeMemoryPool.Deallocate
    split_ifs <;> exact ⟨rfl, rfl, Or.inl rfl⟩
  | SetMaxChunks max => cases hs
  | SetGrowFactor grown => cases hs
  | use ptr value =>
    simp only [step] at hs
    split_ifs at hs
    cases hs
    exact ⟨rfl, rfl, Or.inl rfl⟩

end PoolHistory

/-! ## The manager -/

/-- `fixed_pools_` has these keys; a key without a pool has a new one. `memory` is what the words of
the memory hold, wherever a pool has its blocks. -/
structure MemoryPoolManager where
  fixed_pools_ : Finset Nat
  pool : Nat → PoolHistory
  memory : Nat → Nat

inductive ManagerCall
  | GetFixedPool (block_size : Nat)
  /-- A call on the pool that `GetFixedPool(block_size)` has returned. -/
  | on (block_size : Nat) (c : PoolCall)

namespace MemoryPoolManager

def kBlocksPerChunk : Nat := 256

def start (junk : Nat → Nat) : MemoryPoolManager where
  fixed_pools_ := ∅
  pool block_size := .start .memory block_size kBlocksPerChunk 0 junk
  memory := junk

/-- The pool, on the memory as it is. -/
def load (m : MemoryPoolManager) (block_size : Nat) : PoolHistory :=
  { m.pool block_size with pool := { (m.pool block_size).pool with next := m.memory } }

/-- `GetFixedPool`; the pool is named by its key. -/
def GetFixedPool (m : MemoryPoolManager) (block_size : Nat) : MemoryPoolManager :=
  if block_size ∈ m.fixed_pools_ then m
  else { m with fixed_pools_ := insert block_size m.fixed_pools_ }

/-- `operator new[]` returns memory that no pool has. -/
def Fresh (m : MemoryPoolManager) (block_size : Nat) : PoolCall → Prop
  | .Allocate page => (m.load block_size).pool.needsChunk .memory = true →
      ∀ b ∈ m.fixed_pools_, FreshRegion (m.pool b).regions page
        (mul (m.pool block_size).pool.block_size_ ((m.pool block_size).pool.blocks .memory))
  | _ => True

instance (m : MemoryPoolManager) (block_size : Nat) (c : PoolCall) :
    Decidable (m.Fresh block_size c) := by
  cases c <;> unfold Fresh <;> infer_instance

/-- The sizes that are asked for are such that a chunk fits in the address space. -/
def step (m : MemoryPoolManager) : ManagerCall → Option MemoryPoolManager
  | .GetFixedPool block_size =>
    if max block_size sizeofFreeNode * kBlocksPerChunk < wordSize then
      some (m.GetFixedPool block_size)
    else none
  | .on block_size c =>
    if block_size ∈ m.fixed_pools_ ∧ m.Fresh block_size c then
      match (m.load block_size).step .memory c with
      | none => none
      | some s => some { m with
          pool := Function.update m.pool block_size s
          memory := s.pool.next }
    else none

/-- `FixedSizeMemoryPool::TotalAllocated` -/
def TotalAllocated (p : FixedSizeMemoryPool) : Nat :=
  mul (mul p.chunks_.length p.block_size_) p.blocks_per_chunk_

def TotalMemoryUsage (m : MemoryPoolManager) : Nat :=
  (m.fixed_pools_.sort (· ≤ ·)).foldl
    (fun total size => add total (TotalAllocated (m.pool size).pool)) 0

/-! ## What the calls keep -/

/-- The blocks of a pool are as large as it was asked for, and not smaller than a `FreeNode`. -/
def sizeOf (block_size : Nat) : Nat := max block_size sizeofFreeNode

structure Inv (m : MemoryPoolManager) : Prop where
  kept : ∀ a ∈ m.fixed_pools_, (m.load a).Kept (sizeOf a)
  count : ∀ a ∈ m.fixed_pools_, (m.pool a).pool.blocks_per_chunk_ = kBlocksPerChunk ∧
    ∀ c ∈ (m.pool a).chunks, c.count = kBlocksPerChunk
  apart : ∀ a ∈ m.fixed_pools_, ∀ b ∈ m.fixed_pools_, a ≠ b →
    ∀ c ∈ (m.pool a).chunks, ∀ d ∈ (m.pool b).chunks, c.Apart d
  new : ∀ a ∉ m.fixed_pools_, ∃ junk, m.pool a = .start .memory a kBlocksPerChunk 0 junk

variable {m m' : MemoryPoolManager} {a : Nat}

theorem inv_start (junk : Nat → Nat) : (start junk).Inv where
  kept b hb := absurd hb (Finset.notMem_empty b)
  count b hb := absurd hb (Finset.notMem_empty b)
  apart b hb := absurd hb (Finset.notMem_empty b)
  new _ _ := ⟨junk, rfl⟩

/-- A pool that is made has no chunk. -/
theorem Inv.getFixedPool (h : m.Inv) (hsize : sizeOf a * kBlocksPerChunk < wordSize) :
    (m.GetFixedPool a).Inv := by
  unfold GetFixedPool
  split_ifs with ha
  · exact h
  obtain ⟨junk, hnew⟩ := h.new a ha
  have hchunks : (m.pool a).chunks = [] := by
    rw [hnew]
    rfl
  refine ⟨?_, ?_, ?_, ?_⟩
  · intro b hb
    rcases Finset.mem_insert.mp hb with rfl | hb
    · change (m.load b).Kept (sizeOf b)
      rw [load, hnew]
      let p := { (PoolHistory.start .memory b kBlocksPerChunk 0 junk).pool with next := m.memory }
      have hcarvable : Carvable p :=
        ⟨⟨lt_of_lt_of_le (by decide) (Nat.le_max_right b sizeofFreeNode), hsize,
          fun n hn => by cases hn⟩, Nat.succ_pos 255, fun n hn => by cases hn⟩
      exact PoolHistory.kept_empty (p := p) rfl hcarvable rfl rfl rfl
    · exact h.kept b hb
  · intro b hb
    rcases Finset.mem_insert.mp hb with rfl | hb
    · refine ⟨by rw [hnew]; rfl, ?_⟩
      intro c hc
      rw [hchunks] at hc
      cases hc
    · exact h.count b hb
  · intro b hb b' hb' hne c hc d hd
    rcases Finset.mem_insert.mp hb with rfl | hb
    · rw [hchunks] at hc
      cases hc
    · rcases Finset.mem_insert.mp hb' with rfl | hb'
      · rw [hchunks] at hd
        cases hd
      · exact h.apart b hb b' hb' hne c hc d hd
  · intro b hb
    exact h.new b fun hm => hb (Finset.mem_insert_of_mem hm)

/-- The chunks of a pool after a call are apart from those of the other pools. -/
theorem Inv.apart_step (h : m.Inv) (ha : a ∈ m.fixed_pools_) {c : PoolCall} (hfresh : m.Fresh a c)
    {s : PoolHistory} (hs : (m.load a).step .memory c = some s) {b : Nat} (hb : b ∈ m.fixed_pools_)
    (hne : a ≠ b) : ∀ c ∈ s.chunks, ∀ d ∈ (m.pool b).chunks, c.Apart d := by
  have hk := h.kept a ha
  obtain ⟨-, -, hchunks⟩ := PoolHistory.step_chunks hk.idle hs
  rcases hchunks with hsame | ⟨page, rfl, hneeds, hnew⟩
  · rw [hsame]
    exact h.apart a ha b hb hne
  · rw [hnew]
    intro c hc d hd
    rcases List.mem_cons.mp hc with rfl | hc
    · have hbytes : (m.pool a).pool.block_size_ * (m.pool a).pool.blocks .memory < wordSize :=
        hk.carvable.blocks_lt .memory
      have hregion := hfresh hneeds b hb
      rw [mul_of_lt hbytes] at hregion
      exact PoolHistory.apart_of_fresh (s := m.pool b) hregion d hd
    · exact h.apart a ha b hb hne c hc d hd

/-- A call on one pool writes to no block of another one. -/
theorem Inv.on (h : m.Inv) (ha : a ∈ m.fixed_pools_) {c : PoolCall} (hfresh : m.Fresh a c)
    {s : PoolHistory} (hs : (m.load a).step .memory c = some s) :
    Inv { m with pool := Function.update m.pool a s, memory := s.pool.next } := by
  have hk := h.kept a ha
  have hks := hk.step hs
  have hapart := fun b hb hne => h.apart_step ha hfresh hs (b := b) hb hne
  refine ⟨?_, ?_, ?_, ?_⟩
  · intro b hb
    by_cases hba : b = a
    · subst hba
      simpa [load] using hks
    · have hload : load { m with pool := Function.update m.pool a s, memory := s.pool.next } b =
          { m.load b with pool := { (m.load b).pool with next := s.pool.next } } := by
        simp [load, hba]
      rw [hload]
      apply (h.kept b hb).frame
      intro x hx
      apply hk.next_eq hs
      intro hin
      obtain ⟨d, hd, hxd⟩ := mem_carved.mp hx
      obtain ⟨e, he, hxe⟩ := mem_carved.mp hin
      exact (hapart b hb (Ne.symm hba) e he d hd).not_mem (hks.cut.pos e he)
        ((h.kept b hb).cut.pos d hd) hxe hxd
  · intro b hb
    by_cases hba : b = a
    · subst hba
      simp only [Function.update_self]
      obtain ⟨hper, hcount⟩ := h.count b ha
      obtain ⟨-, hblocks, hchunks⟩ := PoolHistory.step_chunks hk.idle hs
      refine ⟨hblocks.trans hper, ?_⟩
      rcases hchunks with hsame | ⟨page, -, -, hnew⟩
      · rw [hsame]
        exact hcount
      · rw [hnew]
        intro c hc
        rcases List.mem_cons.mp hc with rfl | hc
        · exact hper
        · exact hcount c hc
    · simpa [hba] using h.count b hb
  · intro b hb b' hb' hne c hc d hd
    by_cases hba : b = a
    · subst hba
      simp only [Function.update_self, Function.update_of_ne (Ne.symm hne)] at hc hd
      exact hapart b' hb' hne c hc d hd
    · simp only [Function.update_of_ne hba] at hc
      by_cases hba' : b' = a
      · subst hba'
        simp only [Function.update_self] at hd
        exact (hapart b hb (Ne.symm hba) d hd c hc).symm
      · simp only [Function.update_of_ne hba'] at hd
        exact h.apart b hb b' hb' hne c hc d hd
  · intro b hb
    have hba : b ≠ a := by
      rintro rfl
      exact hb ha
    simpa [hba] using h.new b hb

theorem Inv.step {c : ManagerCall} (h : m.Inv) (hs : m.step c = some m') : m'.Inv := by
  cases c with
  | GetFixedPool block_size =>
    simp only [MemoryPoolManager.step] at hs
    split_ifs at hs with hsize
    cases hs
    exact h.getFixedPool hsize
  | on block_size c =>
    simp only [MemoryPoolManager.step] at hs
    split_ifs at hs with hon
    split at hs
    · cases hs
    · rename_i s hstep
      cases hs
      exact h.on hon.1 hon.2 hstep

/-! ## The pools together -/

/-- The bytes of the chunks of a pool. -/
def reserved (s : PoolHistory) : Nat := (s.chunks.map Chunk.bytes).sum

theorem Inv.totalAllocated (h : m.Inv) (ha : a ∈ m.fixed_pools_) :
    TotalAllocated (m.pool a).pool = reserved (m.pool a) % wordSize := by
  have hk := h.kept a ha
  obtain ⟨hper, hcount⟩ := h.count a ha
  have hpages : (m.pool a).pool.chunks_ = ((m.pool a).chunks.map Chunk.page).reverse := hk.pages
  have hsize : (m.pool a).pool.block_size_ = sizeOf a := hk.size
  have hbytes : ∀ c ∈ (m.pool a).chunks, c.bytes = sizeOf a * kBlocksPerChunk := by
    intro c hc
    rw [Chunk.bytes, (hk.chunk c hc).1, hcount c hc]
  have hsum : reserved (m.pool a) =
      (m.pool a).chunks.length * (sizeOf a * kBlocksPerChunk) := by
    rw [reserved, List.map_congr_left hbytes, List.map_const', List.sum_replicate, smul_eq_mul]
  rw [TotalAllocated, hpages, hsize, hper, hsum, List.length_reverse, List.length_map, mul, mul,
    Nat.mod_mul_mod, Nat.mul_assoc]

theorem foldl_add {α : Type*} (f : α → Nat) (l : List α) {total : Nat} (ht : total < wordSize) :
    l.foldl (fun total x => add total (f x)) total = (total + (l.map f).sum) % wordSize := by
  induction l generalizing total with
  | nil => simpa using (Nat.mod_eq_of_lt ht).symm
  | cons x l ih =>
    have hrest := ih (Nat.mod_lt (total + f x) (by decide : 0 < wordSize))
    rw [Nat.mod_add_mod, Nat.add_assoc] at hrest
    exact hrest

/-- `TotalMemoryUsage` is what the pools have got from `operator new[]`, modulo 2^64. -/
theorem Inv.totalMemoryUsage (h : m.Inv) :
    m.TotalMemoryUsage = (∑ a ∈ m.fixed_pools_, reserved (m.pool a)) % wordSize := by
  have hsum : ((m.fixed_pools_.sort (· ≤ ·)).map fun a => TotalAllocated (m.pool a).pool).sum =
      ∑ a ∈ m.fixed_pools_, TotalAllocated (m.pool a).pool := by
    rw [Finset.sum, ← Finset.sort_eq m.fixed_pools_ (· ≤ ·), Multiset.map_coe, Multiset.sum_coe]
  rw [TotalMemoryUsage, foldl_add _ _ (by decide), Nat.zero_add, hsum, Finset.sum_nat_mod,
    Finset.sum_nat_mod m.fixed_pools_ _ fun a => reserved (m.pool a)]
  congr 1
  apply Finset.sum_congr rfl
  intro a ha
  rw [h.totalAllocated ha, Nat.mod_mod]

/-- Two pools, whose chunks lie side by side; a block of each is written. -/
def twoPools : List ManagerCall :=
  [.GetFixedPool 16, .GetFixedPool 5, .on 16 (.Allocate 4096), .on 5 (.Allocate 8192),
    .GetFixedPool 16, .on 16 (.use 8176 10240), .on 5 (.use 10232 4096), .on 16 (.Deallocate 8176)]

end MemoryPoolManager

end sci.pools
