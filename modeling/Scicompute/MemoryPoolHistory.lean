-- The pools of blocks of one size in the hands of one caller at a time. The functions here are
-- whole calls, and a history is any sequence of them, with the writes of the caller to its blocks
-- between them. `operator new[]` always succeeds.
import Scicompute.FreeList
import Scicompute.MemoryPoolRuns

open Word Transition LinkedStack FreeList

namespace sci.pools

/-! ## Calls -/

namespace FixedSizeMemoryPool

/-- A whole `LockFreeStack::Pop`, by one thread alone. -/
def Pop (p : FixedSizeMemoryPool) : FixedSizeMemoryPool × Nat :=
  if p.head_ = 0 then (p, 0) else ({ p with head_ := p.next p.head_ }, p.head_)

/-- `operator new[]` returns `page` when it is called. -/
def Expand (p : FixedSizeMemoryPool) (v : Version) (page : Nat) : FixedSizeMemoryPool :=
  match v with
  | .memory => { p with chunks_ := p.chunks_ ++ [page] }.carve page p.blocks_per_chunk_
  | .legacy_pool =>
    if p.atLimit then p
    else { p with chunks_ := p.chunks_ ++ [page] }.carve page (p.blocks .legacy_pool)

/-- `Allocate` after a `Pop` that returned null. -/
def popAgain (p : FixedSizeMemoryPool) (v : Version) (page : Nat) : FixedSizeMemoryPool × Nat :=
  match v with
  | .memory => (p.Expand .memory page).Pop
  | .legacy_pool =>
    if p.is_expanding_ then p.Pop
    else
      { { p with is_expanding_ := true }.Expand .legacy_pool page with is_expanding_ := false }.Pop

/-- The pool, and the pointer that is returned. -/
def Allocate (p : FixedSizeMemoryPool) (v : Version) (page : Nat) : FixedSizeMemoryPool × Nat :=
  let r := if p.Pop.2 = 0 then p.Pop.1.popAgain v page else p.Pop
  match v with
  | .memory => r
  | .legacy_pool =>
    if r.2 = 0 then r
    else ({ r.1 with total_freed_ := sub r.1.total_freed_ r.1.block_size_ }, r.2)

def Deallocate (p : FixedSizeMemoryPool) (v : Version) (ptr : Nat) : FixedSizeMemoryPool :=
  if ptr = 0 then p
  else
    match v with
    | .memory => p.Push ptr
    | .legacy_pool => { p.Push ptr with total_freed_ := add p.total_freed_ p.block_size_ }

/-- `Allocate` carves a chunk. -/
def needsChunk (p : FixedSizeMemoryPool) : Version → Bool
  | .memory => decide (p.head_ = 0)
  | .legacy_pool => decide (p.head_ = 0) && !p.is_expanding_ && !p.atLimit

end FixedSizeMemoryPool

/-- The pool, the blocks that the caller holds, and the chunks of the pool. -/
structure PoolHistory where
  pool : FixedSizeMemoryPool
  live : List Nat
  chunks : List Chunk

inductive PoolCall
  /-- `page` is what `operator new[]` returns when the call carves a chunk. -/
  | Allocate (page : Nat)
  | Deallocate (ptr : Nat)
  | SetMaxChunks (max : Nat)
  /-- `grown` is `static_cast<size_t>(blocks_per_chunk_ * factor)` when `factor > 1.0`. -/
  | SetGrowFactor (grown : Option Nat)
  /-- The caller writes the first word of a block that it holds. -/
  | use (ptr value : Nat)

namespace PoolHistory

def start (v : Version) (block_size blocks_per_chunk page : Nat) (junk : Nat → Nat) :
    PoolHistory where
  pool := construct v block_size blocks_per_chunk page junk
  live := []
  chunks :=
    match v with
    | .memory => []
    | .legacy_pool => [⟨page, align_up block_size kDefaultAlignment, blocks_per_chunk⟩]

def regions (s : PoolHistory) : List (Nat × Nat) := s.chunks.map fun c => (c.page, c.bytes)

/-- A call that the caller may make: it frees and writes its own blocks only, no chunk gets larger
than the address space, and `operator new[]` returns a fresh region. -/
def step (v : Version) (s : PoolHistory) : PoolCall → Option PoolHistory
  | .Allocate page =>
    let r := s.pool.Allocate v page
    let live := if r.2 = 0 then s.live else r.2 :: s.live
    if s.pool.needsChunk v then
      if FreshRegion s.regions page (mul s.pool.block_size_ (s.pool.blocks v)) then
        some ⟨r.1, live, ⟨page, s.pool.block_size_, s.pool.blocks v⟩ :: s.chunks⟩
      else none
    else some ⟨r.1, live, s.chunks⟩
  | .Deallocate ptr =>
    if ptr ∈ s.live then some { s with pool := s.pool.Deallocate v ptr, live := s.live.erase ptr }
    else none
  | .SetMaxChunks max =>
    match v with
    | .memory => none
    | .legacy_pool => some { s with pool := { s.pool with max_chunks_ := max } }
  | .SetGrowFactor grown =>
    match v with
    | .memory => none
    | .legacy_pool =>
      if ∀ n ∈ grown, 0 < n ∧ s.pool.block_size_ * n < wordSize then
        some { s with pool := { s.pool with grown_blocks := grown } }
      else none
  | .use ptr value =>
    if ptr ∈ s.live then
      some { s with pool := { s.pool with next := Function.update s.pool.next ptr value } }
    else none

end PoolHistory

/-! ## The sizes of a pool -/

/-- The mask of `align_up` clears the last four bits. -/
theorem and_mask {x : Nat} (hx : x < wordSize) :
    x &&& (wordSize - 1 - sub kDefaultAlignment 1) = x / kDefaultAlignment * kDefaultAlignment := by
  obtain ⟨k, r, hr, rfl⟩ : ∃ k r, r < 16 ∧ x = 16 * k + r :=
    ⟨x / 16, x % 16, Nat.mod_lt _ (by decide), (Nat.div_add_mod x 16).symm⟩
  have hk : k < 2 ^ 60 := by
    unfold wordSize at hx
    omega
  have hmask : wordSize - 1 - sub kDefaultAlignment 1 = 2 ^ 4 * (2 ^ 60 - 1) + 0 := by decide
  have hright : (16 * k + r) / kDefaultAlignment * kDefaultAlignment = 2 ^ 4 * k + 0 := by
    unfold kDefaultAlignment
    omega
  rw [hmask, hright, show 16 * k + r = 2 ^ 4 * k + r by omega]
  apply Nat.eq_of_testBit_eq
  intro j
  rw [Nat.testBit_and, Nat.testBit_two_pow_mul_add _ (by omega),
    Nat.testBit_two_pow_mul_add _ (by decide), Nat.testBit_two_pow_mul_add _ (by decide)]
  split_ifs with hj
  · simp
  · rw [Nat.testBit_two_pow_sub_one, Bool.and_eq_left_iff_imp, decide_eq_true_iff]
    intro hbit
    have hge := Nat.ge_two_pow_of_testBit hbit
    by_contra hlarge
    have hpow : 2 ^ 60 ≤ 2 ^ (j - 4) := Nat.pow_le_pow_right (by decide) (by omega)
    omega

theorem align_up_eq {n : Nat} (hn : n + 15 < wordSize) :
    align_up n kDefaultAlignment = (n + 15) / kDefaultAlignment * kDefaultAlignment := by
  have hsum : sub (add n kDefaultAlignment) 1 = n + 15 := by
    unfold sub add wordSize kDefaultAlignment at *
    omega
  rw [align_up, hsum, and_mask hn]

/-- The sum of the last sizes wraps around. -/
theorem align_up_of_ge {n : Nat} (hn : n < wordSize) (hwrap : wordSize ≤ n + 15) :
    align_up n kDefaultAlignment = 0 := by
  have hsum : sub (add n kDefaultAlignment) 1 = n + 15 - wordSize := by
    unfold sub add wordSize kDefaultAlignment at *
    omega
  have hlt : n + 15 - wordSize < wordSize := by
    unfold wordSize at *
    omega
  have hsmall : (n + 15 - wordSize) / kDefaultAlignment = 0 := by
    unfold kDefaultAlignment
    omega
  rw [align_up, hsum, and_mask hlt, hsmall, Nat.zero_mul]

theorem align_up_of_dvd {n : Nat} (h : kDefaultAlignment ∣ n) (hn : n < wordSize) :
    align_up n kDefaultAlignment = n := by
  obtain ⟨k, rfl⟩ := h
  have hlt : kDefaultAlignment * k + 15 < wordSize := by
    unfold kDefaultAlignment wordSize at *
    omega
  rw [align_up_eq hlt]
  unfold kDefaultAlignment
  omega

theorem dvd_align_up {n : Nat} (hn : n < wordSize) :
    kDefaultAlignment ∣ align_up n kDefaultAlignment := by
  by_cases hwrap : n + 15 < wordSize
  · rw [align_up_eq hwrap]
    exact Nat.dvd_mul_left ..
  · rw [align_up_of_ge hn (by omega)]
    exact Nat.dvd_zero _

/-- The sizes are good, and a new chunk has a block. -/
structure Carvable (p : FixedSizeMemoryPool) : Prop extends Sized p where
  count : 0 < p.blocks_per_chunk_
  grown_count : ∀ n, p.grown_blocks = some n → 0 < n

theorem Carvable.blocks_pos {p : FixedSizeMemoryPool} (h : Carvable p) (v : Version) :
    0 < p.blocks v := by
  unfold FixedSizeMemoryPool.blocks
  cases v with
  | memory => exact h.count
  | legacy_pool =>
    cases hg : p.grown_blocks with
    | none => exact h.count
    | some n =>
      simp only
      split
      · exact h.count
      · exact h.grown_count n hg

theorem Carvable.of_eq {p p' : FixedSizeMemoryPool} (h : Carvable p)
    (h1 : p'.block_size_ = p.block_size_) (h2 : p'.blocks_per_chunk_ = p.blocks_per_chunk_)
    (h3 : p'.grown_blocks = p.grown_blocks) : Carvable p' :=
  ⟨h.toSized.of_eq h1 h2 h3, h2 ▸ h.count, h3 ▸ h.grown_count⟩

namespace FixedSizeMemoryPool

/-! ## Allocate -/

variable {p : FixedSizeMemoryPool} {page n : Nat}

@[simp] theorem carve_grown_blocks : (p.carve page n).grown_blocks = p.grown_blocks := by
  induction n with
  | zero => rfl
  | succ n ih => exact ih

@[simp] theorem carve_is_expanding_ : (p.carve page n).is_expanding_ = p.is_expanding_ := by
  induction n with
  | zero => rfl
  | succ n ih => exact ih

@[simp] theorem carve_max_chunks_ : (p.carve page n).max_chunks_ = p.max_chunks_ := by
  induction n with
  | zero => rfl
  | succ n ih => exact ih

/-- The chunk that a call carves. -/
def newChunk (p : FixedSizeMemoryPool) (v : Version) (page : Nat) : Chunk :=
  ⟨page, p.block_size_, p.blocks v⟩

/-- The pool whose free list `Allocate` pops in the end. -/
def supplied (p : FixedSizeMemoryPool) (v : Version) (page : Nat) : FixedSizeMemoryPool :=
  if p.needsChunk v then { p with chunks_ := p.chunks_ ++ [page] }.carve page (p.blocks v) else p

theorem carve_expanding (p : FixedSizeMemoryPool) (page n : Nat) (b : Bool) :
    { p with is_expanding_ := b }.carve page n = { p.carve page n with is_expanding_ := b } := by
  induction n with
  | zero => rfl
  | succ n ih =>
    rw [carve, ih]
    rfl

theorem expand_expanding (p : FixedSizeMemoryPool) (page : Nat) (b : Bool) :
    { p with is_expanding_ := b }.Expand .legacy_pool page =
      { p.Expand .legacy_pool page with is_expanding_ := b } := by
  change (if p.atLimit then { p with is_expanding_ := b }
    else { { p with chunks_ := p.chunks_ ++ [page] } with is_expanding_ := b }.carve page
      (p.blocks .legacy_pool)) = _
  rw [carve_expanding, Expand]
  split_ifs <;> rfl

theorem expand_eq_supplied (v : Version) (hidle : p.is_expanding_ = false) (hhead : p.head_ = 0)
    (page : Nat) : p.Expand v page = p.supplied v page := by
  cases v with
  | memory => simp [Expand, supplied, needsChunk, hhead, blocks]
  | legacy_pool =>
    simp only [Expand, supplied, needsChunk, hhead, hidle, decide_true, Bool.true_and,
      Bool.not_false]
    cases p.atLimit <;> rfl

theorem popAgain_eq (v : Version) (hidle : p.is_expanding_ = false) (hhead : p.head_ = 0)
    (page : Nat) : p.popAgain v page = (p.supplied v page).Pop := by
  rw [← expand_eq_supplied v hidle hhead]
  cases v with
  | memory => rfl
  | legacy_pool =>
    have hsame : { p with is_expanding_ := false } = p := by rw [← hidle]
    have hexpand : { p.Expand .legacy_pool page with is_expanding_ := false } =
        p.Expand .legacy_pool page := by rw [← expand_expanding, hsame]
    simp only [popAgain, hidle, Bool.false_eq_true, if_false, expand_expanding, hexpand]

/-- `Allocate` pops the pool that has got its chunk. -/
theorem allocate_eq (v : Version) (hidle : p.is_expanding_ = false) (page : Nat) :
    ∃ freed, p.Allocate v page =
      ({ (p.supplied v page).Pop.1 with total_freed_ := freed }, (p.supplied v page).Pop.2) := by
  have hpop : (if p.Pop.2 = 0 then p.Pop.1.popAgain v page else p.Pop) =
      (p.supplied v page).Pop := by
    by_cases hhead : p.head_ = 0
    · have hnull : p.Pop = (p, 0) := by simp [Pop, hhead]
      rw [hnull]
      exact popAgain_eq v hidle hhead page
    · have hsome : p.Pop.2 ≠ 0 := by simp [Pop, hhead]
      have hsame : p.supplied v page = p := by
        cases v <;> simp [supplied, needsChunk, hhead]
      rw [if_neg hsome, hsame]
  unfold Allocate
  rw [hpop]
  cases v with
  | memory => exact ⟨_, rfl⟩
  | legacy_pool =>
    simp only
    split
    · exact ⟨_, rfl⟩
    · exact ⟨_, rfl⟩

theorem allocate_max_chunks_ (v : Version) (hidle : p.is_expanding_ = false) (page : Nat) :
    (p.Allocate v page).1.max_chunks_ = p.max_chunks_ := by
  obtain ⟨freed, heq⟩ := p.allocate_eq v hidle page
  rw [heq]
  change (p.supplied v page).Pop.1.max_chunks_ = _
  unfold Pop supplied
  split_ifs <;> simp

end FixedSizeMemoryPool

/-! ## The invariant -/

namespace PoolHistory

/-- Every block that was carved is on the free list or live, once, and the chunks are those of the
pool. -/
structure Kept (block_size : Nat) (s : PoolHistory) : Prop where
  size : s.pool.block_size_ = block_size
  carvable : Carvable s.pool
  idle : s.pool.is_expanding_ = false
  cut : Cut s.chunks
  chunk : ∀ c ∈ s.chunks, c.size = block_size ∧ 0 < c.page
  pages : s.pool.chunks_ = (s.chunks.map Chunk.page).reverse
  nodup : s.live.Nodup
  stocked : ∃ free, Stocked 0 s.pool.next s.pool.head_ free {x | x ∈ s.live}
    {x | x ∈ carved s.chunks}

variable {block_size page : Nat} {s : PoolHistory} {v : Version}

theorem Kept.ne_zero (h : s.Kept block_size) {x : Nat} (hx : x ∈ carved s.chunks) : x ≠ 0 := by
  obtain ⟨c, hc, hxc⟩ := mem_carved.mp hx
  have hpage := (h.chunk c hc).2
  have hwithin := Chunk.within hxc
  omega

theorem Kept.live_carved (h : s.Kept block_size) {x : Nat} (hx : x ∈ s.live) :
    x ∈ carved s.chunks := by
  obtain ⟨free, hs⟩ := h.stocked
  exact (hs.mem_iff x).mpr (Or.inr hx)

/-- A fresh region is apart from the chunks. -/
theorem apart_of_fresh {c : Chunk} (hfresh : FreshRegion s.regions c.page c.bytes) :
    ∀ d ∈ s.chunks, c.Apart d := by
  intro d hd
  have hregion := hfresh.2.2 (d.page, d.bytes) (List.mem_map_of_mem hd)
  exact hregion.symm

/-- The step that carves a chunk, before its pop. -/
theorem Kept.supply (h : s.Kept block_size) (hneeds : s.pool.needsChunk v = true)
    (hfresh : FreshRegion s.regions page (mul s.pool.block_size_ (s.pool.blocks v))) :
    Kept block_size ⟨s.pool.supplied v page, s.live, s.pool.newChunk v page :: s.chunks⟩ ∧
      (s.pool.supplied v page).head_ ≠ 0 := by
  have hbytes := h.carvable.blocks_lt v
  have hpos := h.carvable.pos
  rw [mul_of_lt hbytes] at hfresh
  have hpage : 0 < page := hfresh.1
  have hapart : ∀ d ∈ s.chunks, (s.pool.newChunk v page).Apart d := apart_of_fresh hfresh
  have hnew : ∀ x ∈ (s.pool.newChunk v page).blocks, x ∉ carved s.chunks := by
    intro x hx hc
    obtain ⟨d, hd, hxd⟩ := mem_carved.mp hc
    exact (hapart d hd).not_mem hpos (h.cut.pos d hd) hx hxd
  have hsupplied : s.pool.supplied v page =
      { s.pool with chunks_ := s.pool.chunks_ ++ [page] }.carve page (s.pool.blocks v) := by
    rw [FixedSizeMemoryPool.supplied, if_pos hneeds]
  rw [hsupplied]
  obtain ⟨free, hs⟩ := h.stocked
  obtain ⟨free', hs'⟩ := FixedSizeMemoryPool.carve_stocked
    (p := { s.pool with chunks_ := s.pool.chunks_ ++ [page] }) (n := s.pool.blocks v) hs hpos hpage
    hbytes hnew
  refine ⟨?_, FixedSizeMemoryPool.head_carve_ne_zero hpage hbytes (h.carvable.blocks_pos v)⟩
  constructor
  · simpa using h.size
  · exact h.carvable.of_eq (by simp) (by simp) (by simp)
  · simpa using h.idle
  · exact h.cut.cons hpos hapart
  · intro c hc
    rcases List.mem_cons.mp hc with rfl | hc
    · exact ⟨h.size, hpage⟩
    · exact h.chunk c hc
  · simp [h.pages, FixedSizeMemoryPool.newChunk]
  · exact h.nodup
  · refine ⟨free', ?_⟩
    have hset : {x | x ∈ carved (s.pool.newChunk v page :: s.chunks)} =
        {x | x ∈ (s.pool.newChunk v page).blocks} ∪ {x | x ∈ carved s.chunks} := by
      ext x
      simp [carved]
    rw [hset]
    exact hs'

/-- A pop of a free list that is not empty, and what `Allocate` counts after it. -/
theorem Kept.pop (h : s.Kept block_size) (hne : s.pool.head_ ≠ 0) (freed : Nat) :
    s.pool.Pop.2 = s.pool.head_ ∧ s.pool.head_ ∉ s.live ∧ s.pool.head_ ∈ carved s.chunks ∧
      Kept block_size ⟨{ s.pool.Pop.1 with total_freed_ := freed }, s.pool.head_ :: s.live,
        s.chunks⟩ := by
  obtain ⟨free, hs⟩ := h.stocked
  obtain ⟨rest, rfl, hpop⟩ := hs.pop hne
  have hfree : s.pool.head_ ∉ s.live := hs.apart _ (List.mem_cons_self ..)
  have hcarved : s.pool.head_ ∈ carved s.chunks :=
    (hs.mem_iff _).mpr (Or.inl (List.mem_cons_self ..))
  have hpool : s.pool.Pop = ({ s.pool with head_ := s.pool.next s.pool.head_ }, s.pool.head_) := by
    rw [FixedSizeMemoryPool.Pop, if_neg hne]
  rw [hpool]
  refine ⟨rfl, hfree, hcarved, ?_⟩
  constructor
  · exact h.size
  · exact h.carvable.of_eq rfl rfl rfl
  · exact h.idle
  · exact h.cut
  · exact h.chunk
  · exact h.pages
  · exact List.nodup_cons.mpr ⟨hfree, h.nodup⟩
  · refine ⟨rest, ?_⟩
    have hset : {x | x ∈ s.pool.head_ :: s.live} = insert s.pool.head_ {x | x ∈ s.live} := by
      ext x
      simp
    rw [hset]
    exact hpop

/-- What a call of `Allocate` does: it returns a block that was not live, or null when no block is
free and the limit of the chunks is reached. -/
structure Allocates (v : Version) (s : PoolHistory) (page : Nat) (s' : PoolHistory) : Prop where
  block : (s.pool.Allocate v page).2 ≠ 0 →
    (s.pool.Allocate v page).2 ∉ s.live ∧ (s.pool.Allocate v page).2 ∈ carved s'.chunks ∧
      s'.live = (s.pool.Allocate v page).2 :: s.live
  null : (s.pool.Allocate v page).2 = 0 →
    s.pool.head_ = 0 ∧ v = .legacy_pool ∧ s.pool.atLimit = true ∧ s'.live = s.live

/-- The state after a call of `Allocate`, with the chunks that the pool has by then. -/
def allocated (v : Version) (s : PoolHistory) (page : Nat) (chunks : List Chunk) : PoolHistory :=
  ⟨(s.pool.Allocate v page).1,
    if (s.pool.Allocate v page).2 = 0 then s.live else (s.pool.Allocate v page).2 :: s.live, chunks⟩

/-- The call pops a block. -/
theorem Kept.returned {chunks : List Chunk} (hidle : s.pool.is_expanding_ = false)
    (h : Kept block_size ⟨s.pool.supplied v page, s.live, chunks⟩)
    (hne : (s.pool.supplied v page).head_ ≠ 0) :
    s.Allocates v page (s.allocated v page chunks) ∧
      (s.allocated v page chunks).Kept block_size := by
  obtain ⟨freed, heq⟩ := s.pool.allocate_eq v hidle page
  obtain ⟨hptr, hnot, hmem, hk⟩ := h.pop hne freed
  simp only at hptr hnot hmem hk
  rw [hptr] at heq
  have hstate : s.allocated v page chunks =
      ⟨{ (s.pool.supplied v page).Pop.1 with total_freed_ := freed },
        (s.pool.supplied v page).head_ :: s.live, chunks⟩ := by
    simp only [allocated, heq, if_neg hne]
  rw [hstate]
  refine ⟨⟨fun _ => ?_, fun h0 => ?_⟩, hk⟩
  · rw [heq]
    exact ⟨hnot, hmem, rfl⟩
  · rw [heq] at h0
    exact absurd h0 hne

/-- The call finds no block and carves none. -/
theorem Kept.refused (h : s.Kept block_size) (hneeds : s.pool.needsChunk v = false)
    (hhead : s.pool.head_ = 0) :
    s.Allocates v page (s.allocated v page s.chunks) ∧
      (s.allocated v page s.chunks).Kept block_size := by
  have hlimit : v = .legacy_pool ∧ s.pool.atLimit = true := by
    cases v with
    | memory => simp [FixedSizeMemoryPool.needsChunk, hhead] at hneeds
    | legacy_pool =>
      exact ⟨rfl, by simpa [FixedSizeMemoryPool.needsChunk, hhead, h.idle] using hneeds⟩
  obtain ⟨freed, heq⟩ := s.pool.allocate_eq v h.idle page
  have hpop : (s.pool.supplied v page).Pop = (s.pool, 0) := by
    simp [FixedSizeMemoryPool.supplied, hneeds, FixedSizeMemoryPool.Pop, hhead]
  rw [hpop] at heq
  have hstate : s.allocated v page s.chunks = { s with
      pool := { s.pool with total_freed_ := freed } } := by
    simp only [allocated, heq, if_true]
  rw [hstate]
  refine ⟨⟨fun h0 => ?_, fun _ => ⟨hhead, hlimit.1, hlimit.2, rfl⟩⟩, ?_⟩
  · rw [heq] at h0
    exact absurd rfl h0
  · exact ⟨h.size, h.carvable.of_eq rfl rfl rfl, h.idle, h.cut, h.chunk, h.pages, h.nodup,
      h.stocked⟩

theorem Kept.allocate (h : s.Kept block_size) {s' : PoolHistory}
    (hstep : step v s (.Allocate page) = some s') :
    s.Allocates v page s' ∧ s'.Kept block_size := by
  simp only [step] at hstep
  cases hneeds : s.pool.needsChunk v with
  | true =>
    rw [hneeds, if_pos rfl] at hstep
    split at hstep
    · rename_i hfresh
      cases hstep
      obtain ⟨hk, hne⟩ := h.supply hneeds hfresh
      exact hk.returned h.idle hne
    · cases hstep
  | false =>
    rw [hneeds, if_neg Bool.false_ne_true] at hstep
    cases hstep
    by_cases hhead : s.pool.head_ = 0
    · exact h.refused hneeds hhead
    · have hsame : s.pool.supplied v page = s.pool := by
        simp [FixedSizeMemoryPool.supplied, hneeds]
      have hk : Kept block_size ⟨s.pool.supplied v page, s.live, s.chunks⟩ := by
        rw [hsame]
        exact h
      exact hk.returned h.idle (by rw [hsame]; exact hhead)

/-- A block goes back to the free list. -/
theorem Kept.deallocate (h : s.Kept block_size) {ptr : Nat} (hlive : ptr ∈ s.live) :
    Kept block_size { s with pool := s.pool.Deallocate v ptr, live := s.live.erase ptr } := by
  have hne := h.ne_zero (h.live_carved hlive)
  obtain ⟨free, hs⟩ := h.stocked
  have hpush := hs.push hne hlive
  have hset : {x | x ∈ s.live} \ {ptr} = {x | x ∈ s.live.erase ptr} := by
    ext x
    simp [h.nodup.mem_erase_iff, and_comm]
  rw [hset] at hpush
  have hpool : ∃ freed, s.pool.Deallocate v ptr =
      { s.pool.Push ptr with total_freed_ := freed } := by
    cases v with
    | memory => exact ⟨s.pool.total_freed_, by simp [FixedSizeMemoryPool.Deallocate, hne]; rfl⟩
    | legacy_pool => exact ⟨_, by simp [FixedSizeMemoryPool.Deallocate, hne]; rfl⟩
  obtain ⟨freed, hpool⟩ := hpool
  rw [hpool]
  exact ⟨h.size, h.carvable.of_eq rfl rfl rfl, h.idle, h.cut, h.chunk, h.pages,
    h.nodup.erase ptr, ptr :: free, hpush⟩

/-- The caller writes to a block that it holds. -/
theorem Kept.use (h : s.Kept block_size) {ptr : Nat} (hlive : ptr ∈ s.live) (value : Nat) :
    Kept block_size
      { s with pool := { s.pool with next := Function.update s.pool.next ptr value } } := by
  obtain ⟨free, hs⟩ := h.stocked
  have hnot : ptr ∉ free := fun hf => hs.apart ptr hf hlive
  exact ⟨h.size, h.carvable.of_eq rfl rfl rfl, h.idle, h.cut, h.chunk, h.pages, h.nodup,
    free, hs.write hnot value⟩

theorem Kept.step {s' : PoolHistory} {c : PoolCall} (h : s.Kept block_size)
    (hstep : step v s c = some s') : s'.Kept block_size := by
  cases c with
  | Allocate page => exact (h.allocate hstep).2
  | Deallocate ptr =>
    simp only [PoolHistory.step] at hstep
    split at hstep
    · cases hstep
      exact h.deallocate (by assumption)
    · cases hstep
  | SetMaxChunks max =>
    cases v with
    | memory => cases hstep
    | legacy_pool =>
      cases hstep
      exact ⟨h.size, h.carvable.of_eq rfl rfl rfl, h.idle, h.cut, h.chunk, h.pages, h.nodup,
        h.stocked⟩
  | SetGrowFactor grown =>
    cases v with
    | memory => cases hstep
    | legacy_pool =>
      simp only [PoolHistory.step] at hstep
      split at hstep
      · rename_i hgrown
        cases hstep
        have hcarvable : Carvable { s.pool with grown_blocks := grown } :=
          ⟨⟨h.carvable.pos, h.carvable.chunk, fun n hn => (hgrown n hn).2⟩, h.carvable.count,
            fun n hn => (hgrown n hn).1⟩
        exact ⟨h.size, hcarvable, h.idle, h.cut, h.chunk, h.pages, h.nodup, h.stocked⟩
      · cases hstep
  | use ptr value =>
    simp only [PoolHistory.step] at hstep
    split at hstep
    · cases hstep
      exact h.use (by assumption) value
    · cases hstep

/-! ## Histories -/

/-- A pool before its first chunk. -/
theorem kept_empty {p : FixedSizeMemoryPool} (hsize : p.block_size_ = block_size)
    (hcarvable : Carvable p) (hidle : p.is_expanding_ = false) (hchunks : p.chunks_ = [])
    (hhead : p.head_ = 0) : Kept block_size ⟨p, [], []⟩ := by
  refine ⟨hsize, hcarvable, hidle, Cut.nil, ?_, hchunks, List.nodup_nil, [], ?_⟩
  · exact fun c hc => absurd hc List.not_mem_nil
  · rw [hhead]
    simpa [carved] using Stocked.empty 0 p.next

theorem kept_start (v : Version) {block_size blocks_per_chunk page : Nat} (junk : Nat → Nat)
    (hsize : kDefaultAlignment ≤ block_size) (halign : kDefaultAlignment ∣ block_size)
    (hblocks : 0 < blocks_per_chunk) (hbytes : block_size * blocks_per_chunk < wordSize)
    (hpage : FreshRegion [] page (block_size * blocks_per_chunk)) :
    (start v block_size blocks_per_chunk page junk).Kept block_size := by
  have hpos : 0 < block_size := lt_of_lt_of_le (by decide) hsize
  let empty : FixedSizeMemoryPool :=
    { head_ := 0, next := junk, chunks_ := [], block_size_ := block_size,
      blocks_per_chunk_ := blocks_per_chunk, max_chunks_ := 0, grown_blocks := none,
      is_expanding_ := false, total_allocated_ := 0, total_freed_ := 0 }
  have hcarvable : Carvable empty :=
    ⟨⟨hpos, hbytes, fun n hn => by cases hn⟩, hblocks, fun n hn => by cases hn⟩
  have hempty : Kept block_size ⟨empty, [], []⟩ := kept_empty rfl hcarvable rfl rfl rfl
  cases v with
  | memory =>
    have hmax : max block_size sizeofFreeNode = block_size :=
      Nat.max_eq_left (le_trans (by decide) hsize)
    have hstart : start .memory block_size blocks_per_chunk page junk = ⟨empty, [], []⟩ := by
      simp only [start, construct, hmax, empty]
    rw [hstart]
    exact hempty
  | legacy_pool =>
    have hword : block_size < wordSize :=
      lt_of_le_of_lt (Nat.le_mul_of_pos_right _ hblocks) hbytes
    have hstart : start .legacy_pool block_size blocks_per_chunk page junk =
        ⟨empty.supplied .legacy_pool page, [], [empty.newChunk .legacy_pool page]⟩ := by
      simp only [start, construct, align_up_of_dvd halign hword]
      rfl
    rw [hstart]
    have hfresh : FreshRegion [] page (mul block_size blocks_per_chunk) := by
      rw [mul_of_lt hbytes]
      exact hpage
    have hneeds : empty.needsChunk .legacy_pool = true := rfl
    exact (hempty.supply hneeds hfresh).1

/-- The blocks of a pool: each is on the free list or live, once; each lies in its chunk, apart from
the others; and `Allocate` returns one that was not live, or null when it has to. -/
structure Accounted (v : Version) (block_size : Nat) (s : PoolHistory) : Prop where
  once : ∃ free, Chain 0 s.pool.next s.pool.head_ free ∧ (free ++ s.live).Perm (carved s.chunks)
  nodup : (carved s.chunks).Nodup
  pages : s.pool.chunks_ = (s.chunks.map Chunk.page).reverse
  within : ∀ x ∈ carved s.chunks, ∃ c ∈ s.chunks,
    c.page ≤ x ∧ x + block_size ≤ c.page + c.bytes
  apart : ∀ x ∈ carved s.chunks, ∀ y ∈ carved s.chunks, x ≠ y →
    x + block_size ≤ y ∨ y + block_size ≤ x
  allocate : ∀ page s', step v s (.Allocate page) = some s' → s.Allocates v page s'

theorem Kept.accounted (h : s.Kept block_size) (v : Version) : s.Accounted v block_size := by
  have hsize : ∀ c ∈ s.chunks, c.size = block_size := fun c hc => (h.chunk c hc).1
  constructor
  · obtain ⟨free, hs⟩ := h.stocked
    exact ⟨free, hs.chain, hs.perm h.nodup h.cut.nodup (fun _ => Iff.rfl) (fun _ => Iff.rfl)⟩
  · exact h.cut.nodup
  · exact h.pages
  · intro x hx
    obtain ⟨c, hc, hxc⟩ := mem_carved.mp hx
    have hwithin := Chunk.within hxc
    rw [hsize c hc] at hwithin
    exact ⟨c, hc, hwithin⟩
  · intro x hx y hy hne
    obtain ⟨c, hc, hxc⟩ := mem_carved.mp hx
    obtain ⟨d, hd, hyd⟩ := mem_carved.mp hy
    have hapart := h.cut.blocks_apart hc hd hxc hyd (Or.inl hne)
    rwa [hsize c hc, hsize d hd] at hapart
  · exact fun page s' hstep => (h.allocate hstep).1

/-- In every history of a pool, each block is on the free list or live. -/
theorem blocks_are_free_or_live_once (v : Version) {block_size blocks_per_chunk page : Nat}
    (junk : Nat → Nat) (hsize : kDefaultAlignment ≤ block_size)
    (halign : kDefaultAlignment ∣ block_size) (hblocks : 1 ≤ blocks_per_chunk)
    (hbytes : block_size * blocks_per_chunk < wordSize)
    (hpage : FreshRegion [] page (block_size * blocks_per_chunk)) {calls : List PoolCall}
    {s : PoolHistory}
    (hrun : run (step v) (start v block_size blocks_per_chunk page junk) calls = some s) :
    s.Accounted v block_size := by
  have hstart := kept_start v junk hsize halign hblocks hbytes hpage
  have hkept : s.Kept block_size :=
    invariant_of_run (fun _ _ _ h hstep => Kept.step h hstep) hstart hrun
  exact hkept.accounted v

/-- Two blocks of the first chunk and one of a larger second one, which is the last. -/
def twoChunks : List PoolCall :=
  [.Allocate 0, .SetGrowFactor (some 3), .Allocate 0, .use 1016 7, .Allocate 2000, .Deallocate 1016,
    .SetMaxChunks 2, .Allocate 0]

theorem two_chunks_are_accounted : ∃ s, run (step .legacy_pool)
    (start .legacy_pool 16 2 1000 fun _ => 0) twoChunks = some s ∧ s.Accounted .legacy_pool 16 := by
  have hsome : (run (step .legacy_pool) (start .legacy_pool 16 2 1000 fun _ => 0)
      twoChunks).isSome = true := by decide
  obtain ⟨s, hs⟩ := Option.isSome_iff_exists.mp hsome
  exact ⟨s, hs, blocks_are_free_or_live_once .legacy_pool _ (by decide) (by decide) (by decide)
    (by decide) (by decide) hs⟩

end PoolHistory

end sci.pools
