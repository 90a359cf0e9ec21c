-- `FixedSizePoolBridge` (include/bridges/pool_bridge.hpp): the legacy pool behind the interface
-- `Allocator`. A request is compared with the rounded block size of the pool.
import Scicompute.MemoryPoolGeometry

open Word Transition FreeList
open sci.pools

namespace sci.bridges

/-! ## The bridge -/

structure FixedSizePoolBridge where
  pool_ : FixedSizeMemoryPool

namespace FixedSizePoolBridge

def construct (block_size blocks_per_chunk page : Nat) (junk : Nat → Nat) : FixedSizePoolBridge :=
  ⟨pools.construct .legacy_pool block_size blocks_per_chunk page junk⟩

/-- `operator new[]` returns `page` when it is called. -/
def allocate (b : FixedSizePoolBridge) (bytes page : Nat) : FixedSizePoolBridge × Nat :=
  if bytes ≠ b.pool_.block_size_ then (b, 0)
  else
    let r := b.pool_.Allocate .legacy_pool page
    (⟨r.1⟩, r.2)

def deallocate (b : FixedSizePoolBridge) (ptr : Nat) : FixedSizePoolBridge :=
  ⟨b.pool_.Deallocate .legacy_pool ptr⟩

/-- `allocate` gets a new chunk. -/
def needsChunk (b : FixedSizePoolBridge) (bytes : Nat) : Bool :=
  decide (bytes = b.pool_.block_size_) && b.pool_.needsChunk .legacy_pool

end FixedSizePoolBridge

/-- The bridge, the blocks that its users hold, and the chunks of the pool. -/
structure FixedSizeHistory where
  bridge : FixedSizePoolBridge
  live : List Nat
  chunks : List Chunk

inductive FixedSizeCall
  /-- `page` is what `operator new[]` returns when the call gets a chunk. -/
  | allocate (page : Nat)
  | deallocate (ptr : Nat)
  /-- A user writes the first word of a block that it holds. -/
  | use (ptr value : Nat)

namespace FixedSizeHistory

/-- The pool of the bridge. -/
def pools (s : FixedSizeHistory) : PoolHistory := ⟨s.bridge.pool_, s.live, s.chunks⟩

def start (block_size blocks_per_chunk page : Nat) (junk : Nat → Nat) : FixedSizeHistory where
  bridge := .construct block_size blocks_per_chunk page junk
  live := []
  chunks := [⟨page, align_up block_size kDefaultAlignment, blocks_per_chunk⟩]

/-- Requests of `bytes` bytes, and blocks that are freed and written by their holders. -/
def step (bytes : Nat) (s : FixedSizeHistory) : FixedSizeCall → Option FixedSizeHistory
  | .allocate page =>
    let r := s.bridge.allocate bytes page
    let live := if r.2 = 0 then s.live else r.2 :: s.live
    if s.bridge.needsChunk bytes then
      if FreshRegion s.pools.regions page
          (mul s.bridge.pool_.block_size_ (s.bridge.pool_.blocks .legacy_pool)) then
        some ⟨r.1, live, s.bridge.pool_.newChunk .legacy_pool page :: s.chunks⟩
      else none
    else some ⟨r.1, live, s.chunks⟩
  | .deallocate ptr =>
    if ptr ∈ s.live then some ⟨s.bridge.deallocate ptr, s.live.erase ptr, s.chunks⟩ else none
  | .use ptr value =>
    if ptr ∈ s.live then
      some { s with bridge := ⟨{ s.bridge.pool_ with
        next := Function.update s.bridge.pool_.next ptr value }⟩ }
    else none

/-- A request of `bytes` bytes gets a block with as many bytes in one chunk, apart from those of the
blocks that are held. -/
def Serves (s : FixedSizeHistory) (bytes : Nat) : Prop :=
  ∀ page s', step bytes s (.allocate page) = some s' →
    (s.bridge.allocate bytes page).2 ≠ 0 ∧
    (∃ c ∈ s'.chunks, c.page ≤ (s.bridge.allocate bytes page).2 ∧
      (s.bridge.allocate bytes page).2 + bytes ≤ c.page + c.bytes) ∧
    ∀ y ∈ s.live, (s.bridge.allocate bytes page).2 + bytes ≤ y ∨
      y + bytes ≤ (s.bridge.allocate bytes page).2

variable {bytes page : Nat} {s s' : FixedSizeHistory}

/-! ## Requests of the block size -/

/-- A call of the bridge is one of its pool. -/
def poolCall : FixedSizeCall → PoolCall
  | .allocate page => .Allocate page
  | .deallocate ptr => .Deallocate ptr
  | .use ptr value => .use ptr value

theorem step_pools {c : FixedSizeCall} (hsize : s.bridge.pool_.block_size_ = bytes)
    (h : step bytes s c = some s') :
    PoolHistory.step .legacy_pool s.pools (poolCall c) = some s'.pools := by
  cases c with
  | allocate page =>
    have hall : s.bridge.allocate bytes page = (⟨(s.bridge.pool_.Allocate .legacy_pool page).1⟩,
        (s.bridge.pool_.Allocate .legacy_pool page).2) := by
      rw [FixedSizePoolBridge.allocate, if_neg (fun hne => hne hsize.symm)]
    have hneeds : s.bridge.needsChunk bytes = s.bridge.pool_.needsChunk .legacy_pool := by
      simp [FixedSizePoolBridge.needsChunk, hsize]
    simp only [step, hall, hneeds] at h
    by_cases hcarves : s.bridge.pool_.needsChunk .legacy_pool = true
    · rw [if_pos hcarves] at h
      by_cases hfresh : FreshRegion s.pools.regions page
          (mul s.bridge.pool_.block_size_ (s.bridge.pool_.blocks .legacy_pool))
      · rw [if_pos hfresh] at h
        cases h
        exact (if_pos hcarves).trans (if_pos hfresh)
      · rw [if_neg hfresh] at h
        cases h
    · rw [if_neg hcarves] at h
      cases h
      exact if_neg hcarves
  | deallocate ptr =>
    simp only [step] at h
    split_ifs at h with hlive
    cases h
    exact if_pos hlive
  | use ptr value =>
    simp only [step] at h
    split_ifs at h with hlive
    cases h
    exact if_pos hlive

/-- The pool keeps its blocks, and its chunks have no limit. -/
structure Open (bytes : Nat) (s : FixedSizeHistory) : Prop where
  kept : s.pools.Kept bytes
  unlimited : s.bridge.pool_.max_chunks_ = 0

/-- A field of the pool that no call of its functions changes. -/
theorem step_keeps (f : FixedSizeMemoryPool → Nat) {c : FixedSizeCall}
    (hallocate : ∀ page, f (s.bridge.allocate bytes page).1.pool_ = f s.bridge.pool_)
    (hdeallocate : ∀ ptr, f (s.bridge.pool_.Deallocate .legacy_pool ptr) = f s.bridge.pool_)
    (huse : ∀ next, f { s.bridge.pool_ with next := next } = f s.bridge.pool_)
    (h : step bytes s c = some s') : f s'.bridge.pool_ = f s.bridge.pool_ := by
  cases c with
  | allocate page =>
    have hbridge : s'.bridge = (s.bridge.allocate bytes page).1 := by
      simp only [step] at h
      split_ifs at h
      all_goals
        cases h
        rfl
    rw [hbridge, hallocate]
  | deallocate ptr =>
    simp only [step] at h
    split_ifs at h
    cases h
    exact hdeallocate ptr
  | use ptr value =>
    simp only [step] at h
    split_ifs at h
    cases h
    exact huse _

theorem step_max_chunks_ {c : FixedSizeCall} (hidle : s.bridge.pool_.is_expanding_ = false)
    (h : step bytes s c = some s') :
    s'.bridge.pool_.max_chunks_ = s.bridge.pool_.max_chunks_ := by
  apply step_keeps FixedSizeMemoryPool.max_chunks_ ?_ ?_ (fun _ => rfl) h
  · intro page
    unfold FixedSizePoolBridge.allocate
    split_ifs
    · rfl
    · exact FixedSizeMemoryPool.allocate_max_chunks_ .legacy_pool hidle page
  · intro ptr
    unfold FixedSizeMemoryPool.Deallocate
    split_ifs <;> rfl

theorem Open.step {c : FixedSizeCall} (h : s.Open bytes)
    (hstep : FixedSizeHistory.step bytes s c = some s') : s'.Open bytes := by
  constructor
  · exact h.kept.step (step_pools h.kept.size hstep)
  · rw [step_max_chunks_ h.kept.idle hstep, h.unlimited]

theorem open_start {blocks_per_chunk : Nat} (junk : Nat → Nat) (hbytes : 1 ≤ bytes)
    (halign : kDefaultAlignment ∣ bytes) (hblocks : 1 ≤ blocks_per_chunk)
    (hchunk : bytes * blocks_per_chunk < wordSize)
    (hpage : FreshRegion [] page (bytes * blocks_per_chunk)) :
    (start bytes blocks_per_chunk page junk).Open bytes := by
  constructor
  · have hkept := PoolHistory.kept_start .legacy_pool junk (Nat.le_of_dvd hbytes halign) halign
      hblocks hchunk hpage
    unfold PoolHistory.start at hkept
    exact hkept
  · simp [start, FixedSizePoolBridge.construct, construct]

theorem Open.serves (h : s.Open bytes) : s.Serves bytes := by
  intro page s' hstep
  have hpools := step_pools h.kept.size hstep
  obtain ⟨hallocates, hkept⟩ := h.kept.allocate hpools
  have haccounted := hkept.accounted .legacy_pool
  have hall : (s.bridge.allocate bytes page).2 =
      (s.pools.pool.Allocate .legacy_pool page).2 := by
    rw [FixedSizePoolBridge.allocate, if_neg (fun hne => hne h.kept.size.symm)]
    rfl
  rw [hall]
  have hne : (s.pools.pool.Allocate .legacy_pool page).2 ≠ 0 := by
    intro hnull
    have hlimit := (hallocates.null hnull).2.2.1
    have hnone : s.pools.pool.atLimit = false := by
      simp [FixedSizeMemoryPool.atLimit, pools, h.unlimited]
    rw [hnone] at hlimit
    cases hlimit
  obtain ⟨hnew, hcarved, hlive⟩ := hallocates.block hne
  refine ⟨hne, haccounted.within _ hcarved, ?_⟩
  intro y hy
  have hy' : y ∈ s'.pools.live := by
    rw [hlive]
    exact List.mem_cons_of_mem _ hy
  have hapart : (s.pools.pool.Allocate .legacy_pool page).2 ≠ y := by
    rintro rfl
    exact hnew hy
  exact haccounted.apart _ hcarved _ (hkept.live_carved hy') hapart

/-! ## Requests of any other size -/

theorem step_block_size_ {c : FixedSizeCall} (hsize : bytes ≠ s.bridge.pool_.block_size_)
    (h : step bytes s c = some s') :
    s'.bridge.pool_.block_size_ = s.bridge.pool_.block_size_ := by
  apply step_keeps FixedSizeMemoryPool.block_size_ ?_ ?_ (fun _ => rfl) h
  · intro page
    rw [FixedSizePoolBridge.allocate, if_pos hsize]
  · intro ptr
    unfold FixedSizeMemoryPool.Deallocate
    split_ifs <;> rfl

theorem not_serves (hsize : bytes ≠ s.bridge.pool_.block_size_) : ¬ s.Serves bytes := by
  intro h
  have hneeds : s.bridge.needsChunk bytes = false := by
    simp [FixedSizePoolBridge.needsChunk, hsize]
  have hstep : step bytes s (.allocate 0) = some s := by
    simp [step, FixedSizePoolBridge.allocate, hsize, hneeds]
  have hnull : (s.bridge.allocate bytes 0).2 = 0 := by
    rw [FixedSizePoolBridge.allocate, if_pos hsize]
  exact (h 0 s hstep).1 hnull

/-- The requests of the block size that the bridge was made with are served if and only if it is a
multiple of the alignment. -/
theorem requests_are_served_iff {blocks_per_chunk : Nat} (junk : Nat → Nat) (hbytes : 1 ≤ bytes)
    (hword : bytes < wordSize) (hblocks : 1 ≤ blocks_per_chunk)
    (hchunk : align_up bytes kDefaultAlignment * blocks_per_chunk < wordSize)
    (hpage : FreshRegion [] page (align_up bytes kDefaultAlignment * blocks_per_chunk))
    {calls : List FixedSizeCall}
    (hrun : run (step bytes) (start bytes blocks_per_chunk page junk) calls = some s) :
    s.Serves bytes ↔ kDefaultAlignment ∣ bytes := by
  constructor
  · intro h
    by_contra halign
    have hstart : bytes ≠ (start bytes blocks_per_chunk page junk).bridge.pool_.block_size_ := by
      intro heq
      apply halign
      rw [heq]
      change kDefaultAlignment ∣
        (construct .legacy_pool bytes blocks_per_chunk page junk).block_size_
      rw [construct_block_size_]
      exact dvd_align_up hword
    have hother : bytes ≠ s.bridge.pool_.block_size_ :=
      invariant_of_run (I := fun s => bytes ≠ s.bridge.pool_.block_size_)
        (fun _ _ _ hne hstep => (step_block_size_ hne hstep).symm ▸ hne) hstart hrun
    exact not_serves hother h
  · intro halign
    rw [align_up_of_dvd halign hword] at hchunk hpage
    have hstart := open_start junk hbytes halign hblocks hchunk hpage
    have hopen : s.Open bytes :=
      invariant_of_run (fun _ _ _ h hstep => Open.step h hstep) hstart hrun
    exact hopen.serves

/-- Two blocks of 64 bytes, of which one is freed. -/
def smallBlocks : List FixedSizeCall :=
  [.allocate 0, .allocate 0, .use 1064 7, .deallocate 1000, .allocate 0, .allocate 2000]

theorem small_blocks_are_served : ∃ s, run (step 64) (start 64 2 1000 fun _ => 0) smallBlocks =
    some s ∧ s.Serves 64 := by
  have hsome : (run (step 64) (start 64 2 1000 fun _ => 0) smallBlocks).isSome = true := by decide
  obtain ⟨s, hs⟩ := Option.isSome_iff_exists.mp hsome
  exact ⟨s, hs, (requests_are_served_iff _ (by decide) (by decide) (by decide) (by decide)
    (by decide) hs).mpr (by decide)⟩

/-- The first request of 24 bytes gets null from a bridge for blocks of 24 bytes. -/
theorem blocks_of_24_bytes_are_refused :
    ((start 24 256 4096 fun _ => 0).bridge.allocate 24 0).2 = 0 ∧
      ¬ (start 24 256 4096 fun _ => 0).Serves 24 := by
  have hsize : 24 ≠ (start 24 256 4096 fun _ => 0).bridge.pool_.block_size_ := by
    change 24 ≠ (construct .legacy_pool 24 256 4096 fun _ => 0).block_size_
    rw [construct_block_size_]
    decide
  refine ⟨?_, not_serves hsize⟩
  rw [FixedSizePoolBridge.allocate, if_pos hsize]

end FixedSizeHistory

end sci.bridges
