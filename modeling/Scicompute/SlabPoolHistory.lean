-- The histories of a `SlabPoolBridge`: any calls with any sizes and pointers, one at a time, and
-- writes of the holders to their blocks. In each class the free list and the live blocks are the
-- blocks that were carved for it.
import Scicompute.SlabPoolBridge
import Scicompute.MemoryPool

open Word Transition LinkedStack FreeList

namespace sci.bridges

open SlabAllocator
open sci.pools (FreshRegion)

/-! ## Histories -/

/-- The bridge, the blocks that the callers hold, and the chunks of all classes. -/
structure SlabHistory where
  bridge : SlabPoolBridge
  live : List Nat
  chunks : List Chunk

inductive SlabCall
  /-- `chunk` is what `operator new[]` returns when the call gets a new chunk. -/
  | allocate (bytes chunk : Nat)
  | deallocate (ptr : Nat)
  /-- The holder of a block writes its first word. -/
  | use (ptr value : Nat)

namespace SlabHistory

def start (junk : Nat → Nat) : SlabHistory := ⟨SlabPoolBridge.construct junk, [], []⟩

def regions (s : SlabHistory) : List (Nat × Nat) := s.chunks.map fun c => (c.page, c.bytes)

/-- Any call is allowed. `operator new[]` returns a fresh region, and a holder writes to its own
blocks only. -/
def step (s : SlabHistory) : SlabCall → Option SlabHistory
  | .allocate bytes chunk =>
    let r := s.bridge.allocate bytes chunk
    let live := if r.2 = 0 then s.live else r.2 :: s.live
    if s.bridge.needsChunk bytes then
      let slab := s.bridge.slab bytes
      if FreshRegion s.regions chunk (mul slab.block_size slab.blocks_per_chunk) then
        some ⟨r.1, live, ⟨chunk, slab.block_size, slab.blocks_per_chunk⟩ :: s.chunks⟩
      else none
    else some ⟨r.1, live, s.chunks⟩
  | .deallocate ptr =>
    some { s with bridge := s.bridge.deallocate ptr, live := s.live.erase ptr }
  | .use ptr value =>
    if ptr ∈ s.live then
      some { s with bridge := { s.bridge with
        allocator_ := { s.bridge.allocator_ with
          next := Function.update s.bridge.allocator_.next ptr value } } }
    else none

/-- The blocks that were carved for a class. -/
def carvedFor (chunks : List Chunk) (i : Fin kSlabCount) : List Nat :=
  carved (chunks.filter fun c => c.size = kSizes i)

/-- The live blocks that the map has under the size of a class. -/
def liveIn (s : SlabHistory) (i : Fin kSlabCount) : List Nat :=
  s.live.filter fun x => s.bridge.size_map_ x = some (kSizes i)

end SlabHistory

namespace SlabHistory

/-! ## The invariant -/

/-- Every block that was carved for a class is on its free list, or the map has it under the size of
the class, and not both. The map has the live blocks. -/
structure Kept (s : SlabHistory) : Prop where
  slab : ∀ i, (s.bridge.allocator_.slabs_ i).block_size = kSizes i ∧
    (s.bridge.allocator_.slabs_ i).blocks_per_chunk = 256
  cut : Cut s.chunks
  chunk : ∀ c ∈ s.chunks, 0 < c.page
  nodup : s.live.Nodup
  mem_live : ∀ x, x ∈ s.live ↔ ∃ i, s.bridge.size_map_ x = some (kSizes i)
  keys : ∀ x, x ∉ s.live → s.bridge.size_map_ x = none
  stocked : ∀ i, ∃ free, Stocked 0 s.bridge.allocator_.next
    (s.bridge.allocator_.slabs_ i).head_ free {x | s.bridge.size_map_ x = some (kSizes i)}
    {x | x ∈ carvedFor s.chunks i}

variable {s : SlabHistory} {i j : Fin kSlabCount} {x chunk : Nat}

theorem mem_carvedFor {chunks : List Chunk} :
    x ∈ carvedFor chunks i ↔ ∃ c ∈ chunks, c.size = kSizes i ∧ x ∈ c.blocks := by
  simp only [carvedFor, mem_carved, List.mem_filter, decide_eq_true_iff, and_assoc]

theorem mem_liveIn : x ∈ s.liveIn i ↔ x ∈ s.live ∧ s.bridge.size_map_ x = some (kSizes i) := by
  simp [liveIn]

/-- An entry of a size puts the block among those of the size. -/
theorem setOf_update_some (m : Nat → Option Nat) (x size : Nat) :
    {y | Function.update m x (some size) y = some size} = insert x {y | m y = some size} := by
  ext y
  by_cases hy : y = x
  · subst hy
    simp
  · simp [hy]

theorem setOf_update_none (m : Nat → Option Nat) (x size : Nat) :
    {y | Function.update m x none y = some size} = {y | m y = some size} \ {x} := by
  ext y
  by_cases hy : y = x
  · subst hy
    simp
  · simp [hy]

/-- The blocks of another size stay the same. -/
theorem setOf_update_of_ne {m : Nat → Option Nat} {x size : Nat} {entry : Option Nat}
    (hnew : entry ≠ some size) (hold : m x ≠ some size) :
    {y | Function.update m x entry y = some size} = {y | m y = some size} := by
  ext y
  by_cases hy : y = x
  · subst hy
    simp [hnew, hold]
  · simp [hy]

namespace Kept

/-- A new head of a slab leaves the sizes of the slabs as they are. -/
theorem slab_setSlab (h : s.Kept) (i : Fin kSlabCount) (head : Nat) (j : Fin kSlabCount) :
    ((s.bridge.allocator_.setSlab i { s.bridge.allocator_.slabs_ i with
        head_ := head }).slabs_ j).block_size = kSizes j ∧
      ((s.bridge.allocator_.setSlab i { s.bridge.allocator_.slabs_ i with
        head_ := head }).slabs_ j).blocks_per_chunk = 256 := by
  have hi : (s.bridge.allocator_.slabs_ i).block_size = kSizes i ∧
      (s.bridge.allocator_.slabs_ i).blocks_per_chunk = 256 := h.slab i
  refine forall_setSlab
    (p := fun j slab => slab.block_size = kSizes j ∧ slab.blocks_per_chunk = 256) h.slab ?_ j
  exact hi

theorem mem_liveIn_iff (h : s.Kept) : x ∈ s.liveIn i ↔ s.bridge.size_map_ x = some (kSizes i) := by
  rw [mem_liveIn, h.mem_live, and_iff_right_iff_imp]
  exact fun hx => ⟨i, hx⟩

theorem ne_zero (h : s.Kept) (hx : x ∈ carvedFor s.chunks i) : x ≠ 0 := by
  obtain ⟨c, hc, -, hxc⟩ := mem_carvedFor.mp hx
  have hpage := h.chunk c hc
  have hwithin := Chunk.within hxc
  omega

/-- No block is carved for two classes. -/
theorem not_carvedFor (h : s.Kept) (hx : x ∈ carvedFor s.chunks i) (hij : j ≠ i) :
    x ∉ carvedFor s.chunks j := by
  intro hx'
  obtain ⟨c, hc, hci, hxc⟩ := mem_carvedFor.mp hx
  obtain ⟨d, hd, hdj, hxd⟩ := mem_carvedFor.mp hx'
  have hne : c ≠ d := by
    rintro rfl
    exact hij (kSizes_injective (hdj.symm.trans hci))
  exact h.cut.not_mem hc hd hne hxc hxd

theorem live_carvedFor (h : s.Kept) (hx : s.bridge.size_map_ x = some (kSizes i)) :
    x ∈ carvedFor s.chunks i := by
  obtain ⟨free, hs⟩ := h.stocked i
  exact (hs.mem_iff x).mpr (Or.inr hx)

/-- The step that gets a new chunk, before its pop. -/
theorem supply (h : s.Kept) (i : Fin kSlabCount)
    (hfresh : FreshRegion s.regions chunk (kSizes i * 256)) :
    Kept ⟨⟨s.bridge.allocator_.grow i chunk, s.bridge.size_map_⟩, s.live,
        ⟨chunk, kSizes i, 256⟩ :: s.chunks⟩ ∧
      ((s.bridge.allocator_.grow i chunk).slabs_ i).head_ ≠ 0 := by
  obtain ⟨hsize, hcount⟩ := h.slab i
  have hchunk : 0 < chunk := hfresh.1
  have hapart : ∀ d ∈ s.chunks, (Chunk.mk chunk (kSizes i) 256).Apart d := by
    intro d hd
    have hregion := hfresh.2.2 (d.page, d.bytes) (List.mem_map_of_mem hd)
    exact hregion.symm
  have hcut : Cut (⟨chunk, kSizes i, 256⟩ :: s.chunks) := h.cut.cons (kSizes_pos i) hapart
  have hnew : ∀ j, ∀ x ∈ (Chunk.mk chunk (kSizes i) 256).blocks, x ∉ carvedFor s.chunks j := by
    intro j x hx hc
    obtain ⟨d, hd, -, hxd⟩ := mem_carvedFor.mp hc
    exact (hapart d hd).not_mem (kSizes_pos i) (h.cut.pos d hd) hx hxd
  -- the slab with its new chunk in the vector
  obtain ⟨a, ha⟩ : ∃ a, a = s.bridge.allocator_.setSlab i { s.bridge.allocator_.slabs_ i with
      chunks := (s.bridge.allocator_.slabs_ i).chunks ++ [chunk] } := ⟨_, rfl⟩
  have hgrow : s.bridge.allocator_.grow i chunk = a.carve i chunk 256 := by
    rw [grow, hcount, ha]
  have hblock : (a.slabs_ i).block_size = kSizes i := by rw [ha, setSlab_self, hsize]
  have hbytes : (a.slabs_ i).block_size * 256 < wordSize := by
    rw [hblock]
    exact chunk_bytes_lt i
  have hsame : ∀ j, (a.slabs_ j).head_ = (s.bridge.allocator_.slabs_ j).head_ ∧
      (a.slabs_ j).block_size = kSizes j ∧ (a.slabs_ j).blocks_per_chunk = 256 := by
    rw [ha]
    exact forall_setSlab
      (p := fun j slab => slab.head_ = (s.bridge.allocator_.slabs_ j).head_ ∧
        slab.block_size = kSizes j ∧ slab.blocks_per_chunk = 256)
      (fun j => ⟨rfl, h.slab j⟩) ⟨rfl, hsize, hcount⟩
  rw [hgrow]
  refine ⟨?_, head_carve_ne_zero hchunk hbytes (by decide)⟩
  constructor
  · obtain ⟨head, hslabs⟩ := a.carve_slabs_ i chunk 256
    simp only [hslabs]
    exact forall_setSlab
      (p := fun j slab => slab.block_size = kSizes j ∧ slab.blocks_per_chunk = 256)
      (fun j => (hsame j).2) (hsame i).2
  · exact hcut
  · intro c hc
    rcases List.mem_cons.mp hc with rfl | hc
    · exact hchunk
    · exact h.chunk c hc
  · exact h.nodup
  · exact h.mem_live
  · exact h.keys
  · intro j
    obtain ⟨free, hs⟩ := h.stocked j
    have hnext : a.next = s.bridge.allocator_.next := by rw [ha, setSlab_next]
    rw [← (hsame j).1, ← hnext] at hs
    by_cases hj : j = i
    · subst hj
      obtain ⟨free', hs'⟩ := carve_stocked (n := 256) hs (by rw [hblock]; exact kSizes_pos j)
        hchunk hbytes (by rw [hblock]; exact hnew j)
      refine ⟨free', ?_⟩
      have hset : {x | x ∈ carvedFor (⟨chunk, kSizes j, 256⟩ :: s.chunks) j} =
          {x | x ∈ (Chunk.mk chunk (a.slabs_ j).block_size 256).blocks} ∪
            {x | x ∈ carvedFor s.chunks j} := by
        ext x
        simp [carvedFor, carved, hblock]
      rw [hset]
      exact hs'
    · have hne : kSizes i ≠ kSizes j := fun he => hj (kSizes_injective he.symm)
      have hsame' : carvedFor (⟨chunk, kSizes i, 256⟩ :: s.chunks) j = carvedFor s.chunks j := by
        simp [carvedFor, hne]
      refine ⟨free, ?_⟩
      simp only [hsame', carve_of_ne hj]
      exact carve_frame hs hbytes (by rw [hblock]; exact hnew j)

/-- A pop of a class, and the entry of its block in the map. -/
theorem pop (h : s.Kept) {head : Nat} (hhead : (s.bridge.allocator_.slabs_ i).head_ = head)
    (hne : head ≠ 0) :
    s.bridge.allocator_.Pop i = (s.bridge.allocator_.setSlab i { s.bridge.allocator_.slabs_ i with
        head_ := s.bridge.allocator_.next head }, head) ∧
      head ∉ s.live ∧
      Kept ⟨⟨(s.bridge.allocator_.Pop i).1,
        Function.update s.bridge.size_map_ head (some (kSizes i))⟩, head :: s.live, s.chunks⟩ := by
  obtain ⟨free, hs⟩ := h.stocked i
  rw [hhead] at hs
  obtain ⟨rest, rfl, hpop⟩ := hs.pop hne
  have hcarved : head ∈ carvedFor s.chunks i := (hs.mem_iff _).mpr (Or.inl (List.mem_cons_self ..))
  have hfree : head ∉ s.live := by
    intro hlive
    obtain ⟨j, hj⟩ := (h.mem_live head).mp hlive
    by_cases hji : j = i
    · subst hji
      exact hs.apart _ (List.mem_cons_self ..) hj
    · exact h.not_carvedFor hcarved hji (h.live_carvedFor hj)
  have hresult : s.bridge.allocator_.Pop i = (s.bridge.allocator_.setSlab i
      { s.bridge.allocator_.slabs_ i with head_ := s.bridge.allocator_.next head }, head) := by
    rw [Pop, if_neg (by rw [hhead]; exact hne), hhead]
  refine ⟨hresult, hfree, ?_⟩
  rw [hresult]
  constructor
  · exact h.slab_setSlab i _
  · exact h.cut
  · exact h.chunk
  · exact List.nodup_cons.mpr ⟨hfree, h.nodup⟩
  · intro x
    by_cases hx : x = head
    · subst hx
      simp
    · simp only [List.mem_cons, hx, false_or, Function.update_of_ne hx]
      exact h.mem_live x
  · intro x hx
    rw [List.mem_cons, not_or] at hx
    simp only [Function.update_of_ne hx.1]
    exact h.keys x hx.2
  · intro j
    by_cases hj : j = i
    · subst hj
      refine ⟨rest, ?_⟩
      simp only [setOf_update_some, setSlab_self, setSlab_next]
      exact hpop
    · obtain ⟨free, hs'⟩ := h.stocked j
      refine ⟨free, ?_⟩
      have hnew : some (kSizes i) ≠ some (kSizes j) := by
        rintro he
        exact hj (kSizes_injective (Option.some.inj he).symm)
      have hold : s.bridge.size_map_ head ≠ some (kSizes j) := by simp [h.keys head hfree]
      simp only [setOf_update_of_ne hnew hold, setSlab_of_ne _ _ hj, setSlab_next]
      exact hs'

/-- A block goes back to the free list of its class. -/
theorem deallocate (h : s.Kept) {ptr : Nat} (hptr : s.bridge.size_map_ ptr = some (kSizes i)) :
    s.bridge.deallocate ptr = ⟨s.bridge.allocator_.Push i ptr,
        Function.update s.bridge.size_map_ ptr none⟩ ∧
      Kept { s with bridge := s.bridge.deallocate ptr, live := s.live.erase ptr } := by
  have hcarved := h.live_carvedFor hptr
  have hne := h.ne_zero hcarved
  have hresult : s.bridge.deallocate ptr = ⟨s.bridge.allocator_.Push i ptr,
      Function.update s.bridge.size_map_ ptr none⟩ := by
    simp [SlabPoolBridge.deallocate, SlabAllocator.Deallocate, hne, hptr, IndexFor_kSizes]
  refine ⟨hresult, ?_⟩
  rw [hresult]
  constructor
  · exact h.slab_setSlab i ptr
  · exact h.cut
  · exact h.chunk
  · exact h.nodup.erase ptr
  · intro x
    rw [h.nodup.mem_erase_iff]
    by_cases hx : x = ptr
    · subst hx
      simp
    · simp only [ne_eq, hx, not_false_eq_true, true_and, Function.update_of_ne hx]
      exact h.mem_live x
  · intro x hx
    rw [h.nodup.mem_erase_iff] at hx
    by_cases hxp : x = ptr
    · subst hxp
      simp
    · simp only [Function.update_of_ne hxp]
      exact h.keys x fun hlive => hx ⟨hxp, hlive⟩
  · intro j
    obtain ⟨free, hs⟩ := h.stocked j
    by_cases hj : j = i
    · subst hj
      refine ⟨ptr :: free, ?_⟩
      simp only [Push, setOf_update_none, setSlab_self]
      exact hs.push hne hptr
    · refine ⟨free, ?_⟩
      have hset : {x | Function.update s.bridge.size_map_ ptr none x = some (kSizes j)} =
          {x | s.bridge.size_map_ x = some (kSizes j)} := by
        ext x
        by_cases hx : x = ptr
        · subst hx
          have hnot : kSizes i ≠ kSizes j := fun he => hj (kSizes_injective he.symm)
          simp [hnot, hptr]
        · simp [hx]
      simp only [Push, hset, setSlab_of_ne _ _ hj]
      exact hs.frame (h.not_carvedFor hcarved hj) _

/-- A pointer that is not live changes nothing. -/
theorem deallocate_of_not_live (h : s.Kept) {ptr : Nat} (hptr : ptr ∉ s.live) :
    s.bridge.deallocate ptr = s.bridge := by
  unfold SlabPoolBridge.deallocate
  rw [h.keys ptr hptr]
  split_ifs <;> rfl

theorem use (h : s.Kept) {ptr : Nat} (hlive : ptr ∈ s.live) (value : Nat) :
    Kept { s with bridge := { s.bridge with
      allocator_ := { s.bridge.allocator_ with
        next := Function.update s.bridge.allocator_.next ptr value } } } := by
  obtain ⟨i, hi⟩ := (h.mem_live ptr).mp hlive
  refine ⟨h.slab, h.cut, h.chunk, h.nodup, h.mem_live, h.keys, ?_⟩
  intro j
  obtain ⟨free, hs⟩ := h.stocked j
  refine ⟨free, hs.write ?_ value⟩
  intro hfree
  by_cases hj : j = i
  · subst hj
    exact hs.apart ptr hfree hi
  · exact h.not_carvedFor (h.live_carvedFor hi) hj ((hs.mem_iff ptr).mpr (Or.inl hfree))

end Kept

/-! ## Steps -/

/-- What a call of `allocate` does: a pointer that is not null is a block of a class that the
request fits into, and was not live. -/
def Allocates (s : SlabHistory) (bytes chunk : Nat) (s' : SlabHistory) : Prop :=
  (s.bridge.allocate bytes chunk).2 ≠ 0 →
    ∃ i, bytes ≤ kSizes i ∧ (s.bridge.allocate bytes chunk).2 ∉ s.live ∧
      (s.bridge.allocate bytes chunk).2 ∈ s'.liveIn i ∧
      s'.live = (s.bridge.allocate bytes chunk).2 :: s.live

/-- The state after a call of `allocate`, with the chunks that the bridge has by then. -/
def allocated (s : SlabHistory) (bytes chunk : Nat) (chunks : List Chunk) : SlabHistory :=
  ⟨(s.bridge.allocate bytes chunk).1,
    if (s.bridge.allocate bytes chunk).2 = 0 then s.live
    else (s.bridge.allocate bytes chunk).2 :: s.live, chunks⟩

/-- The call pops a block. -/
theorem Kept.returned {bytes : Nat} {chunks : List Chunk} (hpos : 0 < bytes)
    (hmax : bytes ≤ kMaxSlabSize)
    (h : Kept ⟨⟨s.bridge.allocator_.supplied (IndexFor bytes) chunk, s.bridge.size_map_⟩, s.live,
      chunks⟩)
    (hne : ((s.bridge.allocator_.supplied (IndexFor bytes) chunk).slabs_ (IndexFor bytes)).head_ ≠
      0) :
    s.Allocates bytes chunk (s.allocated bytes chunk chunks) ∧
      (s.allocated bytes chunk chunks).Kept := by
  obtain ⟨hpop, hnot, hk⟩ := h.pop rfl hne
  simp only at hpop hnot hk
  have hbounds : ¬ (bytes = 0 ∨ kMaxSlabSize < bytes) := by omega
  have hresult : s.bridge.allocate bytes chunk =
      (⟨((s.bridge.allocator_.supplied (IndexFor bytes) chunk).Pop (IndexFor bytes)).1,
        Function.update s.bridge.size_map_
          ((s.bridge.allocator_.supplied (IndexFor bytes) chunk).slabs_ (IndexFor bytes)).head_
          (some (kSizes (IndexFor bytes)))⟩,
        ((s.bridge.allocator_.supplied (IndexFor bytes) chunk).slabs_ (IndexFor bytes)).head_) := by
    simp only [SlabPoolBridge.allocate, if_neg hbounds, GetSlabSize, allocate_eq, hpop, if_neg hne]
  have hstate : s.allocated bytes chunk chunks =
      ⟨⟨((s.bridge.allocator_.supplied (IndexFor bytes) chunk).Pop (IndexFor bytes)).1,
        Function.update s.bridge.size_map_
          ((s.bridge.allocator_.supplied (IndexFor bytes) chunk).slabs_ (IndexFor bytes)).head_
          (some (kSizes (IndexFor bytes)))⟩,
        ((s.bridge.allocator_.supplied (IndexFor bytes) chunk).slabs_ (IndexFor bytes)).head_ ::
          s.live, chunks⟩ := by
    simp only [allocated, hresult, if_neg hne]
  refine ⟨fun _ => ⟨IndexFor bytes, le_kSizes_IndexFor hmax, ?_⟩, by rw [hstate]; exact hk⟩
  rw [hstate, hresult]
  exact ⟨hnot, mem_liveIn.mpr ⟨List.mem_cons_self .., Function.update_self ..⟩, rfl⟩

theorem Kept.allocate (h : s.Kept) {bytes : Nat} {s' : SlabHistory}
    (hstep : step s (.allocate bytes chunk) = some s') : s.Allocates bytes chunk s' ∧ s'.Kept := by
  simp only [step] at hstep
  by_cases hbounds : bytes = 0 ∨ kMaxSlabSize < bytes
  · have hnull : s.bridge.allocate bytes chunk = (s.bridge, 0) := by
      rw [SlabPoolBridge.allocate, if_pos hbounds]
    have hneeds : s.bridge.needsChunk bytes = false := by
      simp only [SlabPoolBridge.needsChunk, CanAllocate, Bool.and_eq_false_iff,
        decide_eq_false_iff_not]
      omega
    rw [hneeds, if_neg Bool.false_ne_true, hnull, if_pos rfl] at hstep
    cases hstep
    refine ⟨fun h0 => ?_, h⟩
    rw [hnull] at h0
    exact absurd rfl h0
  · have hpos : 0 < bytes := by omega
    have hmax : bytes ≤ kMaxSlabSize := by omega
    obtain ⟨hsize, hcount⟩ := h.slab (IndexFor bytes)
    by_cases hhead : (s.bridge.allocator_.slabs_ (IndexFor bytes)).head_ = 0
    · have hneeds : s.bridge.needsChunk bytes = true := by
        simp [SlabPoolBridge.needsChunk, SlabPoolBridge.slab, CanAllocate, hpos, hmax, hhead]
      have hsupplied : s.bridge.allocator_.supplied (IndexFor bytes) chunk =
          s.bridge.allocator_.grow (IndexFor bytes) chunk := if_pos hhead
      rw [hneeds, if_pos rfl, SlabPoolBridge.slab, hsize, hcount,
        mul_of_lt (chunk_bytes_lt (IndexFor bytes))] at hstep
      split at hstep
      · rename_i hfresh
        cases hstep
        obtain ⟨hk, hne⟩ := h.supply (IndexFor bytes) hfresh
        rw [← hsupplied] at hk hne
        exact hk.returned hpos hmax hne
      · cases hstep
    · have hneeds : s.bridge.needsChunk bytes = false := by
        simp [SlabPoolBridge.needsChunk, SlabPoolBridge.slab, hhead]
      have hsupplied : s.bridge.allocator_.supplied (IndexFor bytes) chunk =
          s.bridge.allocator_ := if_neg hhead
      rw [hneeds, if_neg Bool.false_ne_true] at hstep
      cases hstep
      have hk : Kept ⟨⟨s.bridge.allocator_.supplied (IndexFor bytes) chunk, s.bridge.size_map_⟩,
          s.live, s.chunks⟩ := by
        rw [hsupplied]
        exact h
      exact hk.returned hpos hmax (by rw [hsupplied]; exact hhead)

theorem Kept.step {s' : SlabHistory} {c : SlabCall} (h : s.Kept) (hstep : step s c = some s') :
    s'.Kept := by
  cases c with
  | allocate bytes chunk => exact (h.allocate hstep).2
  | deallocate ptr =>
    cases hstep
    by_cases hlive : ptr ∈ s.live
    · obtain ⟨i, hi⟩ := (h.mem_live ptr).mp hlive
      exact (h.deallocate hi).2
    · rw [h.deallocate_of_not_live hlive, List.erase_of_not_mem hlive]
      exact h
  | use ptr value =>
    simp only [SlabHistory.step] at hstep
    split at hstep
    · cases hstep
      exact h.use (by assumption) value
    · cases hstep

/-! ## Histories -/

theorem kept_start (junk : Nat → Nat) : (start junk).Kept := by
  refine ⟨fun i => ⟨rfl, rfl⟩, Cut.nil, fun c hc => absurd hc List.not_mem_nil, List.nodup_nil, ?_,
    fun _ _ => rfl, fun i => ⟨[], ?_⟩⟩
  · intro x
    simp [start, SlabPoolBridge.construct]
  · have hset : {x : Nat | x ∈ carvedFor [] i} = ∅ := by simp [carvedFor, carved]
    have hmap : {x : Nat | (none : Option Nat) = some (kSizes i)} = ∅ := by simp
    change Stocked 0 junk 0 [] {x : Nat | (none : Option Nat) = some (kSizes i)}
      {x | x ∈ carvedFor [] i}
    rw [hset, hmap]
    exact Stocked.empty 0 junk

/-- No two live blocks have a byte in common. -/
def LiveApart (s : SlabHistory) : Prop :=
  ∀ i j, ∀ x ∈ s.liveIn i, ∀ y ∈ s.liveIn j, x ≠ y → x + kSizes i ≤ y ∨ y + kSizes j ≤ x

/-- The call puts the block on the free list of the class that it was carved for, and leaves the
other slabs as they are. -/
def Frees (s : SlabHistory) (i : Fin kSlabCount) (ptr : Nat) (s' : SlabHistory) : Prop :=
  ptr ∈ carvedFor s.chunks i ∧ s'.live = s.live.erase ptr ∧
    (∃ free, Chain 0 s.bridge.allocator_.next (s.bridge.allocator_.slabs_ i).head_ free ∧
      Chain 0 s'.bridge.allocator_.next (s'.bridge.allocator_.slabs_ i).head_ (ptr :: free)) ∧
    ∀ j, j ≠ i → s'.bridge.allocator_.slabs_ j = s.bridge.allocator_.slabs_ j

/-- In each class the free list and the live blocks are the blocks that were carved for it, and the
calls do what they should. -/
structure Partitioned (s : SlabHistory) : Prop where
  classes : ∀ i, ∃ free,
    Chain 0 s.bridge.allocator_.next (s.bridge.allocator_.slabs_ i).head_ free ∧
      (free ++ s.liveIn i).Perm (carvedFor s.chunks i) ∧ (carvedFor s.chunks i).Nodup
  within : ∀ i, ∀ x ∈ carvedFor s.chunks i, ∃ c ∈ s.chunks,
    c.page ≤ x ∧ x + kSizes i ≤ c.page + c.bytes
  live : ∀ x ∈ s.live, ∃ i, x ∈ s.liveIn i
  apart : s.LiveApart
  allocate : ∀ bytes chunk s', step s (.allocate bytes chunk) = some s' →
    s.Allocates bytes chunk s' ∧ s'.LiveApart
  other : ∀ ptr, ptr ∉ s.live → step s (.deallocate ptr) = some s
  free : ∀ i, ∀ ptr ∈ s.liveIn i, ∃ s', step s (.deallocate ptr) = some s' ∧ s.Frees i ptr s'

namespace Kept

theorem liveApart (h : s.Kept) : s.LiveApart := by
  intro i j x hx y hy hne
  obtain ⟨c, hc, hci, hxc⟩ := mem_carvedFor.mp (h.live_carvedFor (mem_liveIn.mp hx).2)
  obtain ⟨d, hd, hdj, hyd⟩ := mem_carvedFor.mp (h.live_carvedFor (mem_liveIn.mp hy).2)
  have hapart := h.cut.blocks_apart hc hd hxc hyd (Or.inl hne)
  rwa [hci, hdj] at hapart

theorem frees (h : s.Kept) {ptr : Nat} (hptr : s.bridge.size_map_ ptr = some (kSizes i)) :
    ∃ s', SlabHistory.step s (.deallocate ptr) = some s' ∧ s.Frees i ptr s' := by
  have hcarved := h.live_carvedFor hptr
  obtain ⟨free, hs⟩ := h.stocked i
  have hpush := hs.push (h.ne_zero hcarved) hptr
  refine ⟨_, rfl, hcarved, rfl, ⟨free, hs.chain, ?_⟩, ?_⟩
  · rw [(h.deallocate hptr).1]
    simp only [Push, setSlab_self]
    exact hpush.chain
  · intro j hj
    rw [(h.deallocate hptr).1]
    simp only [Push, setSlab_of_ne _ _ hj]

theorem partitioned (h : s.Kept) : s.Partitioned := by
  constructor
  · intro i
    obtain ⟨free, hs⟩ := h.stocked i
    have hnodup : (carvedFor s.chunks i).Nodup := (h.cut.sublist List.filter_sublist).nodup
    exact ⟨free, hs.chain, hs.perm (h.nodup.filter _) hnodup (fun _ => h.mem_liveIn_iff)
      (fun _ => Iff.rfl), hnodup⟩
  · intro i x hx
    obtain ⟨c, hc, hci, hxc⟩ := mem_carvedFor.mp hx
    have hwithin := Chunk.within hxc
    rw [hci] at hwithin
    exact ⟨c, hc, hwithin⟩
  · intro x hx
    obtain ⟨i, hi⟩ := (h.mem_live x).mp hx
    exact ⟨i, mem_liveIn.mpr ⟨hx, hi⟩⟩
  · exact h.liveApart
  · intro bytes chunk s' hstep
    obtain ⟨hallocates, h'⟩ := h.allocate hstep
    exact ⟨hallocates, h'.liveApart⟩
  · intro ptr hptr
    simp only [SlabHistory.step, h.deallocate_of_not_live hptr, List.erase_of_not_mem hptr]
  · intro i ptr hptr
    exact h.frees (mem_liveIn.mp hptr).2

end Kept

/-- In every history of the bridge, each class has its blocks on its free list or live. -/
theorem classes_are_partitioned (junk : Nat → Nat) {calls : List SlabCall} {s : SlabHistory}
    (hrun : run step (start junk) calls = some s) : s.Partitioned := by
  have hkept : s.Kept :=
    invariant_of_run (fun _ _ _ h hstep => Kept.step h hstep) (kept_start junk) hrun
  exact hkept.partitioned

/-- Two classes, a block freed twice, and pointers that no call returned. -/
def twoClasses : List SlabCall :=
  [.allocate 4096 4096, .allocate 1000 8388608, .use 1048576 7, .deallocate 8649728,
    .deallocate 8649728, .deallocate 5, .deallocate 0]

theorem two_classes_are_partitioned :
    ∃ s, run step (start fun _ => 0) twoClasses = some s ∧ s.Partitioned := by
  have hsome : (run step (start fun _ => 0) twoClasses).isSome = true := by decide +kernel
  obtain ⟨s, hs⟩ := Option.isSome_iff_exists.mp hsome
  exact ⟨s, hs, classes_are_partitioned _ hs⟩

end SlabHistory

end sci.bridges
