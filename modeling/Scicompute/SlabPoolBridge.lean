-- `SlabPoolBridge` (include/bridges/pool_bridge.hpp) over `legacy_pool::SlabAllocator`
-- (src/bridges/pool_bridge.cpp): eight classes of blocks, each with chunks and a free list of its
-- own, and a map from the live blocks to their sizes. Each call runs alone, and `operator new[]`
-- always succeeds.
import Scicompute.FreeList
import Scicompute.Word

open Word FreeList

namespace sci.bridges

/-! ## The allocator -/

def kMaxSlabSize : Nat := 4096

def kSlabCount : Nat := 8

instance : NeZero kSlabCount := ⟨by decide⟩

def kSizes : Fin kSlabCount → Nat := ![16, 32, 64, 128, 256, 512, 1024, 4096]

/-- `head_` is that of `free_list`. -/
structure Slab where
  block_size : Nat
  blocks_per_chunk : Nat
  chunks : List Nat
  head_ : Nat

/-- `next` is the first word of each block, read as `FreeNode::next`. -/
structure SlabAllocator where
  slabs_ : Fin kSlabCount → Slab
  next : Nat → Nat

namespace SlabAllocator

/-- The constructor; the memory is what `junk` says. -/
def construct (junk : Nat → Nat) : SlabAllocator where
  slabs_ := fun i => ⟨kSizes i, 256, [], 0⟩
  next := junk

def IndexFor (size : Nat) : Fin kSlabCount :=
  if kSizes 7 < size then 7
  else ((List.finRange kSlabCount).find? fun i => decide (size ≤ kSizes i)).getD 7

def GetSlabSize (size : Nat) : Nat := kSizes (IndexFor size)

def CanAllocate (size : Nat) : Bool := decide (0 < size) && decide (size ≤ kMaxSlabSize)

/-- The allocator with one slab changed. -/
def setSlab (a : SlabAllocator) (i : Fin kSlabCount) (slab : Slab) : SlabAllocator :=
  { a with slabs_ := Function.update a.slabs_ i slab }

/-- `free_list.Push` of a slab. -/
def Push (a : SlabAllocator) (i : Fin kSlabCount) (node : Nat) : SlabAllocator :=
  { a.setSlab i { a.slabs_ i with head_ := node } with
    next := Function.update a.next node (a.slabs_ i).head_ }

/-- `free_list.Pop` of a slab. -/
def Pop (a : SlabAllocator) (i : Fin kSlabCount) : SlabAllocator × Nat :=
  if (a.slabs_ i).head_ = 0 then (a, 0)
  else
    (a.setSlab i { a.slabs_ i with head_ := a.next (a.slabs_ i).head_ }, (a.slabs_ i).head_)

/-- The loop that pushes the blocks of a new chunk. -/
def carve (a : SlabAllocator) (i : Fin kSlabCount) (chunk : Nat) : Nat → SlabAllocator
  | 0 => a
  | n + 1 =>
    let a := a.carve i chunk n
    a.Push i (chunk + mul n (a.slabs_ i).block_size)

/-- A new chunk of a slab. -/
def grow (a : SlabAllocator) (i : Fin kSlabCount) (chunk : Nat) : SlabAllocator :=
  (a.setSlab i { a.slabs_ i with chunks := (a.slabs_ i).chunks ++ [chunk] }).carve i chunk
    (a.slabs_ i).blocks_per_chunk

/-- `operator new[]` returns `chunk` when it is called. -/
def Allocate (a : SlabAllocator) (size chunk : Nat) : SlabAllocator × Nat :=
  if CanAllocate size then
    let idx := IndexFor size
    let first := a.Pop idx
    if first.2 = 0 then
      let second := first.1.Pop idx
      if second.2 = 0 then (second.1.grow idx chunk).Pop idx else second
    else first
  else (a, 0)

def Deallocate (a : SlabAllocator) (ptr size : Nat) : SlabAllocator :=
  if ptr = 0 then a else a.Push (IndexFor size) ptr

end SlabAllocator

open SlabAllocator

/-! ## The bridge -/

structure SlabPoolBridge where
  allocator_ : SlabAllocator
  size_map_ : Nat → Option Nat

namespace SlabPoolBridge

def construct (junk : Nat → Nat) : SlabPoolBridge := ⟨SlabAllocator.construct junk, fun _ => none⟩

def allocate (b : SlabPoolBridge) (bytes chunk : Nat) : SlabPoolBridge × Nat :=
  if bytes = 0 ∨ kMaxSlabSize < bytes then (b, 0)
  else
    let rounded := GetSlabSize bytes
    let r := b.allocator_.Allocate rounded chunk
    if r.2 = 0 then ({ b with allocator_ := r.1 }, 0)
    else (⟨r.1, Function.update b.size_map_ r.2 (some rounded)⟩, r.2)

def deallocate (b : SlabPoolBridge) (ptr : Nat) : SlabPoolBridge :=
  if ptr = 0 then b
  else
    match b.size_map_ ptr with
    | none => b
    | some size => ⟨b.allocator_.Deallocate ptr size, Function.update b.size_map_ ptr none⟩

/-- The slab that serves a request. -/
def slab (b : SlabPoolBridge) (bytes : Nat) : Slab := b.allocator_.slabs_ (IndexFor bytes)

/-- `allocate` gets a new chunk. -/
def needsChunk (b : SlabPoolBridge) (bytes : Nat) : Bool :=
  CanAllocate bytes && decide ((b.slab bytes).head_ = 0)

end SlabPoolBridge

/-! ## Sizes -/

theorem kSizes_injective : Function.Injective kSizes := by decide

theorem kSizes_pos : ∀ i, 0 < kSizes i := by decide

theorem chunk_bytes_lt : ∀ i, kSizes i * 256 < wordSize := by decide

theorem canAllocate_kSizes : ∀ i, CanAllocate (kSizes i) = true := by decide

/-- A size of a class leads back to the class. -/
theorem IndexFor_kSizes : ∀ i, IndexFor (kSizes i) = i := by decide

/-- A request fits into the blocks of its class. -/
theorem le_kSizes_IndexFor {bytes : Nat} (h : bytes ≤ kMaxSlabSize) :
    bytes ≤ kSizes (IndexFor bytes) := by
  unfold IndexFor
  have hlast : kSizes 7 = kMaxSlabSize := rfl
  rw [hlast, if_neg (Nat.not_lt.mpr h)]
  cases hf : (List.finRange kSlabCount).find? fun i => decide (bytes ≤ kSizes i) with
  | none => exact h
  | some i => simpa using List.find?_some hf

namespace SlabAllocator

/-! ## The slabs -/

variable {a : SlabAllocator} {i j : Fin kSlabCount} {chunk n : Nat}

@[simp] theorem setSlab_self (a : SlabAllocator) (i : Fin kSlabCount) (slab : Slab) :
    (a.setSlab i slab).slabs_ i = slab := Function.update_self ..

theorem setSlab_of_ne (a : SlabAllocator) (slab : Slab) (h : j ≠ i) :
    (a.setSlab i slab).slabs_ j = a.slabs_ j := Function.update_of_ne h ..

/-- What holds of all slabs holds still when it holds of the new one. -/
theorem forall_setSlab {p : Fin kSlabCount → Slab → Prop} {slab : Slab}
    (h : ∀ j, p j (a.slabs_ j)) (hi : p i slab) (j : Fin kSlabCount) :
    p j ((a.setSlab i slab).slabs_ j) := by
  by_cases hj : j = i
  · subst hj
    rw [setSlab_self]
    exact hi
  · rw [setSlab_of_ne a slab hj]
    exact h j

@[simp] theorem setSlab_next (a : SlabAllocator) (i : Fin kSlabCount) (slab : Slab) :
    (a.setSlab i slab).next = a.next := rfl

/-- A new chunk changes the head of its slab, and no other slab. -/
theorem carve_slabs_ (a : SlabAllocator) (i : Fin kSlabCount) (chunk n : Nat) :
    ∃ head, (a.carve i chunk n).slabs_ =
      (a.setSlab i { a.slabs_ i with head_ := head }).slabs_ := by
  induction n with
  | zero => exact ⟨(a.slabs_ i).head_, by simp [carve, setSlab]⟩
  | succ n ih =>
    obtain ⟨head, ih⟩ := ih
    refine ⟨chunk + mul n ((a.carve i chunk n).slabs_ i).block_size, ?_⟩
    change Function.update (a.carve i chunk n).slabs_ i _ = _
    rw [ih]
    simp [setSlab]

theorem carve_of_ne (h : j ≠ i) : (a.carve i chunk n).slabs_ j = a.slabs_ j := by
  obtain ⟨head, hslabs⟩ := a.carve_slabs_ i chunk n
  rw [hslabs, setSlab_of_ne a _ h]

/-- Block `n` of a chunk that is large enough. -/
theorem carve_succ (hn : (a.slabs_ i).block_size * (n + 1) < wordSize) :
    a.carve i chunk (n + 1) =
      (a.carve i chunk n).Push i (chunk + n * (a.slabs_ i).block_size) := by
  obtain ⟨head, hslabs⟩ := a.carve_slabs_ i chunk n
  have hsize : ((a.carve i chunk n).slabs_ i).block_size = (a.slabs_ i).block_size := by
    rw [hslabs, setSlab_self]
  have hlt : n * (a.slabs_ i).block_size < wordSize := by
    refine lt_of_le_of_lt ?_ hn
    rw [Nat.mul_comm]
    exact Nat.mul_le_mul_left _ (Nat.le_succ n)
  rw [carve, hsize, mul_of_lt hlt]

/-- The blocks of a new chunk get onto the free list of its slab. -/
theorem carve_stocked {free : List Nat} {live blocks : Set Nat}
    (h : Stocked 0 a.next (a.slabs_ i).head_ free live blocks) (hpos : 0 < (a.slabs_ i).block_size)
    (hchunk : 0 < chunk) (hn : (a.slabs_ i).block_size * n < wordSize)
    (hnew : ∀ x ∈ (Chunk.mk chunk (a.slabs_ i).block_size n).blocks, x ∉ blocks) :
    ∃ free', Stocked 0 (a.carve i chunk n).next ((a.carve i chunk n).slabs_ i).head_ free' live
      ({x | x ∈ (Chunk.mk chunk (a.slabs_ i).block_size n).blocks} ∪ blocks) := by
  induction n with
  | zero =>
    have hset : {x | x ∈ (Chunk.mk chunk (a.slabs_ i).block_size 0).blocks} ∪ blocks = blocks := by
      simp [Chunk.blocks]
    refine ⟨free, ?_⟩
    rw [hset]
    exact h
  | succ n ih =>
    have hlt : (a.slabs_ i).block_size * n < wordSize :=
      lt_of_le_of_lt (Nat.mul_le_mul_left _ (Nat.le_succ n)) hn
    have hfirst : ∀ x ∈ (Chunk.mk chunk (a.slabs_ i).block_size n).blocks, x ∉ blocks := by
      intro x hx
      apply hnew
      rw [Chunk.blocks_succ]
      exact List.mem_append_left _ hx
    obtain ⟨free', hs⟩ := ih hlt hfirst
    refine ⟨(chunk + n * (a.slabs_ i).block_size) :: free', ?_⟩
    rw [carve_succ hn]
    simp only [Push, setSlab_self]
    exact hs.carve hpos hchunk hnew

/-- A new chunk leaves the other free lists as they were. -/
theorem carve_frame {head : Nat} {free : List Nat} {live blocks : Set Nat}
    (h : Stocked 0 a.next head free live blocks)
    (hn : (a.slabs_ i).block_size * n < wordSize)
    (hnew : ∀ x ∈ (Chunk.mk chunk (a.slabs_ i).block_size n).blocks, x ∉ blocks) :
    Stocked 0 (a.carve i chunk n).next head free live blocks := by
  induction n with
  | zero => exact h
  | succ n ih =>
    have hlt : (a.slabs_ i).block_size * n < wordSize :=
      lt_of_le_of_lt (Nat.mul_le_mul_left _ (Nat.le_succ n)) hn
    rw [Chunk.blocks_succ] at hnew
    have hs := ih hlt fun x hx => hnew x (List.mem_append_left _ hx)
    rw [carve_succ hn]
    exact hs.frame (hnew _ (List.mem_append_right _ (List.mem_singleton_self _))) _

theorem head_carve_ne_zero (hchunk : 0 < chunk) (hn : (a.slabs_ i).block_size * n < wordSize)
    (hpos : 0 < n) : ((a.carve i chunk n).slabs_ i).head_ ≠ 0 := by
  obtain ⟨k, rfl⟩ : ∃ k, n = k + 1 := ⟨n - 1, by omega⟩
  rw [carve_succ hn]
  simp only [Push, setSlab_self]
  omega

/-- The allocator whose free list `Allocate` pops in the end. -/
def supplied (a : SlabAllocator) (i : Fin kSlabCount) (chunk : Nat) : SlabAllocator :=
  if (a.slabs_ i).head_ = 0 then a.grow i chunk else a

theorem allocate_eq (a : SlabAllocator) (i : Fin kSlabCount) (chunk : Nat) :
    a.Allocate (kSizes i) chunk = (a.supplied i chunk).Pop i := by
  unfold Allocate supplied
  simp only [canAllocate_kSizes, if_true, IndexFor_kSizes]
  by_cases hhead : (a.slabs_ i).head_ = 0
  · have hnull : a.Pop i = (a, 0) := by simp [Pop, hhead]
    simp [hnull, hhead]
  · have hsome : (a.Pop i).2 ≠ 0 := by simp [Pop, hhead]
    rw [if_neg hsome, if_neg hhead]

end SlabAllocator

end sci.bridges
