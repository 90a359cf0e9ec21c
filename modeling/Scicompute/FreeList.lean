-- Allocators that cut chunks of memory into blocks and link the free blocks through their own first
-- words. `Chunk` says where the blocks of a chunk are, and `Stocked` that every block is on the
-- free list or live. The rules here keep it through pops, pushes, new blocks and writes to live
-- blocks.
import Scicompute.LinkedStack

open LinkedStack

namespace FreeList

/-! ## Chunks -/

/-- A chunk of `count` blocks of `size` bytes. -/
structure Chunk where
  page : Nat
  size : Nat
  count : Nat
  deriving DecidableEq

namespace Chunk

def bytes (c : Chunk) : Nat := c.size * c.count

def blocks (c : Chunk) : List Nat := (List.range c.count).map fun i => c.page + i * c.size

/-- The chunks have no byte in common. -/
def Apart (c d : Chunk) : Prop := c.page + c.bytes ≤ d.page ∨ d.page + d.bytes ≤ c.page

variable {c d : Chunk} {x y : Nat}

theorem mem_blocks : x ∈ c.blocks ↔ ∃ i < c.count, c.page + i * c.size = x := by
  simp [blocks]

theorem blocks_succ (page size n : Nat) :
    (Chunk.mk page size (n + 1)).blocks = (Chunk.mk page size n).blocks ++ [page + n * size] := by
  simp [blocks, List.range_succ]

theorem within (h : x ∈ c.blocks) : c.page ≤ x ∧ x + c.size ≤ c.page + c.bytes := by
  obtain ⟨i, hi, rfl⟩ := mem_blocks.mp h
  have hle : (i + 1) * c.size ≤ c.count * c.size := Nat.mul_le_mul_right _ hi
  rw [Nat.add_mul, Nat.one_mul] at hle
  rw [bytes, Nat.mul_comm c.size]
  omega

theorem blocks_apart (hx : x ∈ c.blocks) (hy : y ∈ c.blocks) (hne : x ≠ y) :
    x + c.size ≤ y ∨ y + c.size ≤ x := by
  obtain ⟨i, -, rfl⟩ := mem_blocks.mp hx
  obtain ⟨j, -, rfl⟩ := mem_blocks.mp hy
  rcases Nat.lt_trichotomy i j with hij | rfl | hij
  · have hle : (i + 1) * c.size ≤ j * c.size := Nat.mul_le_mul_right _ hij
    rw [Nat.add_mul, Nat.one_mul] at hle
    omega
  · exact absurd rfl hne
  · have hle : (j + 1) * c.size ≤ i * c.size := Nat.mul_le_mul_right _ hij
    rw [Nat.add_mul, Nat.one_mul] at hle
    omega

theorem nodup_blocks (hpos : 0 < c.size) : c.blocks.Nodup := by
  refine List.Nodup.map ?_ List.nodup_range
  intro i j hij
  exact Nat.eq_of_mul_eq_mul_right hpos (Nat.add_left_cancel hij)

/-- Chunks that are apart have no block in common. -/
theorem Apart.not_mem (h : c.Apart d) (hc : 0 < c.size) (hd : 0 < d.size) (hx : x ∈ c.blocks) :
    x ∉ d.blocks := by
  intro hx'
  have h1 := within hx
  have h2 := within hx'
  unfold Apart at h
  omega

end Chunk

/-- The chunks have no byte in common, and no empty block. -/
structure Cut (chunks : List Chunk) : Prop where
  apart : chunks.Pairwise Chunk.Apart
  pos : ∀ c ∈ chunks, 0 < c.size

/-- The blocks of all chunks. -/
def carved (chunks : List Chunk) : List Nat := chunks.flatMap Chunk.blocks

variable {chunks chunks' : List Chunk} {c d : Chunk} {x y : Nat}

theorem mem_carved : x ∈ carved chunks ↔ ∃ c ∈ chunks, x ∈ c.blocks := List.mem_flatMap

namespace Cut

theorem nil : Cut [] := ⟨List.Pairwise.nil, fun _ h => absurd h List.not_mem_nil⟩

theorem cons (h : Cut chunks) (hpos : 0 < c.size) (hapart : ∀ d ∈ chunks, c.Apart d) :
    Cut (c :: chunks) := by
  refine ⟨List.pairwise_cons.mpr ⟨hapart, h.apart⟩, ?_⟩
  intro d hd
  rcases List.mem_cons.mp hd with rfl | hd
  · exact hpos
  · exact h.pos d hd

theorem sublist (h : Cut chunks) (hs : chunks'.Sublist chunks) : Cut chunks' :=
  ⟨h.apart.sublist hs, fun c hc => h.pos c (hs.subset hc)⟩

/-- Two blocks have no byte in common. -/
theorem blocks_apart (h : Cut chunks) (hc : c ∈ chunks) (hd : d ∈ chunks) (hx : x ∈ c.blocks)
    (hy : y ∈ d.blocks) (hne : x ≠ y ∨ c ≠ d) : x + c.size ≤ y ∨ y + d.size ≤ x := by
  by_cases hcd : c = d
  · subst hcd
    exact Chunk.blocks_apart hx hy (hne.resolve_right fun h => h rfl)
  · have hsymm : Std.Symm Chunk.Apart := ⟨fun _ _ h => h.symm⟩
    have hapart : c.Apart d := h.apart.forall hc hd hcd
    have h1 := Chunk.within hx
    have h2 := Chunk.within hy
    unfold Chunk.Apart at hapart
    omega

/-- Two chunks have no block in common. -/
theorem not_mem (h : Cut chunks) (hc : c ∈ chunks) (hd : d ∈ chunks) (hne : c ≠ d)
    (hx : x ∈ c.blocks) : x ∉ d.blocks := by
  intro hx'
  have hpos := h.pos c hc
  have hpos' := h.pos d hd
  rcases h.blocks_apart hc hd hx hx' (Or.inr hne) with hlt | hlt
  · omega
  · omega

theorem nodup (h : Cut chunks) : (carved chunks).Nodup := by
  induction chunks with
  | nil => exact List.nodup_nil
  | cons c chunks ih =>
    obtain ⟨hc, hrest⟩ := List.pairwise_cons.mp h.apart
    have hpos := h.pos c (List.mem_cons_self ..)
    rw [carved, List.flatMap_cons, List.nodup_append']
    refine ⟨Chunk.nodup_blocks hpos, ih (h.sublist (List.sublist_cons_self ..)), ?_⟩
    intro x hx hx'
    obtain ⟨d, hd, hxd⟩ := mem_carved.mp hx'
    exact (hc d hd).not_mem hpos (h.pos d (List.mem_cons_of_mem _ hd)) hx hxd

end Cut

/-! ## Free lists -/

variable {P : Type*} {null head node : P} {next : P → P} {free : List P} {live blocks : Set P}

/-- Every block is on the free list that starts at `head`, or live, and not both. -/
structure Stocked (null : P) (next : P → P) (head : P) (free : List P) (live blocks : Set P) :
    Prop where
  chain : Chain null next head free
  nodup : free.Nodup
  apart : ∀ x ∈ free, x ∉ live
  mem_iff : ∀ x, x ∈ blocks ↔ x ∈ free ∨ x ∈ live

namespace Stocked

theorem empty (null : P) (next : P → P) : Stocked null next null [] ∅ ∅ :=
  ⟨rfl, List.nodup_nil, fun _ h => absurd h List.not_mem_nil, by simp⟩

/-- A pop takes the first block of the free list. -/
theorem pop (h : Stocked null next head free live blocks) (hne : head ≠ null) :
    ∃ rest, free = head :: rest ∧
      Stocked null next (next head) rest (insert head live) blocks := by
  obtain ⟨rest, rfl, hchain⟩ := h.chain.uncons hne
  obtain ⟨hnot, hnodup⟩ := List.nodup_cons.mp h.nodup
  refine ⟨rest, rfl, hchain, hnodup, ?_, ?_⟩
  · rintro x hx (rfl | hlive)
    · exact hnot hx
    · exact h.apart x (List.mem_cons_of_mem _ hx) hlive
  · intro x
    rw [h.mem_iff, List.mem_cons, Set.mem_insert_iff]
    tauto

variable [DecidableEq P]

/-- A write to a block that is not free. -/
theorem write (h : Stocked null next head free live blocks) (hx : node ∉ free) (value : P) :
    Stocked null (Function.update next node value) head free live blocks :=
  ⟨h.chain.write hx, h.nodup, h.apart, h.mem_iff⟩

/-- A push of a live block. -/
theorem push (h : Stocked null next head free live blocks) (hne : node ≠ null)
    (hlive : node ∈ live) :
    Stocked null (Function.update next node head) node (node :: free) (live \ {node}) blocks := by
  have hnot : node ∉ free := fun hf => h.apart node hf hlive
  refine ⟨?_, List.nodup_cons.mpr ⟨hnot, h.nodup⟩, ?_, ?_⟩
  · exact (h.chain.write hnot).push hne (Function.update_self ..)
  · intro x hx hd
    rcases List.mem_cons.mp hx with rfl | hx
    · exact hd.2 rfl
    · exact h.apart x hx hd.1
  · intro x
    rw [h.mem_iff, List.mem_cons, Set.mem_sdiff, Set.mem_singleton_iff]
    constructor
    · rintro (hf | hl)
      · exact Or.inl (Or.inr hf)
      · by_cases hxn : x = node
        · exact Or.inl (Or.inl hxn)
        · exact Or.inr ⟨hl, hxn⟩
    · rintro ((rfl | hf) | hl)
      · exact Or.inr hlive
      · exact Or.inl hf
      · exact Or.inr hl.1

/-- A push of a new block. -/
theorem add (h : Stocked null next head free live blocks) (hne : node ≠ null)
    (hnew : node ∉ blocks) :
    Stocked null (Function.update next node head) node (node :: free) live
      (insert node blocks) := by
  rw [h.mem_iff, not_or] at hnew
  refine ⟨?_, List.nodup_cons.mpr ⟨hnew.1, h.nodup⟩, ?_, ?_⟩
  · exact (h.chain.write hnew.1).push hne (Function.update_self ..)
  · intro x hx
    rcases List.mem_cons.mp hx with rfl | hx
    · exact hnew.2
    · exact h.apart x hx
  · intro x
    rw [Set.mem_insert_iff, h.mem_iff, List.mem_cons, or_assoc]

/-- A write outside the blocks. -/
theorem frame (h : Stocked null next head free live blocks) (hout : node ∉ blocks) (value : P) :
    Stocked null (Function.update next node value) head free live blocks :=
  h.write (fun hf => hout ((h.mem_iff node).mpr (Or.inl hf))) value

/-- A push of the next block of a chunk, behind the first `n`. -/
theorem carve {next : Nat → Nat} {head : Nat} {free : List Nat} {live blocks : Set Nat}
    {page size n : Nat} (hpos : 0 < size) (hpage : 0 < page)
    (hnew : ∀ x ∈ (Chunk.mk page size (n + 1)).blocks, x ∉ blocks)
    (h : Stocked 0 next head free live ({x | x ∈ (Chunk.mk page size n).blocks} ∪ blocks)) :
    Stocked 0 (Function.update next (page + n * size) head) (page + n * size)
      ((page + n * size) :: free) live
      ({x | x ∈ (Chunk.mk page size (n + 1)).blocks} ∪ blocks) := by
  have hsplit := Chunk.blocks_succ page size n
  have hlast : page + n * size ∈ (Chunk.mk page size (n + 1)).blocks := by simp [hsplit]
  have hout : page + n * size ∉ {x | x ∈ (Chunk.mk page size n).blocks} ∪ blocks := by
    have hnodup := Chunk.nodup_blocks (c := ⟨page, size, n + 1⟩) hpos
    rw [hsplit, List.nodup_append'] at hnodup
    rintro (hx | hx)
    · exact hnodup.2.2 hx (List.mem_singleton_self _)
    · exact hnew _ hlast hx
  have hset : insert (page + n * size) ({x | x ∈ (Chunk.mk page size n).blocks} ∪ blocks) =
      {x | x ∈ (Chunk.mk page size (n + 1)).blocks} ∪ blocks := by
    ext x
    simp only [hsplit, Set.mem_insert_iff, Set.mem_union, Set.mem_ofPred_eq, List.mem_append,
      List.mem_singleton]
    tauto
  rw [← hset]
  exact h.add (by omega) hout

omit [DecidableEq P] in
/-- Lists of the live blocks and of all blocks, without repetitions. -/
theorem perm {live' all : List P} (h : Stocked null next head free live blocks)
    (hlive : live'.Nodup) (hall : all.Nodup) (hmem : ∀ x, x ∈ live' ↔ x ∈ live)
    (hblocks : ∀ x, x ∈ all ↔ x ∈ blocks) : (free ++ live').Perm all := by
  have hnodup : (free ++ live').Nodup := by
    refine List.nodup_append'.mpr ⟨h.nodup, hlive, ?_⟩
    intro x hf hl
    exact h.apart x hf ((hmem x).mp hl)
  rw [List.perm_ext_iff_of_nodup hnodup hall]
  intro x
  rw [List.mem_append, hblocks, h.mem_iff, hmem]

end Stocked

end FreeList
