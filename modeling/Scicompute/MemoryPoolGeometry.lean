-- The geometry of the chunks of a pool. The block size is rounded by the constructors, the size of
-- a chunk is a product modulo 2^64, and so are the offsets of its blocks.
import Scicompute.MemoryPoolHistory

open Word

namespace sci.pools

/-- `alignof(FreeNode)` -/
def alignofFreeNode : Nat := 8

namespace FixedSizeMemoryPool

variable {p : FixedSizeMemoryPool} {chunk i n : Nat}

/-- The pointers that the loop of `Expand` pushes. -/
def carvedBlocks (p : FixedSizeMemoryPool) (v : Version) (chunk : Nat) : List Nat :=
  blocksFrom p chunk 0 (p.blocks v)

theorem carve_eq_foldl (p : FixedSizeMemoryPool) (chunk n : Nat) :
    p.carve chunk n = (blocksFrom p chunk 0 n).foldl
      (fun q x => { q.Push x with
        total_allocated_ := add q.total_allocated_ q.block_size_ }) p := by
  induction n with
  | zero => rfl
  | succ n ih =>
    have hlast : blocksFrom p chunk 0 (n + 1) = blocksFrom p chunk 0 n ++ [p.block chunk n] := by
      simp only [blocksFrom, Nat.sub_zero, ← List.range_eq_range', List.range_succ, List.map_append,
        List.map_cons, List.map_nil]
    have hblock : (p.carve chunk n).block chunk n = p.block chunk n := by simp [block]
    rw [hlast, List.foldl_append, ← ih, carve]
    simp only [List.foldl_cons, List.foldl_nil, hblock]

/-- The blocks of a chunk are distinct, large enough for a `FreeNode`, aligned for it and inside of
the chunk, and the pool's block size is not less than the one that was asked for. -/
structure Sound (p : FixedSizeMemoryPool) (v : Version) (block_size chunk : Nat) : Prop where
  nodup : (p.carvedBlocks v chunk).Nodup
  size : ∀ x ∈ p.carvedBlocks v chunk, sizeofFreeNode ≤ p.block_size_
  aligned : ∀ x ∈ p.carvedBlocks v chunk, alignofFreeNode ∣ x
  within : ∀ x ∈ p.carvedBlocks v chunk,
    chunk ≤ x ∧ x + p.block_size_ ≤ chunk + mul p.block_size_ (p.blocks v)
  block_size : block_size ≤ p.block_size_

end FixedSizeMemoryPool

open FixedSizeMemoryPool

/-- A chunk has no block, or its size does not wrap around and its blocks are sized and aligned for
a `FreeNode`. -/
def GoodSizes (block_size blocks_per_chunk : Nat) : Version → Prop
  | .memory => blocks_per_chunk = 0 ∨
      (max block_size sizeofFreeNode * blocks_per_chunk < wordSize ∧
        (blocks_per_chunk = 1 ∨ alignofFreeNode ∣ max block_size sizeofFreeNode))
  | .legacy_pool => block_size + 15 < wordSize ∧ (blocks_per_chunk = 0 ∨
      (0 < block_size ∧
        (block_size + 15) / kDefaultAlignment * kDefaultAlignment * blocks_per_chunk < wordSize))

instance (block_size blocks_per_chunk : Nat) :
    ∀ v, Decidable (GoodSizes block_size blocks_per_chunk v)
  | .memory => inferInstanceAs (Decidable (blocks_per_chunk = 0 ∨
      (max block_size sizeofFreeNode * blocks_per_chunk < wordSize ∧
        (blocks_per_chunk = 1 ∨ alignofFreeNode ∣ max block_size sizeofFreeNode))))
  | .legacy_pool => inferInstanceAs (Decidable (block_size + 15 < wordSize ∧
      (blocks_per_chunk = 0 ∨ (0 < block_size ∧
        (block_size + 15) / kDefaultAlignment * kDefaultAlignment * blocks_per_chunk < wordSize))))

variable {p : FixedSizeMemoryPool} {v : Version} {size chunk n : Nat}

/-! ## Offsets modulo 2^64 -/

/-- The blocks stay inside of the chunk if and only if the product does not wrap around. -/
theorem offsets_within_iff :
    (∀ i < n, mul i size + size ≤ mul size n) ↔ size * n < wordSize := by
  constructor
  · intro h
    by_contra hwrap
    -- the first block whose end is beyond the last address
    have hex : ∃ m, wordSize ≤ m * size := ⟨n, by rw [Nat.mul_comm]; omega⟩
    have hlast : wordSize ≤ Nat.find hex * size := Nat.find_spec hex
    have hle : Nat.find hex ≤ n := Nat.find_min' hex (by rw [Nat.mul_comm]; omega)
    obtain ⟨i, hi⟩ : ∃ i, Nat.find hex = i + 1 := by
      refine ⟨Nat.find hex - 1, ?_⟩
      have hpos : Nat.find hex ≠ 0 := by
        intro h0
        rw [h0, Nat.zero_mul] at hlast
        exact absurd hlast (by decide)
      omega
    have hfit : i * size < wordSize := by
      have := Nat.find_min hex (m := i) (by omega)
      omega
    have hend := h i (by omega)
    rw [mul_of_lt hfit] at hend
    rw [hi, Nat.add_mul, Nat.one_mul] at hlast
    have hsmall : mul size n < wordSize := Nat.mod_lt _ (by decide)
    omega
  · intro h i hi
    have hle : (i + 1) * size ≤ size * n := by
      rw [Nat.mul_comm size]
      exact Nat.mul_le_mul_right _ hi
    rw [Nat.add_mul, Nat.one_mul] at hle
    rw [mul_of_lt h, mul_of_lt (by omega)]
    exact hle

/-- The offsets are multiples of 8 if and only if the size is one, or there is no second block. -/
theorem offsets_aligned_iff (hn : 0 < n) (hsize : size < wordSize) :
    (∀ i < n, alignofFreeNode ∣ mul i size) ↔ n = 1 ∨ alignofFreeNode ∣ size := by
  constructor
  · intro h
    by_cases hone : n = 1
    · exact Or.inl hone
    · have hsecond := h 1 (by omega)
      rw [mul_of_lt (by omega), Nat.one_mul] at hsecond
      exact Or.inr hsecond
  · rintro (rfl | h) i hi
    · obtain rfl : i = 0 := by omega
      exact ⟨0, by simp [mul]⟩
    · exact (Nat.dvd_mod_iff (by decide : alignofFreeNode ∣ wordSize)).mpr (h.mul_left i)

theorem mem_carvedBlocks {x : Nat} :
    x ∈ p.carvedBlocks v chunk ↔ ∃ i < p.blocks v, p.block chunk i = x := by
  simp [carvedBlocks, blocksFrom, ← List.range_eq_range']

/-- The geometry of the chunks of a pool, by its sizes. -/
theorem sound_iff {block_size : Nat} (hsize : p.block_size_ < wordSize)
    (hchunk : kDefaultAlignment ∣ chunk) : p.Sound v block_size chunk ↔
      block_size ≤ p.block_size_ ∧ (p.blocks v = 0 ∨ (sizeofFreeNode ≤ p.block_size_ ∧
        p.block_size_ * p.blocks v < wordSize ∧
        (p.blocks v = 1 ∨ alignofFreeNode ∣ p.block_size_))) := by
  have halign : alignofFreeNode ∣ chunk := Nat.dvd_trans (by decide) hchunk
  constructor
  · intro h
    refine ⟨h.block_size, ?_⟩
    rcases Nat.eq_zero_or_pos (p.blocks v) with h0 | hpos
    · exact Or.inl h0
    · refine Or.inr ⟨h.size _ (mem_carvedBlocks.mpr ⟨0, hpos, rfl⟩), ?_, ?_⟩
      · refine offsets_within_iff.mp fun i hi => ?_
        have hend := (h.within _ (mem_carvedBlocks.mpr ⟨i, hi, rfl⟩)).2
        rw [block] at hend
        omega
      · refine (offsets_aligned_iff hpos hsize).mp fun i hi => ?_
        have hdvd := h.aligned _ (mem_carvedBlocks.mpr ⟨i, hi, rfl⟩)
        exact (Nat.dvd_add_right halign).mp hdvd
  · rintro ⟨hle, h0 | ⟨hnode, hbytes, hone⟩⟩
    · have hnone : p.carvedBlocks v chunk = [] := blocksFrom_of_le p chunk (by omega)
      refine ⟨?_, ?_, ?_, ?_, hle⟩
      · rw [hnone]
        exact List.nodup_nil
      all_goals
        intro x hx
        rw [hnone] at hx
        cases hx
    · have hpos : 0 < p.block_size_ := Nat.lt_of_lt_of_le (by decide) hnode
      refine ⟨nodup_blocksFrom hpos hbytes, fun _ _ => hnode, ?_, ?_, hle⟩
      · intro x hx
        obtain ⟨i, hi, rfl⟩ := mem_carvedBlocks.mp hx
        exact (Nat.dvd_add_right halign).mpr
          ((offsets_aligned_iff (Nat.zero_lt_of_lt hi) hsize).mpr hone i hi)
      · intro x hx
        obtain ⟨i, hi, rfl⟩ := mem_carvedBlocks.mp hx
        have hend := offsets_within_iff.mpr hbytes i hi
        rw [block]
        omega

/-! ## The constructors -/

variable {block_size blocks_per_chunk : Nat}

theorem construct_block_size_ (v : Version) (block_size blocks_per_chunk page : Nat)
    (junk : Nat → Nat) : (construct v block_size blocks_per_chunk page junk).block_size_ =
      match v with
      | .memory => max block_size sizeofFreeNode
      | .legacy_pool => align_up block_size kDefaultAlignment := by
  cases v with
  | memory => rfl
  | legacy_pool => simp [construct]

theorem construct_blocks (v : Version) (block_size blocks_per_chunk page : Nat)
    (junk : Nat → Nat) :
    (construct v block_size blocks_per_chunk page junk).blocks v = blocks_per_chunk := by
  cases v with
  | memory => rfl
  | legacy_pool => simp [construct, blocks]

/-- The chunks of a pool are sound if and only if its sizes are good. -/
theorem chunks_are_sound_iff (v : Version) (page : Nat) (junk : Nat → Nat)
    (hsize : block_size < wordSize) (hchunk : kDefaultAlignment ∣ chunk) :
    (construct v block_size blocks_per_chunk page junk).Sound v block_size chunk ↔
      GoodSizes block_size blocks_per_chunk v := by
  have hconstruct := construct_block_size_ v block_size blocks_per_chunk page junk
  have hlt : (construct v block_size blocks_per_chunk page junk).block_size_ < wordSize := by
    rw [hconstruct]
    cases v with
    | memory => exact max_lt hsize (by decide)
    | legacy_pool => exact Nat.lt_of_le_of_lt Nat.and_le_left (Nat.mod_lt _ (by decide))
  rw [sound_iff hlt hchunk, construct_blocks, hconstruct]
  cases v with
  | memory =>
    have hnode : sizeofFreeNode ≤ max block_size sizeofFreeNode := le_max_right ..
    have hle : block_size ≤ max block_size sizeofFreeNode := le_max_left ..
    simp only [GoodSizes, hle, hnode, true_and]
  | legacy_pool =>
    simp only [GoodSizes]
    by_cases hwrap : block_size + 15 < wordSize
    · have heq := align_up_eq hwrap
      have hdvd : alignofFreeNode ∣ align_up block_size kDefaultAlignment :=
        Nat.dvd_trans (by decide) (dvd_align_up hsize)
      have hle : block_size ≤ align_up block_size kDefaultAlignment := by
        rw [heq]
        unfold kDefaultAlignment
        omega
      have hnode : sizeofFreeNode ≤ align_up block_size kDefaultAlignment ↔ 0 < block_size := by
        rw [heq]
        unfold sizeofFreeNode kDefaultAlignment
        omega
      rw [hnode, heq] at *
      simp only [hle, hdvd, hwrap, or_true, and_true, true_and]
    · have hzero := align_up_of_ge hsize (by omega)
      have hpos : ¬ block_size ≤ 0 := by
        unfold wordSize at hwrap
        omega
      simp only [hzero, hpos, hwrap, false_and]

/-- Both pools, with 256 blocks of 64 bytes. -/
theorem small_chunks_are_sound :
    (construct .memory 64 256 4096 fun _ => 0).Sound .memory 64 8192 ∧
      (construct .legacy_pool 64 256 4096 fun _ => 0).Sound .legacy_pool 64 8192 :=
  ⟨(chunks_are_sound_iff .memory 4096 _ (by decide) (by decide)).mpr (by decide),
    (chunks_are_sound_iff .legacy_pool 4096 _ (by decide) (by decide)).mpr (by decide)⟩

/-- Blocks of 9 bytes are not aligned, and all blocks of 0 bytes are one. -/
theorem odd_and_empty_blocks_are_not_sound :
    ((construct .memory 9 2 4096 fun _ => 0).carvedBlocks .memory 4096 = [4096, 4105] ∧
      ¬ (construct .memory 9 2 4096 fun _ => 0).Sound .memory 9 4096) ∧
    (construct .legacy_pool 0 2 4096 fun _ => 0).carvedBlocks .legacy_pool 4096 = [4096, 4096] ∧
      ¬ (construct .legacy_pool 0 2 4096 fun _ => 0).Sound .legacy_pool 0 4096 := by
  refine ⟨⟨by decide, ?_⟩, by decide, ?_⟩
  · intro h
    have hdvd := h.aligned 4105 (by decide)
    revert hdvd
    decide
  · intro h
    have hnodup := h.nodup
    revert hnodup
    decide

end sci.pools
