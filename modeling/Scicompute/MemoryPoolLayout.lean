-- Where the blocks of a pool are. Every block that is carved is on the free list, with an
-- owner, or in the hands of a thread that is carving, freeing or returning it, and no block
-- is in two places. Each step of a call moves at most one block, or makes new ones.
import Scicompute.FreeList
import Scicompute.Holding
import Scicompute.MemoryPool

open Word LinkedStack Holding

namespace sci.pools

variable {ι : Type*}

/-! ## Places -/

/-- Where a block is. A block that no one has carved, or that was lost, is in no place. -/
inductive Place (ι : Type*)
  | free
  | owned
  | hand (t : ι)

/-- The blocks `i`, `i + 1`, ... below `n` of the chunk at `page`. -/
def blocksFrom (p : FixedSizeMemoryPool) (page i n : Nat) : List Nat :=
  (List.range' i (n - i)).map (p.block page)

theorem blocksFrom_of_lt (p : FixedSizeMemoryPool) (page : Nat) {i n : Nat} (h : i < n) :
    blocksFrom p page i n = p.block page i :: blocksFrom p page (i + 1) n := by
  unfold blocksFrom
  rw [show n - i = (n - (i + 1)) + 1 by omega, List.range'_succ, List.map_cons]

theorem blocksFrom_of_le (p : FixedSizeMemoryPool) (page : Nat) {i n : Nat} (h : n ≤ i) :
    blocksFrom p page i n = [] := by
  unfold blocksFrom
  rw [show n - i = 0 by omega]
  rfl

/-- The blocks that a thread is about to free, to carve or to return. -/
def hand (p : FixedSizeMemoryPool) : Pc → List Nat
  | .expand (.push_back page n) _ => blocksFrom p page 0 n
  | .expand (.carve page i n) _ => blocksFrom p page i n
  | .expand (.push page i n _) _ => blocksFrom p page i n
  | .expand (.count page i n) _ => blocksFrom p page (i + 1) n
  | .sub_freed ptr => [ptr]
  | .dealloc ptr _ => [ptr]
  | _ => []

/-- The node of a push points to the head that its compare-exchange expects. -/
def PushOk (p : FixedSizeMemoryPool) (node : Nat) : PushPc → Prop
  | .compare_exchange expected => p.next node = expected
  | _ => True

def PcOk (p : FixedSizeMemoryPool) : Pc → Prop
  | .pop (.read_next head) _ => head ≠ 0
  | .pop (.compare_exchange head _) _ => head ≠ 0
  | .expand (.push page i n op) _ => i < n ∧ PushOk p (p.block page i) op
  | .dealloc ptr op => PushOk p ptr op
  | _ => True

/-- The pool's sizes: a block has bytes, and no chunk overflows. -/
structure Sized (p : FixedSizeMemoryPool) : Prop where
  pos : 0 < p.block_size_
  chunk : p.block_size_ * p.blocks_per_chunk_ < wordSize
  grown : ∀ n, p.grown_blocks = some n → p.block_size_ * n < wordSize

theorem Sized.blocks_lt {p : FixedSizeMemoryPool} (h : Sized p) (v : Version) :
    p.block_size_ * p.blocks v < wordSize := by
  unfold FixedSizeMemoryPool.blocks
  cases v with
  | memory => exact h.chunk
  | legacy_pool =>
    cases hg : p.grown_blocks with
    | none => exact h.chunk
    | some n =>
      simp only
      split
      · exact h.chunk
      · exact h.grown n hg

/-- The blocks in each place, where `l` are those of the free list. -/
def holds (s : PoolSystem ι) (l : List Nat) : Place ι → List Nat
  | .free => l
  | .owned => s.owned.map Prod.snd
  | .hand t => hand s.pool (s.pc t)

/-- `l` is the free list, no block is in two places, and every block lies in a region that the
pool has. -/
structure Layout (s : PoolSystem ι) (l : List Nat) : Prop where
  chain : Chain 0 s.pool.next s.pool.head_ l
  apart : Apart (holds s l)
  heap : ∀ k, ∀ x ∈ holds s l k, x ≠ 0 ∧ ∃ r ∈ s.heap, r.1 ≤ x ∧ x < r.1 + r.2
  pcs : ∀ t, PcOk s.pool (s.pc t)

/-- A block with an owner, or in a hand, is not on the free list. -/
theorem Layout.not_free {s : PoolSystem ι} {l : List Nat} (h : Layout s l) {k : Place ι} {x : Nat}
    (hx : x ∈ holds s l k) (hk : k ≠ .free) : x ∉ l :=
  fun hl => hk (h.apart.unique (k := .free) hx hl)

/-- A layout keeps the owners apart from each other and from the free list. -/
theorem Layout.exclusive {s : PoolSystem ι} {l : List Nat} (h : Layout s l) : s.Exclusive := by
  refine ⟨h.apart.nodup .owned, ?_⟩
  intro t ptr hm hf
  have howned : ptr ∈ holds s l .owned := List.mem_map_of_mem hm
  exact h.not_free howned (by simp) (h.chain.reaches_iff.mp hf)

/-! ## What a place depends on -/

theorem hand_congr {p p' : FixedSizeMemoryPool} (h : p'.block_size_ = p.block_size_) (pc : Pc) :
    hand p' pc = hand p pc := by
  have hb : ∀ page, p'.block page = p.block page := fun page => by
    funext i
    simp [FixedSizeMemoryPool.block, h]
  unfold hand blocksFrom
  split <;> simp only [hb]

/-- The nodes of the pushes of a thread are in its hand, so a write elsewhere keeps `PcOk`. -/
theorem PcOk.frame {p p' : FixedSizeMemoryPool} {pc : Pc} (h : PcOk p pc)
    (hsize : p'.block_size_ = p.block_size_) (hnext : ∀ x ∈ hand p pc, p'.next x = p.next x) :
    PcOk p' pc := by
  have hpush : ∀ node op, node ∈ hand p pc → PushOk p node op → PushOk p' node op := by
    intro node op hm ho
    cases op with
    | compare_exchange e =>
      simp only [PushOk] at ho ⊢
      rw [hnext node hm]
      exact ho
    | _ => trivial
  cases pc with
  | pop op second => cases op <;> exact h
  | expand op caller =>
    cases op with
    | push page i n op =>
      obtain ⟨hlt, ho⟩ := h
      refine ⟨hlt, ?_⟩
      have hb : p'.block page i = p.block page i := by simp [FixedSizeMemoryPool.block, hsize]
      rw [hb]
      refine hpush _ _ ?_ ho
      simp [hand, blocksFrom_of_lt p page hlt]
    | _ => trivial
  | dealloc ptr op => exact hpush ptr op (by simp [hand]) h
  | _ => trivial

/-! ## The moves of a block -/

variable {s s' : PoolSystem ι} {l l' : List Nat} {t : ι}

theorem holds_hand_of_ne (hsize : s'.pool.block_size_ = s.pool.block_size_)
    (hpc : ∀ u, u ≠ t → s'.pc u = s.pc u) {u : ι} (hu : u ≠ t) :
    holds s' l' (.hand u) = holds s l (.hand u) := by
  rw [holds, holds, hand_congr hsize, hpc u hu]

/-- A step of the thread `t` that writes to no block and makes no new ones. -/
theorem Layout.of_apart (h : Layout s l) (hchain : Chain 0 s'.pool.next s'.pool.head_ l')
    (hapart : Apart (holds s' l'))
    (hmem : ∀ x, (∃ k, x ∈ holds s' l' k) → ∃ k, x ∈ holds s l k)
    (hnext : s'.pool.next = s.pool.next) (hsize : s'.pool.block_size_ = s.pool.block_size_)
    (hheap : s'.heap = s.heap) (hpc : ∀ u, u ≠ t → s'.pc u = s.pc u)
    (hok : PcOk s'.pool (s'.pc t)) : Layout s' l' := by
  refine ⟨hchain, hapart, ?_, ?_⟩
  · intro k x hx
    obtain ⟨j, hj⟩ := hmem x ⟨k, hx⟩
    rw [hheap]
    exact h.heap j x hj
  · intro u
    by_cases hu : u = t
    · rw [hu]
      exact hok
    · rw [hpc u hu]
      exact (h.pcs u).frame hsize (fun x _ => by rw [hnext])

/-- A step that leaves the list, the owners and the hand of the thread as they were. -/
theorem Layout.stay (h : Layout s l) (hhead : s'.pool.head_ = s.pool.head_)
    (hnext : s'.pool.next = s.pool.next) (hsize : s'.pool.block_size_ = s.pool.block_size_)
    (hheap : s'.heap = s.heap) (howned : s'.owned = s.owned)
    (hpc : ∀ u, u ≠ t → s'.pc u = s.pc u)
    (hhand : hand s.pool (s'.pc t) = hand s.pool (s.pc t))
    (hok : PcOk s'.pool (s'.pc t)) : Layout s' l := by
  have hholds : holds s' l = holds s l := by
    funext k
    cases k with
    | free => rfl
    | owned => rw [holds, holds, howned]
    | hand u =>
      by_cases hu : u = t
      · rw [hu, holds, holds, hand_congr hsize, hhand]
      · exact holds_hand_of_ne hsize hpc hu
  refine h.of_apart (t := t) ?_ ?_ ?_ hnext hsize hheap hpc hok
  · rw [hhead, hnext]
    exact h.chain
  · rw [hholds]
    exact h.apart
  · rw [hholds]
    exact fun _ => id

/-- A write to the first word of a block that is not on the free list. -/
theorem Layout.write (h : Layout s l) (x value : Nat) (hx : x ∉ l)
    (hnext : s'.pool.next = Function.update s.pool.next x value)
    (hhead : s'.pool.head_ = s.pool.head_) (hsize : s'.pool.block_size_ = s.pool.block_size_)
    (hheap : s'.heap = s.heap) (howned : s'.owned = s.owned)
    (hpcs : ∀ u, (s'.pc u = s.pc u ∧ x ∉ hand s.pool (s.pc u)) ∨
      (hand s.pool (s'.pc u) = hand s.pool (s.pc u) ∧ PcOk s'.pool (s'.pc u))) :
    Layout s' l := by
  have hholds : holds s' l = holds s l := by
    funext k
    cases k with
    | free => rfl
    | owned => rw [holds, holds, howned]
    | hand u =>
      rw [holds, holds, hand_congr hsize]
      rcases hpcs u with ⟨hu, -⟩ | ⟨hu, -⟩ <;> rw [hu]
  refine ⟨?_, ?_, ?_, ?_⟩
  · rw [hhead, hnext]
    exact h.chain.write hx
  · rw [hholds]
    exact h.apart
  · rw [hholds, hheap]
    exact h.heap
  · intro u
    rcases hpcs u with ⟨hu, hout⟩ | ⟨-, hok⟩
    · rw [hu]
      apply (h.pcs u).frame hsize
      intro y hy
      rw [hnext]
      refine Function.update_of_ne ?_ ..
      rintro rfl
      exact hout hy
    · exact hok

/-- A compare-exchange of a push puts the node on the free list. -/
theorem Layout.pushed (h : Layout s l) {node : Nat} {rest : List Nat}
    (hhand : hand s.pool (s.pc t) = node :: rest)
    (hlink : s.pool.next node = s.pool.head_)
    (hhead : s'.pool.head_ = node) (hnext : s'.pool.next = s.pool.next)
    (hsize : s'.pool.block_size_ = s.pool.block_size_)
    (hheap : s'.heap = s.heap) (howned : s'.owned = s.owned)
    (hpc : ∀ u, u ≠ t → s'.pc u = s.pc u)
    (hhand' : hand s.pool (s'.pc t) = rest) (hok : PcOk s'.pool (s'.pc t)) :
    Layout s' (node :: l) := by
  have hne : Place.hand t ≠ .free := by simp
  have hheld : node ∈ holds s l (.hand t) := by
    rw [holds, hhand]
    exact List.mem_cons_self ..
  have hfrom : (holds s l (.hand t)).Perm (node :: holds s' (node :: l) (.hand t)) := by
    rw [holds, holds, hand_congr hsize, hhand, hhand']
  have hto : (holds s' (node :: l) .free).Perm (node :: holds s l .free) := List.Perm.refl _
  have hother : ∀ k, k ≠ .hand t → k ≠ .free → holds s' (node :: l) k = holds s l k := by
    intro k h1 h2
    cases k with
    | free => exact absurd rfl h2
    | owned => rw [holds, holds, howned]
    | hand u => exact holds_hand_of_ne hsize hpc (fun hu => h1 (hu ▸ rfl))
  refine h.of_apart (t := t) ?_ (h.apart.move hne hfrom hto hother)
    (fun x => (exists_mem_move hne hfrom hto hother x).mp) hnext hsize hheap hpc hok
  rw [hhead, hnext]
  exact h.chain.push (h.heap _ node hheld).1 hlink

/-- A compare-exchange of a pop takes the head, with a next pointer that is null or behind it.
The blocks that it steps over are lost. -/
theorem Layout.popped (h : Layout s l) {head next : Nat} (hne : head ≠ 0)
    (hs : s.pool.head_ = head)
    (hgood : next = 0 ∨ Reaches 0 s.pool.next (s.pool.next head) next)
    (hhand : hand s.pool (s.pc t) = [])
    (hhead : s'.pool.head_ = next) (hnext : s'.pool.next = s.pool.next)
    (hsize : s'.pool.block_size_ = s.pool.block_size_)
    (hheap : s'.heap = s.heap) (howned : s'.owned = s.owned)
    (hpc : ∀ u, u ≠ t → s'.pc u = s.pc u)
    (hhand' : hand s.pool (s'.pc t) = [head]) (hok : PcOk s'.pool (s'.pc t)) :
    ∃ l', Layout s' l' := by
  obtain ⟨tail, rfl, htail⟩ := (hs ▸ h.chain).uncons hne
  obtain ⟨l', hl', hchain⟩ : ∃ l', l' <:+ tail ∧ Chain 0 s.pool.next next l' := by
    rcases hgood with rfl | hr
    · exact ⟨[], List.nil_suffix, rfl⟩
    · exact htail.suffix (htail.reaches_iff.mp hr)
  -- first the blocks behind the head are lost, and then the head changes its place
  have hsub : ∀ k, (holds s (head :: l') k).Subperm (holds s (head :: tail) k) := by
    intro k
    cases k with
    | free => exact (hl'.sublist.cons_cons head).subperm
    | _ => exact List.Subperm.refl _
  have hlost : Apart (holds s (head :: l')) := h.apart.subperm hsub
  have hfrom : (holds s (head :: l') .free).Perm (head :: holds s' l' .free) := List.Perm.refl _
  have hto : (holds s' l' (.hand t)).Perm (head :: holds s (head :: l') (.hand t)) := by
    rw [holds, holds, hand_congr hsize, hhand, hhand']
  have hother : ∀ k, k ≠ .free → k ≠ .hand t → holds s' l' k = holds s (head :: l') k := by
    intro k h1 h2
    cases k with
    | free => exact absurd rfl h1
    | owned => rw [holds, holds, howned]
    | hand u => exact holds_hand_of_ne hsize hpc (fun hu => h2 (hu ▸ rfl))
  refine ⟨l', h.of_apart (t := t) ?_ (hlost.move (by simp) hfrom hto hother) ?_ hnext hsize hheap
    hpc hok⟩
  · rw [hhead, hnext]
    exact hchain
  · intro x hx
    obtain ⟨k, hk⟩ := (exists_mem_move (by simp) hfrom hto hother x).mp hx
    exact ⟨k, (hsub k).subset hk⟩

/-- The owner of a block gives it to `Deallocate`. -/
theorem Layout.freed [DecidableEq ι] (h : Layout s l) {ptr : Nat}
    (hm : (t, ptr) ∈ s.owned) (hpool : s'.pool = s.pool) (hheap : s'.heap = s.heap)
    (howned : s'.owned = s.owned.erase (t, ptr)) (hpc : ∀ u, u ≠ t → s'.pc u = s.pc u)
    (hhand : hand s.pool (s.pc t) = []) (hhand' : hand s.pool (s'.pc t) = [ptr])
    (hok : PcOk s'.pool (s'.pc t)) : Layout s' l := by
  have hfrom : (holds s l .owned).Perm (ptr :: holds s' l .owned) := by
    rw [holds, holds, howned]
    exact (List.perm_cons_erase hm).map Prod.snd
  have hto : (holds s' l (.hand t)).Perm (ptr :: holds s l (.hand t)) := by
    rw [holds, holds, hpool, hhand, hhand']
  have hother : ∀ k, k ≠ .owned → k ≠ .hand t → holds s' l k = holds s l k := by
    intro k h1 h2
    cases k with
    | free => rfl
    | owned => exact absurd rfl h1
    | hand u => exact holds_hand_of_ne (by rw [hpool]) hpc (fun hu => h2 (hu ▸ rfl))
  refine h.of_apart (t := t) ?_ (h.apart.move (by simp) hfrom hto hother)
    (fun x => (exists_mem_move (by simp) hfrom hto hother x).mp) (by rw [hpool]) (by rw [hpool])
    hheap hpc hok
  rw [hpool]
  exact h.chain

/-- `Allocate` returns the block in its hand. -/
theorem Layout.returned (h : Layout s l) {ptr : Nat}
    (hhand : hand s.pool (s.pc t) = [ptr])
    (hhead : s'.pool.head_ = s.pool.head_) (hnext : s'.pool.next = s.pool.next)
    (hsize : s'.pool.block_size_ = s.pool.block_size_) (hheap : s'.heap = s.heap)
    (howned : s'.owned = (t, ptr) :: s.owned) (hpc : ∀ u, u ≠ t → s'.pc u = s.pc u)
    (hhand' : hand s.pool (s'.pc t) = []) (hok : PcOk s'.pool (s'.pc t)) :
    Layout s' l := by
  have hfrom : (holds s l (.hand t)).Perm (ptr :: holds s' l (.hand t)) := by
    rw [holds, holds, hand_congr hsize, hhand, hhand']
  have hto : (holds s' l .owned).Perm (ptr :: holds s l .owned) := by
    rw [holds, holds, howned, List.map_cons]
  have hother : ∀ k, k ≠ .hand t → k ≠ .owned → holds s' l k = holds s l k := by
    intro k h1 h2
    cases k with
    | free => rfl
    | owned => exact absurd rfl h2
    | hand u => exact holds_hand_of_ne hsize hpc (fun hu => h1 (hu ▸ rfl))
  refine h.of_apart (t := t) ?_ (h.apart.move (by simp) hfrom hto hother)
    (fun x => (exists_mem_move (by simp) hfrom hto hother x).mp) hnext hsize hheap hpc hok
  rw [hhead, hnext]
  exact h.chain

/-! ## The blocks of a chunk -/

theorem block_eq {p : FixedSizeMemoryPool} {page i n : Nat} (hn : p.block_size_ * n < wordSize)
    (hi : i < n) : p.block page i = page + i * p.block_size_ := by
  have hle : i * p.block_size_ ≤ p.block_size_ * n := by
    rw [Nat.mul_comm]
    exact Nat.mul_le_mul_left _ hi.le
  rw [FixedSizeMemoryPool.block, mul_of_lt (by omega)]

/-- The blocks of a chunk that does not overflow. -/
theorem blocksFrom_eq_blocks {p : FixedSizeMemoryPool} (page : Nat) {n : Nat}
    (hn : p.block_size_ * n < wordSize) :
    blocksFrom p page 0 n = (FreeList.Chunk.mk page p.block_size_ n).blocks := by
  simp only [blocksFrom, FreeList.Chunk.blocks, Nat.sub_zero, List.range_eq_range']
  apply List.map_congr_left
  intro i hi
  have hin : i < n := by
    have := List.mem_range'.mp hi
    omega
  exact block_eq hn hin

/-- They are distinct, and lie in its region. -/
theorem mem_blocksFrom {p : FixedSizeMemoryPool} {page n x : Nat} (hpos : 0 < p.block_size_)
    (hn : p.block_size_ * n < wordSize) (hx : x ∈ blocksFrom p page 0 n) :
    page ≤ x ∧ x < page + p.block_size_ * n := by
  rw [blocksFrom_eq_blocks page hn] at hx
  have hwithin := FreeList.Chunk.within hx
  simp only [FreeList.Chunk.bytes] at hwithin
  omega

theorem nodup_blocksFrom {p : FixedSizeMemoryPool} {page n : Nat} (hpos : 0 < p.block_size_)
    (hn : p.block_size_ * n < wordSize) : (blocksFrom p page 0 n).Nodup := by
  rw [blocksFrom_eq_blocks page hn]
  exact FreeList.Chunk.nodup_blocks hpos

/-- A new chunk puts its blocks into the hand of the thread. -/
theorem Layout.newChunk (h : Layout s l) {page n : Nat} (hpos : 0 < s.pool.block_size_)
    (hn : s.pool.block_size_ * n < wordSize)
    (hfresh : FreshRegion s.heap page (s.pool.block_size_ * n)) (hpool : s'.pool = s.pool)
    (hheap : s'.heap = (page, s.pool.block_size_ * n) :: s.heap) (howned : s'.owned = s.owned)
    (hpc : ∀ u, u ≠ t → s'.pc u = s.pc u) (hhand : hand s.pool (s.pc t) = [])
    (hhand' : hand s.pool (s'.pc t) = blocksFrom s.pool page 0 n)
    (hok : PcOk s'.pool (s'.pc t)) : Layout s' l := by
  obtain ⟨hpage, -, hapart⟩ := hfresh
  have hother : ∀ k, k ≠ .hand t → holds s' l k = holds s l k := by
    intro k hk
    cases k with
    | free => rfl
    | owned => rw [holds, holds, howned]
    | hand u => exact holds_hand_of_ne (by rw [hpool]) hpc (fun hu => hk (hu ▸ rfl))
  have hhere : holds s' l (.hand t) = blocksFrom s.pool page 0 n := by
    rw [holds, hpool, hhand']
  have hto : (holds s' l (.hand t)).Perm (blocksFrom s.pool page 0 n ++ holds s l (.hand t)) := by
    rw [hhere, holds, hhand, List.append_nil]
  -- a block that has a place lies in a region of the pool, apart from the new one
  have hnew : ∀ x ∈ blocksFrom s.pool page 0 n, ∀ k, x ∉ holds s l k := by
    intro x hm k hx
    obtain ⟨-, r, hr, h1, h2⟩ := h.heap k x hx
    have hb := mem_blocksFrom hpos hn hm
    have := hapart r hr
    omega
  refine ⟨?_, h.apart.addAll (nodup_blocksFrom hpos hn) hnew hto hother, ?_, ?_⟩
  · rw [hpool]
    exact h.chain
  · intro k x hx
    rw [hheap]
    by_cases hk : k = .hand t
    · rw [hk, hhere] at hx
      have hb := mem_blocksFrom hpos hn hx
      exact ⟨by omega, _, List.mem_cons_self .., hb⟩
    · rw [hother k hk] at hx
      obtain ⟨h0, r, hr, hin⟩ := h.heap k x hx
      exact ⟨h0, r, List.mem_cons_of_mem _ hr, hin⟩
  · intro u
    by_cases hu : u = t
    · rw [hu]
      exact hok
    · rw [hpc u hu, hpool]
      exact h.pcs u

end sci.pools
