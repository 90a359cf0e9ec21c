-- The runs of the pools of blocks. A pop keeps the places of the blocks apart when the next
-- pointer that it has read is still good; a block that left the list and came back in between
-- breaks them.
import Scicompute.MemoryPoolLayout

open Word Transition LinkedStack FreeList

namespace sci.pools

variable {ι : Type*} {s s' : PoolSystem ι} {t : ι}

/-! ## Every step keeps the layout -/

/-- The sizes of the pool are good, and every block has one place. -/
def Inv (s : PoolSystem ι) : Prop := Sized s.pool ∧ ∃ l, Layout s l

theorem Sized.of_eq {p p' : FixedSizeMemoryPool} (h : Sized p)
    (h1 : p'.block_size_ = p.block_size_) (h2 : p'.blocks_per_chunk_ = p.blocks_per_chunk_)
    (h3 : p'.grown_blocks = p.grown_blocks) : Sized p' :=
  ⟨h1 ▸ h.pos, by rw [h1, h2]; exact h.chunk, by rw [h1, h3]; exact h.grown⟩

namespace PoolSystem

variable [DecidableEq ι]

/-- A step that moves no block. -/
theorem inv_stay (hI : Inv s) {t : ι} {pc : Pc} {p : FixedSizeMemoryPool} (mtx : Option ι)
    (hhand : hand s.pool pc = hand s.pool (s.pc t)) (hok : PcOk s.pool pc)
    (hpool : p.head_ = s.pool.head_ ∧ p.next = s.pool.next ∧
      p.block_size_ = s.pool.block_size_ ∧ p.blocks_per_chunk_ = s.pool.blocks_per_chunk_ ∧
      p.grown_blocks = s.pool.grown_blocks) :
    Inv { s.setPc t pc with pool := p, mtx_ := mtx } := by
  obtain ⟨hsz, l, h⟩ := hI
  obtain ⟨h1, h2, h3, h4, h5⟩ := hpool
  refine ⟨hsz.of_eq h3 h4 h5, l, h.stay (t := t) h1 h2 h3 rfl rfl ?_ ?_ ?_⟩
  · intro u hu
    exact s.setPc_of_ne t pc hu
  · simpa using hhand
  · simpa using hok.frame h3 (fun x _ => by rw [h2])

theorem inv_setPc (hI : Inv s) {t : ι} {pc : Pc} (hhand : hand s.pool pc = hand s.pool (s.pc t))
    (hok : PcOk s.pool pc) : Inv (s.setPc t pc) :=
  inv_stay (p := s.pool) hI s.mtx_ hhand hok ⟨rfl, rfl, rfl, rfl, rfl⟩

/-! ### Push -/

/-- A step of a push before its last one. -/
theorem inv_push_some {v : Version} (hI : Inv s) {node : Nat} {rest : List Nat} {weak : Bool}
    {op op' : PushPc} {p : FixedSizeMemoryPool} {pc : Pc}
    (hhand : hand s.pool (s.pc t) = node :: rest) (hop : PushOk s.pool node op)
    (hp : LockFreeStack.Push v s.pool node weak op = (p, some op'))
    (hhand' : hand s.pool pc = node :: rest)
    (hok : p.block_size_ = s.pool.block_size_ → PushOk p node op' → PcOk p pc) :
    Inv { s.setPc t pc with pool := p } := by
  cases op with
  | load =>
    cases hp
    exact inv_setPc hI (by rw [hhand, hhand']) (hok rfl trivial)
  | write head =>
    cases hp
    obtain ⟨hsz, l, h⟩ := hI
    have hheld : node ∈ holds s l (.hand t) := by
      rw [holds, hhand]
      exact List.mem_cons_self ..
    refine ⟨hsz.of_eq rfl rfl rfl, l,
      h.write node head (h.not_free hheld (by simp)) rfl rfl rfl rfl rfl ?_⟩
    intro u
    by_cases hu : u = t
    · right
      subst hu
      simp only [setPc_self]
      refine ⟨by rw [hhand, hhand'], hok rfl ?_⟩
      cases v with
      | memory => simp [PushOk]
      | legacy_pool => trivial
    · left
      refine ⟨s.setPc_of_ne t pc hu, ?_⟩
      intro hc
      cases h.apart.unique (k := .hand u) hheld hc
      exact hu rfl
  | read =>
    cases hp
    exact inv_setPc hI (by rw [hhand, hhand']) (hok rfl rfl)
  | compare_exchange expected =>
    rw [LockFreeStack.Push] at hp
    split at hp
    · cases hp
    · cases hp
      exact inv_setPc hI (by rw [hhand, hhand']) (hok rfl trivial)

/-- The compare-exchange of a push succeeds. -/
theorem inv_push_none {v : Version} (hI : Inv s) {node : Nat} {rest : List Nat} {weak : Bool}
    {op : PushPc} {p : FixedSizeMemoryPool} {pc : Pc}
    (hhand : hand s.pool (s.pc t) = node :: rest) (hop : PushOk s.pool node op)
    (hp : LockFreeStack.Push v s.pool node weak op = (p, none))
    (hhand' : hand s.pool pc = rest) (hok : PcOk p pc) :
    Inv { s.setPc t pc with pool := p } := by
  cases op with
  | compare_exchange expected =>
    rw [LockFreeStack.Push] at hp
    split at hp
    · rename_i hc
      cases hp
      obtain ⟨hsz, l, h⟩ := hI
      refine ⟨hsz.of_eq rfl rfl rfl, _, h.pushed hhand ?_ rfl rfl rfl rfl rfl ?_ ?_ ?_⟩
      · rw [hc.1]
        exact hop
      · intro u hu
        exact s.setPc_of_ne t pc hu
      · simpa using hhand'
      · simpa using hok
    · cases hp
  | _ => cases hp

/-! ### Pop -/

/-- `Allocate` returns a block that the thread holds. -/
theorem inv_finish (hI : Inv s) {ptr : Nat} (hpc : hand s.pool (s.pc t) = [ptr]) :
    Inv (s.finish t ptr) := by
  obtain ⟨hsz, l, h⟩ := hI
  have hne : ptr ≠ 0 := by
    refine (h.heap (.hand t) ptr ?_).1
    rw [holds, hpc]
    exact List.mem_singleton_self _
  rw [finish, if_neg hne]
  refine ⟨hsz, l, h.returned hpc rfl rfl rfl rfl rfl ?_ ?_ ?_⟩
  · intro u hu
    exact s.setPc_of_ne t .idle hu
  · simp [hand]
  · simp [PcOk]

/-- A `Pop` that returns null. -/
theorem inv_afterPop_null {v : Version} (hI : Inv s) (hhand : hand s.pool (s.pc t) = [])
    (second : Bool) : Inv (s.afterPop v t second 0) := by
  have hset : ∀ pc, hand s.pool pc = [] → PcOk s.pool pc → Inv (s.setPc t pc) :=
    fun pc h1 h2 => inv_setPc hI (by rw [h1, hhand]) h2
  cases v <;> cases second <;> exact hset _ rfl trivial

/-- A step of a pop that ends in the loop test. -/
theorem inv_test {v : Version} (hI : Inv s) {op : PopPc} {second weak : Bool} {head : Nat}
    (hpc : s.pc t = .pop op second)
    (hp : LockFreeStack.Pop s.pool weak op = (s.pool, LockFreeStack.test head))
    (h : s.threadStep v t weak = some s') : Inv s' := by
  have hhand : hand s.pool (s.pc t) = [] := by rw [hpc]; rfl
  simp only [threadStep, hpc, hp, LockFreeStack.test] at h
  by_cases h0 : head = 0
  · rw [if_pos h0] at h
    cases h
    exact inv_afterPop_null hI hhand second
  · rw [if_neg h0] at h
    cases h
    exact inv_setPc hI (by rw [hhand]; rfl) h0

/-- The compare-exchange of a pop succeeds, with a next pointer that is still good. -/
theorem inv_popped {v : Version} (hI : Inv s) {head next : Nat} {second : Bool}
    (hpc : s.pc t = .pop (.compare_exchange head next) second) (hs : s.pool.head_ = head)
    (hgood : next = 0 ∨ Reaches 0 s.pool.next (s.pool.next head) next) :
    Inv (afterPop { s with pool := { s.pool with head_ := next } } v t second head) := by
  obtain ⟨hsz, l, h⟩ := hI
  have hne : head ≠ 0 := by
    have := h.pcs t
    rw [hpc] at this
    exact this
  -- the block is in the hand of the thread, as it is before `total_freed_` is written
  have hheld : Inv { s.setPc t (.sub_freed head) with pool := { s.pool with head_ := next } } := by
    refine ⟨hsz.of_eq rfl rfl rfl, ?_⟩
    exact h.popped (t := t) hne hs hgood (by rw [hpc]; rfl) rfl rfl rfl rfl rfl
      (fun u hu => s.setPc_of_ne t _ hu)
      (by simp [hand]) (by simp [PcOk])
  unfold afterPop
  rw [if_neg (fun hc => hne hc.1)]
  cases v with
  | memory =>
    have hfin := inv_finish (t := t) hheld (show hand _ _ = [head] by simp [hand])
    rw [finish, if_neg hne] at hfin ⊢
    simpa [setPc] using hfin
  | legacy_pool =>
    rw [if_neg hne]
    exact hheld

theorem inv_pop {v : Version} (hI : Inv s) {op : PopPc} {second weak : Bool}
    (hpc : s.pc t = .pop op second) (hok : s.PopsFreshNext (.step t weak))
    (h : s.threadStep v t weak = some s') : Inv s' := by
  cases op with
  | load => exact inv_test hI hpc rfl h
  | read_next head =>
    obtain ⟨l, hl⟩ := hI.2
    have hne := hl.pcs t
    rw [hpc] at hne
    simp only [threadStep, hpc] at h
    cases h
    exact inv_setPc hI (by rw [hpc]; rfl) hne
  | compare_exchange head next =>
    by_cases hc : s.pool.head_ = head ∧ weak = false
    · simp only [threadStep, hpc, LockFreeStack.Pop, if_pos hc] at h
      cases h
      exact inv_popped hI hpc hc.1 (hok head next second hpc hc.1 hc.2)
    · exact inv_test hI hpc (by rw [LockFreeStack.Pop, if_neg hc]) h

/-! ### Expand -/

omit [DecidableEq ι] in
/-- The lock and the counter of freed bytes are no part of the layout. -/
theorem inv_mtx_freed (hI : Inv s) (t : ι) (mtx : Option ι) (freed : Nat) :
    Inv { s with pool := { s.pool with total_freed_ := freed }, mtx_ := mtx } := by
  obtain ⟨hsz, l, h⟩ := hI
  refine ⟨hsz.of_eq rfl rfl rfl, l, h.stay (t := t) rfl rfl rfl rfl rfl ?_ rfl ?_⟩
  · intro u _
    rfl
  · exact (h.pcs t).frame rfl (fun _ _ => rfl)

theorem inv_endExpand (v : Version) (hI : Inv s) (hhand : hand s.pool (s.pc t) = [])
    (caller : Caller) : Inv (s.endExpand v t caller) := by
  have hset : ∀ pc, hand s.pool pc = [] → PcOk s.pool pc → Inv (s.setPc t pc) :=
    fun pc h1 h2 => inv_setPc hI (by rw [h1, hhand]) h2
  cases caller with
  | user => exact hset _ rfl trivial
  | allocate => cases v <;> exact hset _ rfl trivial

theorem inv_expand_push {v : Version} (hI : Inv s) {page i n : Nat} {op : PushPc}
    {caller : Caller} {weak : Bool} (hpc : s.pc t = .expand (.push page i n op) caller)
    (h : s.Expand v t weak caller (.push page i n op) = some s') : Inv s' := by
  obtain ⟨hlt, hop⟩ : i < n ∧ PushOk s.pool (s.pool.block page i) op := by
    obtain ⟨l, hl⟩ := hI.2
    have := hl.pcs t
    rwa [hpc] at this
  have hhand : hand s.pool (s.pc t) = s.pool.block page i :: blocksFrom s.pool page (i + 1) n := by
    rw [hpc, ← blocksFrom_of_lt s.pool page hlt]
    rfl
  rw [Expand] at h
  split at h
  · rename_i p op' hp
    cases h
    refine inv_push_some hI hhand hop hp (blocksFrom_of_lt s.pool page hlt) ?_
    intro hsize ho
    refine ⟨hlt, ?_⟩
    rwa [FixedSizeMemoryPool.block, hsize]
  · rename_i p hp
    cases v with
    | memory =>
      cases h
      exact inv_push_none hI hhand hop hp rfl trivial
    | legacy_pool =>
      cases h
      exact inv_push_none hI hhand hop hp rfl trivial

theorem inv_expand {v : Version} (hI : Inv s) {op : ExpandPc} {caller : Caller} {weak : Bool}
    (hpc : s.pc t = .expand op caller) (h : s.Expand v t weak caller op = some s') : Inv s' := by
  cases op with
  | check_limit =>
    simp only [Expand] at h
    split_ifs at h
    · cases h
      exact inv_endExpand v hI (by rw [hpc]; rfl) caller
    · cases h
      exact inv_setPc hI (by rw [hpc]; rfl) trivial
  | lock =>
    simp only [Expand] at h
    split_ifs at h
    all_goals
      cases h
      exact inv_stay hI _ (by rw [hpc]; rfl) trivial ⟨rfl, rfl, rfl, rfl, rfl⟩
  | new_chunk => cases h
  | push_back page blocks =>
    simp only [Expand] at h
    split_ifs at h
    cases h
    exact inv_stay hI _ (by rw [hpc]; rfl) trivial ⟨rfl, rfl, rfl, rfl, rfl⟩
  | carve page i blocks =>
    simp only [Expand] at h
    split_ifs at h with hi
    · cases h
      exact inv_setPc hI (by rw [hpc]; rfl) ⟨hi, trivial⟩
    · have hempty : hand s.pool (s.pc t) = [] := by
        rw [hpc]
        exact blocksFrom_of_le s.pool page (by omega)
      cases v with
      | memory =>
        cases h
        exact inv_endExpand .memory hI hempty caller
      | legacy_pool =>
        cases h
        exact inv_setPc hI (by rw [hempty]; rfl) trivial
  | push page i blocks op => exact inv_expand_push hI hpc h
  | count page i blocks =>
    cases h
    exact inv_stay hI _ (by rw [hpc]; rfl) trivial ⟨rfl, rfl, rfl, rfl, rfl⟩
  | unlock =>
    cases h
    exact inv_mtx_freed (inv_endExpand v hI (by rw [hpc]; rfl) caller) t none _

/-- `operator new[]` gives the thread a chunk, or throws. -/
theorem inv_newStep {v : Version} (hI : Inv s) {page : Option Nat}
    (h : s.newStep v t page = some s') : Inv s' := by
  unfold newStep at h
  split at h
  · rename_i caller hpc
    cases page with
    | none =>
      have hthrow : ∀ mtx, Inv { s.setPc t .idle with mtx_ := mtx } := fun mtx =>
        inv_stay (p := s.pool) hI mtx (by rw [hpc]; rfl) trivial ⟨rfl, rfl, rfl, rfl, rfl⟩
      cases v with
      | memory =>
        cases h
        exact hthrow s.mtx_
      | legacy_pool =>
        cases h
        exact hthrow none
    | some page =>
      simp only at h
      split_ifs at h with hfresh
      cases h
      obtain ⟨hsz, l, hl⟩ := hI
      rw [mul_of_lt (hsz.blocks_lt v)] at hfresh ⊢
      exact ⟨hsz, l, hl.newChunk (t := t) hsz.pos (hsz.blocks_lt v) hfresh rfl rfl rfl
        (fun u hu => s.setPc_of_ne t _ hu) (by rw [hpc]; rfl) (by simp [hand]) (by simp [PcOk])⟩
  · cases h

/-! ### The steps of a call -/

theorem inv_threadStep {v : Version} (hI : Inv s) {weak : Bool}
    (hok : s.PopsFreshNext (.step t weak)) (h : s.threadStep v t weak = some s') : Inv s' := by
  cases hpc : s.pc t with
  | idle => simp [threadStep, hpc] at h
  | pop op second => exact inv_pop hI hpc hok h
  | try_expanding =>
    simp only [threadStep, hpc] at h
    split_ifs at h
    · cases h
      exact inv_setPc hI (by rw [hpc]; rfl) trivial
    · cases h
      exact inv_stay hI s.mtx_ (by rw [hpc]; rfl) trivial ⟨rfl, rfl, rfl, rfl, rfl⟩
  | expand op caller =>
    simp only [threadStep, hpc] at h
    exact inv_expand hI hpc h
  | end_expanding =>
    simp only [threadStep, hpc] at h
    cases h
    exact inv_stay hI s.mtx_ (by rw [hpc]; rfl) trivial ⟨rfl, rfl, rfl, rfl, rfl⟩
  | sub_freed ptr =>
    simp only [threadStep, hpc] at h
    cases h
    exact inv_finish (inv_mtx_freed hI t s.mtx_ _) (by simp only [hpc]; rfl)
  | dealloc ptr op =>
    have hhand : hand s.pool (s.pc t) = [ptr] := by rw [hpc]; rfl
    have hop : PushOk s.pool ptr op := by
      obtain ⟨l, hl⟩ := hI.2
      have := hl.pcs t
      rwa [hpc] at this
    simp only [threadStep, hpc] at h
    split at h
    · rename_i p op' hp
      cases h
      exact inv_push_some hI hhand hop hp rfl (fun _ ho => ho)
    · rename_i p hp
      cases v with
      | memory =>
        cases h
        exact inv_push_none hI hhand hop hp rfl trivial
      | legacy_pool =>
        cases h
        exact inv_push_none hI hhand hop hp rfl trivial
  | add_freed =>
    simp only [threadStep, hpc] at h
    cases h
    exact inv_stay hI s.mtx_ (by rw [hpc]; rfl) trivial ⟨rfl, rfl, rfl, rfl, rfl⟩

theorem inv_step {v : Version} {a : PoolAction ι} (hI : Inv s) (hok : s.PopsFreshNext a)
    (h : step v s a = some s') : Inv s' := by
  cases a with
  | allocate t =>
    simp only [step] at h
    split at h
    · rename_i hpc
      cases h
      exact inv_setPc hI (by rw [hpc]; rfl) trivial
    · cases h
  | deallocate t ptr =>
    simp only [step] at h
    split at h
    · rename_i hpc
      split_ifs at h with h0 hm
      · cases h
        exact hI
      · cases h
        obtain ⟨hsz, l, hl⟩ := hI
        exact ⟨hsz, l, hl.freed (t := t) hm rfl rfl rfl (fun u hu => s.setPc_of_ne t _ hu)
          (by rw [hpc]; rfl) (by simp [hand]) (by simp [PcOk, PushOk])⟩
    · cases h
  | expand t =>
    simp only [step] at h
    split at h
    · rename_i hpc
      cases h
      exact inv_setPc hI (by rw [hpc]; rfl) trivial
    · cases h
  | use t ptr value =>
    simp only [step] at h
    split_ifs at h with hm
    cases h
    obtain ⟨hsz, l, hl⟩ := hI
    have howned : ptr ∈ holds s l .owned := List.mem_map_of_mem hm
    refine ⟨hsz.of_eq rfl rfl rfl, l,
      hl.write ptr value (hl.not_free howned (by simp)) rfl rfl rfl rfl rfl ?_⟩
    intro u
    refine Or.inl ⟨rfl, ?_⟩
    intro hu
    cases hl.apart.unique (k := .hand u) howned hu
  | step t weak => exact inv_threadStep hI hok h
  | new t page => exact inv_newStep hI h

end PoolSystem

/-! ## The start -/

namespace FixedSizeMemoryPool

variable (p : FixedSizeMemoryPool) (page n : Nat)

@[simp] theorem carve_block_size_ : (p.carve page n).block_size_ = p.block_size_ := by
  induction n with
  | zero => rfl
  | succ n ih => exact ih

@[simp] theorem carve_blocks_per_chunk_ :
    (p.carve page n).blocks_per_chunk_ = p.blocks_per_chunk_ := by
  induction n with
  | zero => rfl
  | succ n ih => exact ih

@[simp] theorem carve_chunks_ : (p.carve page n).chunks_ = p.chunks_ := by
  induction n with
  | zero => rfl
  | succ n ih => exact ih

variable {p page n}

/-- The blocks of a new chunk get onto the free list. -/
theorem carve_stocked {free : List Nat} {live blocks : Set Nat}
    (h : Stocked 0 p.next p.head_ free live blocks) (hpos : 0 < p.block_size_) (hpage : 0 < page)
    (hn : p.block_size_ * n < wordSize)
    (hnew : ∀ x ∈ (Chunk.mk page p.block_size_ n).blocks, x ∉ blocks) :
    ∃ free', Stocked 0 (p.carve page n).next (p.carve page n).head_ free' live
      ({x | x ∈ (Chunk.mk page p.block_size_ n).blocks} ∪ blocks) := by
  induction n with
  | zero =>
    have hset : {x | x ∈ (Chunk.mk page p.block_size_ 0).blocks} ∪ blocks = blocks := by
      simp [Chunk.blocks]
    refine ⟨free, ?_⟩
    rw [hset]
    exact h
  | succ n ih =>
    have hlt : p.block_size_ * n < wordSize :=
      lt_of_le_of_lt (Nat.mul_le_mul_left _ (Nat.le_succ n)) hn
    have hfirst : ∀ x ∈ (Chunk.mk page p.block_size_ n).blocks, x ∉ blocks := by
      intro x hx
      apply hnew
      rw [Chunk.blocks_succ]
      exact List.mem_append_left _ hx
    obtain ⟨free', hs⟩ := ih hlt hfirst
    have hblock : (p.carve page n).block page n = page + n * p.block_size_ := by
      have hsame : (p.carve page n).block page n = p.block page n := by simp [block]
      rw [hsame, block_eq hn (Nat.lt_succ_self n)]
    refine ⟨(page + n * p.block_size_) :: free', ?_⟩
    simp only [carve, Push, hblock]
    exact hs.carve hpos hpage hnew

/-- A block of the chunk is on the free list in the end. -/
theorem head_carve_ne_zero (hpage : 0 < page) (hn : p.block_size_ * n < wordSize) (hpos : 0 < n) :
    (p.carve page n).head_ ≠ 0 := by
  obtain ⟨k, rfl⟩ : ∃ k, n = k + 1 := ⟨n - 1, by omega⟩
  have hsame : (p.carve page k).block page k = p.block page k := by simp [block]
  simp only [carve, Push, hsame, block_eq hn (Nat.lt_succ_self k)]
  omega

end FixedSizeMemoryPool

/-- Before the first call every block of the first chunk is on the free list. -/
theorem inv_start (v : Version) (block_size blocks_per_chunk page : Nat) (junk : Nat → Nat)
    (max : Nat) (grown : Option Nat) {p : FixedSizeMemoryPool}
    (hp : p = (construct v block_size blocks_per_chunk page junk).configure max grown)
    (hsized : Sized p) (hpage : FreshRegion [] page (p.block_size_ * blocks_per_chunk)) :
    Inv (PoolSystem.start (ι := ι) v p) := by
  refine ⟨hsized, ?_⟩
  cases v with
  | memory =>
    subst hp
    have hempty : ∀ k, holds (PoolSystem.start (ι := ι) .memory
        ((construct .memory block_size blocks_per_chunk page junk).configure max grown)) [] k = [] := by
      intro k
      cases k <;> rfl
    refine ⟨[], rfl, ⟨?_, ?_⟩, ?_, fun t => trivial⟩
    · intro k
      rw [hempty k]
      exact List.nodup_nil
    · intro j k x hx
      rw [hempty j] at hx
      cases hx
    · intro k x hx
      rw [hempty k] at hx
      cases hx
  | legacy_pool =>
    obtain ⟨q, rfl, hhead, hchunks, hper⟩ : ∃ q : FixedSizeMemoryPool,
        p = (q.carve page blocks_per_chunk).configure max grown ∧
        q.head_ = 0 ∧ q.chunks_ = [page] ∧ q.blocks_per_chunk_ = blocks_per_chunk :=
      ⟨_, hp, rfl, rfl, rfl⟩
    have hpos := hsized.pos
    have hn := hsized.chunk
    simp only [FixedSizeMemoryPool.configure, FixedSizeMemoryPool.carve_block_size_,
      FixedSizeMemoryPool.carve_blocks_per_chunk_, hper] at hpos hn hpage
    have hstart : Stocked 0 q.next q.head_ [] ∅ ∅ := by
      rw [hhead]
      exact Stocked.empty 0 q.next
    obtain ⟨l, hl⟩ := FixedSizeMemoryPool.carve_stocked (n := blocks_per_chunk) hstart hpos hpage.1
      hn (fun _ _ => Set.notMem_empty _)
    -- all blocks are on the free list
    have hfree : ∀ k, ∀ x ∈ holds (PoolSystem.start (ι := ι) .legacy_pool
        ((q.carve page blocks_per_chunk).configure max grown)) l k,
        k = .free ∧ x ∈ (Chunk.mk page q.block_size_ blocks_per_chunk).blocks := by
      intro k x hx
      cases k with
      | free => exact ⟨rfl, by simpa using (hl.mem_iff x).mpr (Or.inl hx)⟩
      | owned => cases hx
      | hand t => cases hx
    refine ⟨l, hl.chain, ⟨?_, ?_⟩, ?_, fun t => trivial⟩
    · intro k
      cases k with
      | free => exact hl.nodup
      | owned => exact List.nodup_nil
      | hand t => exact List.nodup_nil
    · intro j k x hj hk
      rw [(hfree j x hj).1, (hfree k x hk).1]
    · intro k x hx
      have hwithin := Chunk.within (hfree k x hx).2
      simp only [Chunk.bytes] at hwithin
      have hpage0 := hpage.1
      refine ⟨by omega, (page, q.block_size_ * blocks_per_chunk), ?_, hwithin.1, by omega⟩
      simp [PoolSystem.start, FixedSizeMemoryPool.configure, hchunks, hper, mul_of_lt hn]

namespace PoolSystem

variable [DecidableEq ι]

/-- As long as every pop exchanges the head for a next pointer that is still good, each block has
at most one owner and an owned block is off the free list. -/
theorem blocks_are_exclusive_while_pops_are_fresh (v : Version)
    (block_size blocks_per_chunk page : Nat) (junk : Nat → Nat) (max : Nat) (grown : Option Nat)
    {p : FixedSizeMemoryPool}
    (hp : p = (construct v block_size blocks_per_chunk page junk).configure max grown)
    (hsized : Sized p) (hpage : FreshRegion [] page (p.block_size_ * blocks_per_chunk))
    {as : List (PoolAction ι)} {s : PoolSystem ι}
    (hok : Meets (step v) PopsFreshNext (start v p) as)
    (hrun : run (step v) (start v p) as = some s) : s.Exclusive := by
  have hI : Inv s :=
    invariant_of_meets (fun _ _ _ hI hok h => inv_step hI hok h)
      (inv_start v block_size blocks_per_chunk page junk max grown hp hsized hpage) hok hrun
  obtain ⟨-, l, h⟩ := hI
  exact h.exclusive

/-- The pool of the examples: two blocks of 16 bytes, at 4096 and at 4112. -/
def smallPool (v : Version) : FixedSizeMemoryPool :=
  (construct v 16 2 4096 (fun _ => 0)).configure 0 none

/-- The next `n` steps of the call of a thread. -/
def steps (t : Bool) (n : Nat) : List (PoolAction Bool) := List.replicate n (.step t false)

/-- One thread alone allocates a block. -/
theorem blocks_are_exclusive_after_an_allocation :
    ∃ s : PoolSystem Bool, run (step .legacy_pool) (start .legacy_pool (smallPool .legacy_pool))
      (.allocate false :: steps false 4) = some s ∧ s.owned = [(false, 4112)] ∧ s.Exclusive := by
  obtain ⟨s, hs, howned⟩ : ∃ s : PoolSystem Bool,
      run (step .legacy_pool) (start .legacy_pool (smallPool .legacy_pool))
        (.allocate false :: steps false 4) = some s ∧ s.owned = [(false, 4112)] :=
    exists_of_any (by decide +kernel)
  refine ⟨s, hs, howned, blocks_are_exclusive_while_pops_are_fresh .legacy_pool 16 2 4096
    (fun _ => 0) 0 none (p := smallPool .legacy_pool) rfl ?_ (by decide) ?_ hs⟩
  · exact ⟨by decide, by decide, fun n hn => by cases hn⟩
  · refine meets_cons rfl trivial (meets_cons rfl ?_ (meets_cons rfl ?_
      (meets_cons rfl ?_ (meets_cons rfl ?_ trivial))))
    · intro head next second hpc
      cases hpc
    · intro head next second hpc
      cases hpc
    · intro head next second hpc _ _
      cases hpc
      exact Or.inr (.here (by decide))
    · intro head next second hpc
      cases hpc

/-- The other thread pops both blocks and frees the first one between the two accesses of a pop;
the compare-exchange succeeds, and a block that is owned is the head of the free list. -/
def abaRun : Version → List (PoolAction Bool)
  | .memory =>
    [.allocate false, .step false false, .new false (some 4096)] ++ steps false 13 ++
    [.deallocate false 4112] ++ steps false 3 ++
    [.allocate false] ++ steps false 2 ++
    [.allocate true] ++ steps true 3 ++ [.allocate true] ++ steps true 3 ++
    [.deallocate true 4112] ++ steps true 3 ++ steps false 1 ++
    [.allocate false] ++ steps false 3
  | .legacy_pool =>
    [.allocate false] ++ steps false 2 ++
    [.allocate true] ++ steps true 4 ++ [.allocate true] ++ steps true 4 ++
    [.deallocate true 4112] ++ steps true 5 ++ steps false 2 ++
    [.allocate false] ++ steps false 4

theorem abaRun_not_exclusive (v : Version) : ∃ s : PoolSystem Bool,
    run (step v) (start v (smallPool v)) (abaRun v) = some s ∧
    s.owned = [(false, 4096), (false, 4112), (true, 4096)] ∧ ¬ s.Exclusive := by
  obtain ⟨s, hs, howned⟩ : ∃ s, run (step v) (start v (smallPool v)) (abaRun v) = some s ∧
      s.owned = [(false, 4096), (false, 4112), (true, 4096)] :=
    exists_of_any (by cases v <;> decide +kernel)
  refine ⟨s, hs, howned, ?_⟩
  rintro ⟨hnodup, -⟩
  rw [howned] at hnodup
  revert hnodup
  decide

/-- In either version a run of two threads gives one block to both. -/
theorem a_block_gets_two_owners :
    (∃ s : PoolSystem Bool, run (step .memory) (start .memory (smallPool .memory))
      (abaRun .memory) = some s ∧
      s.owned = [(false, 4096), (false, 4112), (true, 4096)] ∧ ¬ s.Exclusive) ∧
    ∃ s : PoolSystem Bool, run (step .legacy_pool) (start .legacy_pool (smallPool .legacy_pool))
      (abaRun .legacy_pool) = some s ∧
      s.owned = [(false, 4096), (false, 4112), (true, 4096)] ∧ ¬ s.Exclusive :=
  ⟨abaRun_not_exclusive .memory, abaRun_not_exclusive .legacy_pool⟩

end PoolSystem

end sci.pools
