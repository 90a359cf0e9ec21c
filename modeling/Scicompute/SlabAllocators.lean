-- The slab allocators in the hands of many threads: `sci::memory::SlabAllocator`
-- (include/memory/memory_pool.hpp) and `legacy_pool::SlabAllocator` (src/bridges/pool_bridge.cpp).
-- `Allocate` pops the free list of a slab without its mutex, once more with it, and a last time
-- after it has pushed a chunk. Each access to a `head_` and to a `next` field is one step.
import Scicompute.MemoryPoolStarvation
import Scicompute.SlabPoolBridge

open Word Transition

namespace sci.bridges.SlabAllocator

/-! ## One slab -/

/-- A slab, with the fields of a pool of one size. -/
def pool (a : SlabAllocator) (i : Fin kSlabCount) : pools.FixedSizeMemoryPool where
  head_ := (a.slabs_ i).head_
  next := a.next
  chunks_ := (a.slabs_ i).chunks
  block_size_ := (a.slabs_ i).block_size
  blocks_per_chunk_ := (a.slabs_ i).blocks_per_chunk
  max_chunks_ := 0
  grown_blocks := none
  is_expanding_ := false
  total_allocated_ := 0
  total_freed_ := 0

/-- The allocator after a step on the free list of a slab. -/
def setPool (a : SlabAllocator) (i : Fin kSlabCount) (p : pools.FixedSizeMemoryPool) :
    SlabAllocator :=
  { a.setSlab i { a.slabs_ i with head_ := p.head_, chunks := p.chunks_ } with next := p.next }

/-- The head of the free list of a slab. -/
def head (a : SlabAllocator) (i : Fin kSlabCount) : Nat := (a.slabs_ i).head_

variable (a : SlabAllocator) {i j : Fin kSlabCount} (p : pools.FixedSizeMemoryPool)

@[simp] theorem setPool_head_self : (a.setPool i p).head i = p.head_ := by
  simp [setPool, setSlab, head]

theorem setPool_head_of_ne (h : j ≠ i) : (a.setPool i p).head j = a.head j := by
  simp [setPool, setSlab, head, h]

/-- The head stays. -/
theorem setPool_head_eq (h : p.head_ = a.head i) : (a.setPool i p).head = a.head := by
  funext j
  by_cases hj : j = i
  · rw [hj, setPool_head_self, h]
  · exact a.setPool_head_of_ne p hj

end sci.bridges.SlabAllocator

namespace sci.pools

open bridges SlabAllocator

/-- The constructors; the memory is what `junk` says. -/
def constructSlabs (junk : Nat → Nat) : Version → SlabAllocator
  | .memory => ⟨fun i => ⟨kSizes i, max 1 (kMaxSlabSize / kSizes i), [], 0⟩, junk⟩
  | .legacy_pool => SlabAllocator.construct junk

/-- `sci::memory::SlabAllocator::IndexFor` -/
def memoryIndexFor (size : Nat) : Option (Fin kSlabCount) :=
  (List.finRange kSlabCount).find? fun i => decide (size ≤ kSizes i)

/-- The slab of an `Allocate`; none when the size is not supported. -/
def slabToAllocate (size : Nat) : Version → Option (Fin kSlabCount)
  | .memory => memoryIndexFor size
  | .legacy_pool => if CanAllocate size then some (IndexFor size) else none

/-- The slab of a `Deallocate`. -/
def slabToDeallocate (size : Nat) : Version → Option (Fin kSlabCount)
  | .memory => memoryIndexFor size
  | .legacy_pool => some (IndexFor size)

/-! ## The threads -/

/-- The three calls of `Pop` in `Allocate`. -/
inductive PopTurn
  | unlocked
  | locked
  | last

/-- Where a thread stands in its call on the allocator. -/
inductive SlabPc
  | idle
  | pop (idx : Fin kSlabCount) (turn : PopTurn) (op : PopPc)
  | lock (idx : Fin kSlabCount)
  | new_chunk (idx : Fin kSlabCount)
  | push_back (idx : Fin kSlabCount) (page : Nat)
  | carve (idx : Fin kSlabCount) (page n : Nat)
  | push (idx : Fin kSlabCount) (page n : Nat) (op : PushPc)
  | unlock (idx : Fin kSlabCount) (ptr : Nat)
  | dealloc (idx : Fin kSlabCount) (ptr : Nat) (op : PushPc)

/-- The allocator and its threads. `heap` records the regions that `operator new[]` gave out (start
and bytes), and `owned` who holds which block. -/
structure SlabSystem (ι : Type*) where
  allocator : SlabAllocator
  mtx : Fin kSlabCount → Option ι
  pc : ι → SlabPc
  heap : List (Nat × Nat)
  owned : List (ι × Nat)

inductive SlabAction (ι : Type*)
  | allocate (t : ι) (size : Nat)
  | deallocate (t : ι) (ptr size : Nat)
  /-- The owner of a block writes its first word. -/
  | use (t : ι) (ptr value : Nat)
  /-- The next step of a call. A `weak` compare-exchange fails though the values agree. -/
  | step (t : ι) (weak : Bool)
  /-- `operator new[]` returns the start of a chunk. -/
  | new (t : ι) (page : Nat)

def SlabAction.thread {ι : Type*} : SlabAction ι → ι
  | .allocate t _ => t
  | .deallocate t _ _ => t
  | .use t _ _ => t
  | .step t _ => t
  | .new t _ => t

namespace SlabSystem

variable {ι : Type*}

def start (v : Version) (junk : Nat → Nat) : SlabSystem ι where
  allocator := constructSlabs junk v
  mtx := fun _ => none
  pc := fun _ => .idle
  heap := []
  owned := []

variable [DecidableEq ι]

def setPc (s : SlabSystem ι) (t : ι) (pc : SlabPc) : SlabSystem ι :=
  { s with pc := Function.update s.pc t pc }

section
variable (s : SlabSystem ι) (t : ι) (pc : SlabPc)

@[simp] theorem setPc_self : (s.setPc t pc).pc t = pc := by simp [setPc]

theorem setPc_of_ne {u : ι} (h : u ≠ t) : (s.setPc t pc).pc u = s.pc u := by simp [setPc, h]

end

/-- `Allocate` returns the block, or null. -/
def finish (s : SlabSystem ι) (t : ι) (ptr : Nat) : SlabSystem ι :=
  if ptr = 0 then s.setPc t .idle
  else { s.setPc t .idle with owned := (t, ptr) :: s.owned }

/-- What `Allocate` does with the pointer that a `Pop` returned. -/
def afterPop (s : SlabSystem ι) (t : ι) (idx : Fin kSlabCount) (turn : PopTurn) (ptr : Nat) :
    SlabSystem ι :=
  match turn with
  | .unlocked => if ptr = 0 then s.setPc t (.lock idx) else s.finish t ptr
  | .locked => if ptr = 0 then s.setPc t (.new_chunk idx) else s.setPc t (.unlock idx ptr)
  | .last => s.setPc t (.unlock idx ptr)

/-- The next step of the call of a thread, apart from `operator new[]`. -/
def threadStep (s : SlabSystem ι) (v : Version) (t : ι) (weak : Bool) : Option (SlabSystem ι) :=
  match s.pc t with
  | .idle => none
  | .pop idx turn op =>
    match LockFreeStack.Pop (s.allocator.pool idx) weak op with
    | (p, .inl op) =>
      some { s.setPc t (.pop idx turn op) with allocator := s.allocator.setPool idx p }
    | (p, .inr ptr) =>
      some (afterPop { s with allocator := s.allocator.setPool idx p } t idx turn ptr)
  | .lock idx =>
    if (s.mtx idx).isSome then none
    else some { s.setPc t (.pop idx .locked .load) with
      mtx := Function.update s.mtx idx (some t) }
  | .new_chunk _ => none
  | .push_back idx page =>
    let p := s.allocator.pool idx
    some { s.setPc t (.carve idx page 0) with
      allocator := s.allocator.setPool idx { p with chunks_ := p.chunks_ ++ [page] } }
  | .carve idx page n =>
    if n < (s.allocator.slabs_ idx).blocks_per_chunk then
      some (s.setPc t (.push idx page n .load))
    else some (s.setPc t (.pop idx .last .load))
  | .push idx page n op =>
    match LockFreeStack.Push v (s.allocator.pool idx) ((s.allocator.pool idx).block page n) weak
        op with
    | (p, some op) =>
      some { s.setPc t (.push idx page n op) with allocator := s.allocator.setPool idx p }
    | (p, none) =>
      some { s.setPc t (.carve idx page (n + 1)) with allocator := s.allocator.setPool idx p }
  | .unlock idx ptr =>
    some (finish { s with mtx := Function.update s.mtx idx none } t ptr)
  | .dealloc idx ptr op =>
    match LockFreeStack.Push v (s.allocator.pool idx) ptr weak op with
    | (p, some op) =>
      some { s.setPc t (.dealloc idx ptr op) with allocator := s.allocator.setPool idx p }
    | (p, none) => some { s.setPc t .idle with allocator := s.allocator.setPool idx p }

/-- `operator new[]` of a chunk. -/
def newStep (s : SlabSystem ι) (t : ι) (page : Nat) : Option (SlabSystem ι) :=
  match s.pc t with
  | .new_chunk idx =>
    let slab := s.allocator.slabs_ idx
    let bytes := mul slab.block_size slab.blocks_per_chunk
    if FreshRegion s.heap page bytes then
      some { s.setPc t (.push_back idx page) with heap := (page, bytes) :: s.heap }
    else none
  | _ => none

def step (v : Version) (s : SlabSystem ι) : SlabAction ι → Option (SlabSystem ι)
  | .allocate t size =>
    match s.pc t with
    | .idle =>
      match slabToAllocate size v with
      | none => some s
      | some idx => some (s.setPc t (.pop idx .unlocked .load))
    | _ => none
  | .deallocate t ptr size =>
    match s.pc t with
    | .idle =>
      if ptr = 0 then some s
      else if s.owned.contains (t, ptr) then
        match slabToDeallocate size v with
        | none => some { s with owned := s.owned.erase (t, ptr) }
        | some idx =>
          some { s.setPc t (.dealloc idx ptr .load) with owned := s.owned.erase (t, ptr) }
      else none
    | _ => none
  | .use t ptr value =>
    if s.owned.contains (t, ptr) then
      some { s with allocator :=
        { s.allocator with next := Function.update s.allocator.next ptr value } }
    else none
  | .step t weak => s.threadStep v t weak
  | .new t page => s.newStep t page

end SlabSystem

/-! ## The last pop of a call -/

/-- The thread is in the last `Pop` of `Allocate`, on the slab `i`. -/
def SlabPc.lastPop (i : Fin kSlabCount) : SlabPc → Bool
  | .pop idx .last _ => decide (idx = i)
  | _ => false

/-- No null pointer stands for a block or a chunk. -/
def SlabPc.Valid : SlabPc → Prop
  | .pop _ _ op => op.NonNull
  | .push_back _ page => page ≠ 0
  | .carve _ page _ => page ≠ 0
  | .push _ page _ _ => page ≠ 0
  | .unlock _ ptr => ptr ≠ 0
  | .dealloc _ ptr _ => ptr ≠ 0
  | _ => True

/-- The next step of the thread leaves the other threads their last pops, where `alone` says of a
slab that no other thread is in one. -/
def SlabPc.KeepsStock (a : SlabAllocator) (weak : Bool) (alone : Fin kSlabCount → Prop) :
    SlabPc → Prop
  | .pop idx _ (.compare_exchange head next) =>
    a.head idx = head → weak = false → next = 0 → alone idx
  | .carve idx _ n => (a.slabs_ idx).blocks_per_chunk ≤ n → a.head idx ≠ 0
  | _ => True

instance (a : SlabAllocator) (weak : Bool) (alone : Fin kSlabCount → Prop) [DecidablePred alone] :
    ∀ pc : SlabPc, Decidable (pc.KeepsStock a weak alone)
  | .pop idx _ (.compare_exchange head next) =>
    inferInstanceAs (Decidable (a.head idx = head → weak = false → next = 0 → alone idx))
  | .carve idx _ n =>
    inferInstanceAs (Decidable ((a.slabs_ idx).blocks_per_chunk ≤ n → a.head idx ≠ 0))
  | .idle | .pop _ _ .load | .pop _ _ (.read_next _) | .lock _ | .new_chunk _ | .push_back ..
  | .push .. | .unlock .. | .dealloc .. => isTrue trivial

namespace SlabSystem

variable {ι : Type*} {s s' : SlabSystem ι} {t u : ι} {a : SlabAction ι} {v : Version}

/-- The step returns null from an `Allocate` of a supported size. -/
def returnsNull (s : SlabSystem ι) : SlabAction ι → Bool
  | .step t _ =>
    match s.pc t with
    | .unlock _ ptr => decide (ptr = 0)
    | _ => false
  | _ => false

/-- No `Allocate` starts its last `Pop` when the free list is empty, and no `Pop` empties the list
while another thread is in its last `Pop`. -/
def KeepsStock (s : SlabSystem ι) : SlabAction ι → Prop
  | .step t weak =>
    (s.pc t).KeepsStock s.allocator weak fun i => ∀ u, u ≠ t → (s.pc u).lastPop i = false
  | _ => True

instance [DecidableEq ι] [Fintype ι] (s : SlabSystem ι) : ∀ a, Decidable (s.KeepsStock a)
  | .step t weak => inferInstanceAs (Decidable ((s.pc t).KeepsStock s.allocator weak _))
  | .allocate .. | .deallocate .. | .use .. | .new .. => isTrue trivial

/-- The free list of a slab is not empty while a thread is in its last `Pop` there. -/
abbrev Supplied (s : SlabSystem ι) : Prop :=
  Supply.Supplied SlabPc.Valid SlabPc.lastPop s.pc fun i => s.allocator.head i ≠ 0

/-- What a step of the thread `t` leaves behind. -/
abbrev Leaves (s s' : SlabSystem ι) (t : ι) : Prop :=
  Supply.Leaves SlabPc.Valid SlabPc.lastPop s.pc s'.pc (fun i => s.allocator.head i ≠ 0)
    (fun i => s'.allocator.head i ≠ 0) t

/-- The heads stay, and the thread is not in a last `Pop`. -/
theorem Leaves.of_head (hhead : s'.allocator.head = s.allocator.head) (hvalid : (s'.pc t).Valid)
    (hlast : ∀ i, (s'.pc t).lastPop i = false) : Leaves s s' t :=
  Supply.Leaves.of_full (fun _ h => hhead ▸ h) hvalid hlast

/-- The list of the slab is not empty after the step, and the thread is not in a last `Pop`. -/
theorem Leaves.of_ne {idx : Fin kSlabCount} {p : FixedSizeMemoryPool}
    (hallocator : s'.allocator = s.allocator.setPool idx p) (hhead : p.head_ ≠ 0)
    (hvalid : (s'.pc t).Valid) (hlast : ∀ i, (s'.pc t).lastPop i = false) : Leaves s s' t := by
  refine Supply.Leaves.of_full ?_ hvalid hlast
  intro i h
  rw [hallocator]
  by_cases hi : i = idx
  · rw [hi, setPool_head_self]
    exact hhead
  · rw [setPool_head_of_ne _ _ hi]
    exact h

variable [DecidableEq ι]

theorem finish_of_ne (s : SlabSystem ι) (t : ι) (ptr : Nat) (hu : u ≠ t) :
    (s.finish t ptr).pc u = s.pc u := by
  unfold finish
  split_ifs
  · exact s.setPc_of_ne t _ hu
  · exact s.setPc_of_ne t _ hu

theorem finish_self (s : SlabSystem ι) (t : ι) (ptr : Nat) : (s.finish t ptr).pc t = .idle := by
  unfold finish
  split_ifs <;> simp

theorem finish_allocator (s : SlabSystem ι) (t : ι) (ptr : Nat) :
    (s.finish t ptr).allocator = s.allocator := by
  unfold finish
  split_ifs <;> rfl

theorem afterPop_of_ne (s : SlabSystem ι) (t : ι) (idx : Fin kSlabCount) (turn : PopTurn)
    (ptr : Nat) (hu : u ≠ t) : (s.afterPop t idx turn ptr).pc u = s.pc u := by
  cases turn with
  | unlocked =>
    simp only [afterPop]
    split_ifs
    · exact s.setPc_of_ne t _ hu
    · exact s.finish_of_ne t ptr hu
  | locked =>
    simp only [afterPop]
    split_ifs
    · exact s.setPc_of_ne t _ hu
    · exact s.setPc_of_ne t _ hu
  | last => exact s.setPc_of_ne t _ hu

theorem afterPop_allocator (s : SlabSystem ι) (t : ι) (idx : Fin kSlabCount) (turn : PopTurn)
    (ptr : Nat) : (s.afterPop t idx turn ptr).allocator = s.allocator := by
  unfold afterPop
  split
  · split_ifs
    · rfl
    · exact s.finish_allocator t ptr
  · split_ifs <;> rfl
  · rfl

/-- A `Pop` ends with a block, or before the last one with null. -/
theorem afterPop_place (s : SlabSystem ι) (t : ι) (idx : Fin kSlabCount) (turn : PopTurn)
    {ptr : Nat} (h : turn = .last → ptr ≠ 0) : ((s.afterPop t idx turn ptr).pc t).Valid ∧
      ∀ i, ((s.afterPop t idx turn ptr).pc t).lastPop i = false := by
  cases turn with
  | unlocked =>
    simp only [afterPop]
    split_ifs <;> simp [finish_self, SlabPc.Valid, SlabPc.lastPop]
  | locked =>
    simp only [afterPop]
    split_ifs with h0 <;> simp [SlabPc.Valid, SlabPc.lastPop, h0]
  | last => simpa [afterPop, SlabPc.Valid, SlabPc.lastPop] using h

/-- An action moves its own thread only. -/
theorem step_of_ne (h : step v s a = some s') (hu : u ≠ a.thread) : s'.pc u = s.pc u := by
  cases a with
  | allocate t size =>
    simp only [step] at h
    split at h
    · split at h
      · cases h
        rfl
      · cases h
        exact s.setPc_of_ne t _ hu
    · cases h
  | deallocate t ptr size =>
    simp only [step] at h
    split at h
    · split_ifs at h
      · cases h
        rfl
      · split at h
        · cases h
          rfl
        · cases h
          exact s.setPc_of_ne t _ hu
    · cases h
  | use t ptr value =>
    simp only [step] at h
    split_ifs at h
    cases h
    rfl
  | new t page =>
    simp only [step, newStep] at h
    split at h
    · split_ifs at h
      cases h
      exact s.setPc_of_ne t _ hu
    · cases h
  | step t weak =>
    simp only [step] at h
    cases hpc : s.pc t with
    | idle => simp [threadStep, hpc] at h
    | pop idx turn op =>
      simp only [threadStep, hpc] at h
      split at h
      · cases h
        exact s.setPc_of_ne t _ hu
      · cases h
        exact afterPop_of_ne _ t idx turn _ hu
    | lock idx =>
      simp only [threadStep, hpc] at h
      split_ifs at h
      cases h
      exact s.setPc_of_ne t _ hu
    | new_chunk idx => simp [threadStep, hpc] at h
    | push_back idx page =>
      simp only [threadStep, hpc] at h
      cases h
      exact s.setPc_of_ne t _ hu
    | carve idx page n =>
      simp only [threadStep, hpc] at h
      split_ifs at h
      all_goals
        cases h
        exact s.setPc_of_ne t _ hu
    | push idx page n op =>
      simp only [threadStep, hpc] at h
      split at h
      all_goals
        cases h
        exact s.setPc_of_ne t _ hu
    | unlock idx ptr =>
      simp only [threadStep, hpc] at h
      cases h
      exact finish_of_ne _ t ptr hu
    | dealloc idx ptr op =>
      simp only [threadStep, hpc] at h
      split at h
      all_goals
        cases h
        exact s.setPc_of_ne t _ hu

/-! ## The stock is kept -/

/-- A step of a pop. -/
theorem pop_leaves {idx : Fin kSlabCount} {turn : PopTurn} {op : PopPc} {weak : Bool}
    (h : s.Supplied) (hpc : s.pc t = .pop idx turn op) (hok : s.KeepsStock (.step t weak))
    (hstep : s.threadStep v t weak = some s') : Leaves s s' t := by
  have hop : op.NonNull := by
    have := h.valid t
    rwa [hpc] at this
  have hstock : turn = .last → s.allocator.head idx ≠ 0 := by
    rintro rfl
    exact h.stock idx t (by simp [hpc, SlabPc.lastPop])
  have hpop := LockFreeStack.Pop_popsTo (s.allocator.pool idx) weak hop
  simp only [threadStep, hpc] at hstep
  generalize LockFreeStack.Pop (s.allocator.pool idx) weak op = result at hpop hstep
  obtain ⟨p', r⟩ := result
  cases hpop with
  | null hhead =>
    cases hstep
    obtain ⟨hvalid, hlast⟩ := afterPop_place _ t idx turn (fun hl => absurd hhead (hstock hl))
    refine .of_head ?_ hvalid hlast
    rw [afterPop_allocator]
    exact setPool_head_eq _ _ rfl
  | goes hop' =>
    have hsame : s'.allocator.head = s.allocator.head := by
      cases hstep
      exact setPool_head_eq _ _ rfl
    rename_i op'
    have hpc' : s'.pc t = .pop idx turn op' := by
      cases hstep
      simp
    refine ⟨hpc' ▸ hop', ?_, fun i hfull => Or.inl (hsame ▸ hfull)⟩
    intro i hlast
    rw [hsame]
    apply h.stock i t
    simp only [hpc, hpc'] at hlast ⊢
    cases turn <;> exact hlast
  | @takes next hop hhead hweak =>
    cases hstep
    obtain ⟨hvalid, hlast⟩ := afterPop_place _ t idx turn (fun _ => hhead)
    refine ⟨hvalid, fun i h => absurd ((hlast i).symm.trans h) Bool.false_ne_true, ?_⟩
    intro i hfull
    rw [afterPop_allocator]
    by_cases hi : i = idx
    · subst hi
      rw [setPool_head_self]
      simp only [KeepsStock, hpc, hop, SlabPc.KeepsStock] at hok
      by_cases hempty : next = 0
      · exact Or.inr (hok rfl hweak hempty)
      · exact Or.inl hempty
    · rw [setPool_head_of_ne _ _ hi]
      exact Or.inl hfull

omit [DecidableEq ι] in
/-- A step of a push. -/
theorem push_leaves {idx : Fin kSlabCount} {node : Nat} {op : PushPc} {weak : Bool}
    {p : FixedSizeMemoryPool} {r : Option PushPc} (hnode : node ≠ 0)
    (hpush : LockFreeStack.Push v (s.allocator.pool idx) node weak op = (p, r))
    (hallocator : s'.allocator = s.allocator.setPool idx p) (hvalid : (s'.pc t).Valid)
    (hlast : ∀ i, (s'.pc t).lastPop i = false) : Leaves s s' t := by
  have hheads := LockFreeStack.Push_head_ v (s.allocator.pool idx) weak node op
  rw [hpush] at hheads
  rcases hheads with hhead | hhead
  · refine .of_head ?_ hvalid hlast
    rw [hallocator]
    exact setPool_head_eq _ _ hhead
  · refine .of_ne hallocator ?_ hvalid hlast
    rw [hhead]
    exact hnode

theorem threadStep_leaves {weak : Bool} (h : s.Supplied) (hok : s.KeepsStock (.step t weak))
    (hstep : s.threadStep v t weak = some s') : Leaves s s' t := by
  have hplace := h.valid t
  cases hpc : s.pc t with
  | idle => simp [threadStep, hpc] at hstep
  | pop idx turn op => exact pop_leaves h hpc hok hstep
  | lock idx =>
    simp only [threadStep, hpc] at hstep
    split_ifs at hstep
    cases hstep
    exact .of_head rfl (by simp [SlabPc.Valid, PopPc.NonNull]) (by simp [SlabPc.lastPop])
  | new_chunk idx => simp [threadStep, hpc] at hstep
  | push_back idx page =>
    rw [hpc] at hplace
    simp only [threadStep, hpc] at hstep
    cases hstep
    refine .of_head (setPool_head_eq _ _ rfl) ?_ (by simp [SlabPc.lastPop])
    simpa [SlabPc.Valid] using hplace
  | carve idx page n =>
    rw [hpc] at hplace
    simp only [threadStep, hpc] at hstep
    split_ifs at hstep with hn
    · cases hstep
      exact .of_head rfl (by simpa [SlabPc.Valid] using hplace) (by simp [SlabPc.lastPop])
    · cases hstep
      simp only [KeepsStock, hpc, SlabPc.KeepsStock] at hok
      refine ⟨by simp [SlabPc.Valid, PopPc.NonNull], ?_, fun _ => Or.inl⟩
      intro i hlast
      obtain rfl : idx = i := by simpa [SlabPc.lastPop] using hlast
      exact hok (Nat.le_of_not_lt hn)
  | push idx page n op =>
    rw [hpc] at hplace
    have hnode : (s.allocator.pool idx).block page n ≠ 0 := by
      have hpage : page ≠ 0 := hplace
      unfold FixedSizeMemoryPool.block
      omega
    simp only [threadStep, hpc] at hstep
    split at hstep
    all_goals
      rename_i hpush
      cases hstep
      refine push_leaves hnode hpush rfl ?_ (by simp [SlabPc.lastPop])
      simpa [SlabPc.Valid] using hplace
  | unlock idx ptr =>
    simp only [threadStep, hpc] at hstep
    cases hstep
    refine .of_head ?_ ?_ ?_
    · rw [finish_allocator]
    · rw [finish_self]
      trivial
    · intro i
      rw [finish_self]
      rfl
  | dealloc idx ptr op =>
    rw [hpc] at hplace
    simp only [threadStep, hpc] at hstep
    split at hstep
    · rename_i hpush
      cases hstep
      refine push_leaves hplace hpush rfl ?_ (by simp [SlabPc.lastPop])
      simpa [SlabPc.Valid] using hplace
    · rename_i hpush
      cases hstep
      exact push_leaves hplace hpush rfl (by simp [SlabPc.Valid]) (by simp [SlabPc.lastPop])

theorem Supplied.step (h : s.Supplied) (hok : s.KeepsStock a)
    (hstep : SlabSystem.step v s a = some s') : s'.Supplied := by
  suffices hleaves : Leaves s s' a.thread from
    h.leaves (fun u hu => step_of_ne hstep hu) hleaves
  have hsame : s'.pc a.thread = s.pc a.thread → s'.allocator.head = s.allocator.head →
      Leaves s s' a.thread := fun hpc hhead => h.unchanged hpc (fun _ hne => hhead ▸ hne)
  cases a with
  | step t weak => exact threadStep_leaves h hok hstep
  | allocate t size =>
    simp only [SlabSystem.step] at hstep
    split at hstep
    · split at hstep
      · cases hstep
        exact hsame rfl rfl
      · cases hstep
        refine .of_head rfl ?_ ?_
        · simp [SlabAction.thread, SlabPc.Valid, PopPc.NonNull]
        · simp [SlabAction.thread, SlabPc.lastPop]
    · cases hstep
  | deallocate t ptr size =>
    simp only [SlabSystem.step] at hstep
    split at hstep
    · split_ifs at hstep with h0
      · cases hstep
        exact hsame rfl rfl
      · split at hstep
        · cases hstep
          exact hsame rfl rfl
        · cases hstep
          refine .of_head rfl ?_ ?_
          · simpa [SlabAction.thread, SlabPc.Valid] using h0
          · simp [SlabAction.thread, SlabPc.lastPop]
    · cases hstep
  | use t ptr value =>
    simp only [SlabSystem.step] at hstep
    split_ifs at hstep
    cases hstep
    exact hsame rfl rfl
  | new t page =>
    simp only [SlabSystem.step, newStep] at hstep
    split at hstep
    · split_ifs at hstep with hfresh
      cases hstep
      refine .of_head rfl ?_ ?_
      · simpa [SlabAction.thread, SlabPc.Valid] using Nat.ne_of_gt hfresh.1
      · simp [SlabAction.thread, SlabPc.lastPop]
    · cases hstep

omit [DecidableEq ι] in
theorem supplied_start (v : Version) (junk : Nat → Nat) :
    (start (ι := ι) v junk).Supplied :=
  ⟨fun _ => trivial, fun _ _ h => absurd h Bool.false_ne_true⟩

omit [DecidableEq ι] in
/-- No call returns null from a list that is supplied. -/
theorem Supplied.not_returnsNull (h : s.Supplied) (a : SlabAction ι) : s.returnsNull a = false := by
  cases a with
  | step t weak =>
    cases hpc : s.pc t with
    | unlock idx ptr =>
      have hptr := h.valid t
      rw [hpc] at hptr
      simp only [returnsNull, hpc]
      exact decide_eq_false hptr
    | _ => simp [returnsNull, hpc]
  | _ => rfl

/-- In a run that keeps the stock, no `Allocate` returns null. -/
theorem not_returnsNull_of_keepsStock {junk : Nat → Nat} {as : List (SlabAction ι)}
    (hok : Meets (step v) KeepsStock (start v junk) as)
    (hrun : run (step v) (start v junk) as = some s) (a : SlabAction ι) :
    s.returnsNull a = false := by
  have hsupplied : s.Supplied :=
    invariant_of_meets (fun _ _ _ h hok hstep => Supplied.step h hok hstep) (supplied_start v junk)
      hok hrun
  exact hsupplied.not_returnsNull a

/-- A step that does not keep the stock leaves a thread in its last `Pop` with an empty list. -/
theorem starves_of_not_keepsStock (h : s.Supplied) (hok : ¬ s.KeepsStock a)
    (hstep : step v s a = some s') :
    ∃ u i, (s'.pc u).lastPop i = true ∧ (s'.pc u).Valid ∧ s'.allocator.head i = 0 := by
  cases a with
  | step t weak =>
    cases hpc : s.pc t with
    | pop idx turn op =>
      simp only [KeepsStock, hpc] at hok
      cases op with
      | compare_exchange head next =>
        simp only [SlabPc.KeepsStock] at hok
        push Not at hok
        obtain ⟨hhead, hweak, rfl, u, hu, hlast⟩ := hok
        have hpcu := step_of_ne hstep hu
        have hpop : LockFreeStack.Pop (s.allocator.pool idx) weak (.compare_exchange head 0) =
            ({ s.allocator.pool idx with head_ := 0 }, .inr head) := by
          rw [LockFreeStack.Pop, if_pos ⟨hhead, hweak⟩]
        simp only [step, threadStep, hpc, hpop] at hstep
        cases hstep
        refine ⟨u, idx, ?_, hpcu ▸ h.valid u, ?_⟩
        · rw [hpcu]
          simpa using hlast
        · rw [afterPop_allocator]
          exact setPool_head_self _ _
      | _ => exact absurd trivial hok
    | carve idx page n =>
      simp only [KeepsStock, hpc, SlabPc.KeepsStock] at hok
      push Not at hok
      simp only [step, threadStep, hpc, if_neg (Nat.not_lt.mpr hok.1)] at hstep
      cases hstep
      exact ⟨t, idx, by simp [SlabPc.lastPop], by simp [SlabPc.Valid, PopPc.NonNull], hok.2⟩
    | _ =>
      simp only [KeepsStock, hpc] at hok
      exact absurd trivial hok
  | _ => exact absurd trivial hok

/-- The last `Pop` of a thread reads an empty list. -/
theorem step_of_null {i : Fin kSlabCount} {op : PopPc} (hpc : s.pc t = .pop i .last op)
    (hpop : (LockFreeStack.Pop (s.allocator.pool i) false op).2 = .inr 0) :
    ∃ s', step v s (.step t false) = some s' ∧ s'.returnsNull (.step t false) = true := by
  simp only [step, threadStep, hpc]
  generalize LockFreeStack.Pop (s.allocator.pool i) false op = result at hpop
  obtain ⟨p, r⟩ := result
  cases hpop
  refine ⟨_, rfl, ?_⟩
  simp [returnsNull, afterPop]

/-- A thread in its last `Pop` with an empty list returns null when it runs alone. -/
theorem returnsNull_of_empty {i : Fin kSlabCount} (hlast : (s.pc t).lastPop i = true)
    (hvalid : (s.pc t).Valid) (hempty : s.allocator.head i = 0) :
    ∃ k s', run (step v) s (List.replicate k (.step t false)) = some s' ∧
      s'.returnsNull (.step t false) = true := by
  have hhead : (s.allocator.pool i).head_ = 0 := hempty
  have hone : ∀ {op : PopPc}, s.pc t = .pop i .last op →
      (LockFreeStack.Pop (s.allocator.pool i) false op).2 = .inr 0 →
      ∃ k s', run (step v) s (List.replicate k (.step t false)) = some s' ∧
        s'.returnsNull (.step t false) = true := by
    intro op hpc hpop
    obtain ⟨s', hs', hnull⟩ := step_of_null hpc hpop
    exact ⟨1, s', (run_cons ..).mpr ⟨s', hs', rfl⟩, hnull⟩
  cases hpc : s.pc t with
  | pop idx turn op =>
    rw [hpc] at hlast hvalid
    obtain ⟨rfl, rfl⟩ : turn = .last ∧ idx = i := by
      cases turn <;> simp_all [SlabPc.lastPop]
    cases op with
    | load => exact hone hpc (by simp [LockFreeStack.Pop, LockFreeStack.test, hhead])
    | read_next head =>
      have hne : ¬ 0 = head := fun h => hvalid h.symm
      obtain ⟨s₁, hs₁, hpc₁, hhead₁⟩ : ∃ s₁, step v s (.step t false) = some s₁ ∧
          s₁.pc t = .pop idx .last (.compare_exchange head (s.allocator.next head)) ∧
          (s₁.allocator.pool idx).head_ = 0 := by
        simp only [step, threadStep, hpc, LockFreeStack.Pop]
        refine ⟨_, rfl, by simp; rfl, ?_⟩
        exact (setPool_head_self _ _).trans hempty
      have hpop : (LockFreeStack.Pop (s₁.allocator.pool idx) false
          (.compare_exchange head (s.allocator.next head))).2 = .inr 0 := by
        simp [LockFreeStack.Pop, LockFreeStack.test, hhead₁, hne]
      obtain ⟨s₂, hs₂, hnull⟩ := step_of_null (v := v) hpc₁ hpop
      exact ⟨2, s₂, (run_cons ..).mpr ⟨s₁, hs₁, (run_cons ..).mpr ⟨s₂, hs₂, rfl⟩⟩, hnull⟩
    | compare_exchange head next =>
      have hne : ¬ 0 = head := fun h => hvalid h.symm
      exact hone hpc (by simp [LockFreeStack.Pop, LockFreeStack.test, hhead, hne])
  | _ =>
    rw [hpc] at hlast
    cases hlast

/-- After a step that does not keep the stock, a call can return null. -/
theorem can_return_null_of_not_keepsStock (h : s.Supplied) (hok : ¬ s.KeepsStock a)
    (hstep : step v s a = some s') : ∃ u k s'',
      run (step v) s' (List.replicate k (.step u false)) = some s'' ∧
        s''.returnsNull (.step u false) = true := by
  obtain ⟨u, i, hlast, hvalid, hempty⟩ := starves_of_not_keepsStock h hok hstep
  exact ⟨u, returnsNull_of_empty hlast hvalid hempty⟩

end SlabSystem

/-! ## Both pools and both slab allocators -/

/-- In every run that keeps the stock, no step returns null from an `Allocate`. -/
theorem no_Allocate_returns_null_while_the_stock_is_kept {ι : Type*} [DecidableEq ι] (v : Version) :
    (∀ (p : FixedSizeMemoryPool) (as : List (PoolAction ι)) (s : PoolSystem ι),
      Meets (PoolSystem.step v) (PoolSystem.KeepsStock v) (.start v p) as →
      run (PoolSystem.step v) (.start v p) as = some s → ∀ a, s.returnsNull a = false) ∧
    ∀ (junk : Nat → Nat) (as : List (SlabAction ι)) (s : SlabSystem ι),
      Meets (SlabSystem.step v) SlabSystem.KeepsStock (.start v junk) as →
      run (SlabSystem.step v) (.start v junk) as = some s → ∀ a, s.returnsNull a = false :=
  ⟨fun _ _ _ hok hrun => PoolSystem.not_returnsNull_of_keepsStock hok hrun,
    fun _ _ _ hok hrun => SlabSystem.not_returnsNull_of_keepsStock hok hrun⟩

/-- The thread `false` gets a chunk and pushes its blocks, up to its last `Pop`. -/
def refillPool : List (PoolAction Bool) :=
  PoolSystem.getBlock ++ PoolSystem.getAnother ++ .new false (some 8192) ::
    PoolSystem.steps false 10

def refillSlab : List (SlabAction Bool) :=
  .allocate false 4096 :: List.replicate 3 (.step false false) ++ .new false 8192 ::
    List.replicate 6 (.step false false)

theorem refilled_lists_are_not_empty :
    (∃ s, run (PoolSystem.step .legacy_pool) PoolSystem.oneBlock refillPool = some s ∧
      (s.pc false).lastPop = true ∧ ∀ a, s.returnsNull a = false) ∧
    ∃ s, run (SlabSystem.step .memory) (.start .memory fun _ => 0) refillSlab = some s ∧
      (s.pc false).lastPop 7 = true ∧ ∀ a, s.returnsNull a = false := by
  obtain ⟨s, hs, hlast⟩ : ∃ s, run (PoolSystem.step .legacy_pool) PoolSystem.oneBlock refillPool =
      some s ∧ (s.pc false).lastPop = true := exists_of_any (by decide +kernel)
  obtain ⟨s', hs', hlast'⟩ : ∃ s, run (SlabSystem.step .memory) (.start .memory fun _ => 0)
      refillSlab = some s ∧ (s.pc false).lastPop 7 = true := exists_of_any (by decide +kernel)
  refine ⟨⟨s, hs, hlast, ?_⟩, s', hs', hlast', ?_⟩
  · exact (no_Allocate_returns_null_while_the_stock_is_kept .legacy_pool).1 _ _ s
      (by decide +kernel) hs
  · exact (no_Allocate_returns_null_while_the_stock_is_kept .memory).2 _ _ s'
      (by decide +kernel) hs'

/-- In the legacy pool the thread `true` finds the flag of the thread `false`. In the other pool and
in its slab allocator the thread `true` takes the only block of the chunk that the thread `false`
has pushed. -/
theorem Allocate_returns_null_after_a_race :
    (∃ s, run (PoolSystem.step .legacy_pool) PoolSystem.oneBlock (PoolSystem.getBlock ++
      .allocate false :: PoolSystem.steps false 2 ++ .allocate true :: PoolSystem.steps true 2) =
      some s ∧ s.returnsNull (.step true false) = true) ∧
    (∃ s, run (PoolSystem.step .memory) (.start .memory (construct .memory 16 1 0 fun _ => 0))
      (.allocate false :: PoolSystem.steps false 1 ++ .new false (some 4096) ::
      PoolSystem.steps false 6 ++ .allocate true :: PoolSystem.steps true 3) = some s ∧
      s.returnsNull (.step false false) = true) ∧
    ∃ s, run (SlabSystem.step .memory) (.start .memory fun _ => 0) (refillSlab ++
      .allocate true 4096 :: List.replicate 3 (.step true false) ++ [.step false false]) = some s ∧
      s.returnsNull (.step false false) = true :=
  ⟨exists_of_any (by decide +kernel), exists_of_any (by decide +kernel),
    exists_of_any (by decide +kernel)⟩

end sci.pools
