-- The pools of blocks of one size: `sci::memory::FixedSizeMemoryPool`
-- (include/memory/memory_pool.hpp) and `legacy_pool::FixedSizeMemoryPool`
-- (src/bridges/pool_bridge.cpp). Both keep the free blocks in a lock-free stack
-- that is linked through the first word of the blocks. Each access to `head_`
-- and to a `next` field is one step.
import Scicompute.Transition
import Scicompute.Word
import Scicompute.LinkedStack

open Word

namespace sci.pools

/-! ## The pool -/

/-- The two implementations. -/
inductive Version
  | memory
  | legacy_pool
  deriving DecidableEq

/-- The fields of a pool, and `next`, the first word of each block, read as `FreeNode::next`.
The null pointer is 0. `grown_blocks` is `static_cast<size_t>(blocks_per_chunk_ * grow_factor_)`
when `grow_factor_ > 1.0`. The last five fields are those of the legacy pool. -/
structure FixedSizeMemoryPool where
  head_ : Nat
  next : Nat → Nat
  chunks_ : List Nat
  block_size_ : Nat
  blocks_per_chunk_ : Nat
  max_chunks_ : Nat
  grown_blocks : Option Nat
  is_expanding_ : Bool
  total_allocated_ : Nat
  total_freed_ : Nat

namespace FixedSizeMemoryPool

/-- The size of the chunk of an `Expand`: the blocks that it carves. -/
def blocks (p : FixedSizeMemoryPool) : Version → Nat
  | .memory => p.blocks_per_chunk_
  | .legacy_pool =>
    match p.grown_blocks with
    | some n => if p.chunks_.isEmpty then p.blocks_per_chunk_ else n
    | none => p.blocks_per_chunk_

/-- The limit that stops `Expand`. -/
def atLimit (p : FixedSizeMemoryPool) : Bool :=
  decide (0 < p.max_chunks_) && decide (p.max_chunks_ ≤ p.chunks_.length)

/-- The address of block `i` of the chunk at `page`. -/
def block (p : FixedSizeMemoryPool) (page i : Nat) : Nat := page + mul i p.block_size_

/-- A whole `LockFreeStack::Push`, by one thread alone. -/
def Push (p : FixedSizeMemoryPool) (node : Nat) : FixedSizeMemoryPool :=
  { p with next := Function.update p.next node p.head_, head_ := node }

/-- The loop of `Expand`, by one thread alone. -/
def carve (p : FixedSizeMemoryPool) (page : Nat) : Nat → FixedSizeMemoryPool
  | 0 => p
  | n + 1 =>
    let p := p.carve page n
    { p.Push (p.block page n) with total_allocated_ := add p.total_allocated_ p.block_size_ }

end FixedSizeMemoryPool

def align_up (size alignment : Nat) : Nat :=
  -- `(size + alignment - 1) & ~(alignment - 1)`
  (sub (add size alignment) 1) &&& (wordSize - 1 - sub alignment 1)

def kDefaultAlignment : Nat := 16

/-- `sizeof(FreeNode)` -/
def sizeofFreeNode : Nat := 8

/-- The constructors. The legacy constructor carves a first chunk, at `page`; the memory is
what `junk` says. -/
def construct (v : Version) (block_size blocks_per_chunk page : Nat) (junk : Nat → Nat) :
    FixedSizeMemoryPool :=
  let empty : FixedSizeMemoryPool :=
    { head_ := 0, next := junk, chunks_ := [], block_size_ := 0,
      blocks_per_chunk_ := blocks_per_chunk, max_chunks_ := 0, grown_blocks := none,
      is_expanding_ := false, total_allocated_ := 0, total_freed_ := 0 }
  match v with
  | .memory => { empty with block_size_ := max block_size sizeofFreeNode }
  | .legacy_pool =>
    let p := { empty with block_size_ := align_up block_size kDefaultAlignment }
    { p with chunks_ := [page] }.carve page blocks_per_chunk

/-- `SetMaxChunks` and `SetGrowFactor`, before the threads start. -/
def FixedSizeMemoryPool.configure (p : FixedSizeMemoryPool) (max : Nat) (grown : Option Nat) :
    FixedSizeMemoryPool :=
  { p with max_chunks_ := max, grown_blocks := grown }

/-! ## The threads -/

/-- Where a thread stands in `LockFreeStack::Push`. The legacy version keeps the expected head
in `node->next`, and reads it there before each compare-exchange. -/
inductive PushPc
  | load
  | write (head : Nat)
  | read
  | compare_exchange (expected : Nat)

/-- Where a thread stands in `LockFreeStack::Pop`. -/
inductive PopPc
  | load
  | read_next (head : Nat)
  | compare_exchange (head next : Nat)

/-- Where a thread stands in `Expand`. -/
inductive ExpandPc
  | check_limit
  | lock
  | new_chunk
  | push_back (page blocks : Nat)
  | carve (page i blocks : Nat)
  | push (page i blocks : Nat) (op : PushPc)
  | count (page i blocks : Nat)
  | unlock

/-- Who called `Expand`: `Allocate`, or the user. -/
inductive Caller
  | allocate
  | user

/-- Where a thread stands in its call on the pool. -/
inductive Pc
  | idle
  | pop (op : PopPc) (second : Bool)
  | try_expanding
  | expand (op : ExpandPc) (caller : Caller)
  | end_expanding
  | sub_freed (ptr : Nat)
  | dealloc (ptr : Nat) (op : PushPc)
  | add_freed

/-- The pool and its threads. `heap` records the regions that `operator new[]` gave out for the
pool (start and bytes), and `owned` who holds which block. -/
structure PoolSystem (ι : Type*) where
  pool : FixedSizeMemoryPool
  mtx_ : Option ι
  pc : ι → Pc
  heap : List (Nat × Nat)
  owned : List (ι × Nat)

inductive PoolAction (ι : Type*)
  /-- The thread calls `Allocate`, `Deallocate` of a block that it owns, or `Expand`. -/
  | allocate (t : ι)
  | deallocate (t : ι) (ptr : Nat)
  | expand (t : ι)
  /-- The owner of a block writes its first word. -/
  | use (t : ι) (ptr value : Nat)
  /-- The next step of a call. A `weak` compare-exchange fails though the values agree. -/
  | step (t : ι) (weak : Bool)
  /-- `operator new[]` returns, with the start of a chunk, or with `std::bad_alloc`. -/
  | new (t : ι) (page : Option Nat)

variable {ι : Type*}

/-- One step of `Push(node)`; `none` when it returns. -/
def LockFreeStack.Push (v : Version) (p : FixedSizeMemoryPool) (node : Nat) (weak : Bool) :
    PushPc → FixedSizeMemoryPool × Option PushPc
  | .load => (p, some (.write p.head_))
  | .write head =>
    ({ p with next := Function.update p.next node head },
      some (match v with
        | .memory => .compare_exchange head
        | .legacy_pool => .read))
  | .read => (p, some (.compare_exchange (p.next node)))
  | .compare_exchange expected =>
    if p.head_ = expected ∧ weak = false then ({ p with head_ := node }, none)
    else (p, some (.write p.head_))

/-- The loop test of `Pop` on the head that it has loaded. -/
def LockFreeStack.test (head : Nat) : PopPc ⊕ Nat :=
  if head = 0 then .inr 0 else .inl (.read_next head)

/-- One step of `Pop`; the right side is the pointer that it returns. -/
def LockFreeStack.Pop (p : FixedSizeMemoryPool) (weak : Bool) :
    PopPc → FixedSizeMemoryPool × (PopPc ⊕ Nat)
  | .load => (p, test p.head_)
  | .read_next head => (p, .inl (.compare_exchange head (p.next head)))
  | .compare_exchange head next =>
    if p.head_ = head ∧ weak = false then ({ p with head_ := next }, .inr head)
    else (p, test p.head_)

/-- A region that `operator new[]` may return: not null, in the address space, and apart from
the regions that the pool has. -/
def FreshRegion (heap : List (Nat × Nat)) (page bytes : Nat) : Prop :=
  0 < page ∧ page + bytes ≤ wordSize ∧ ∀ r ∈ heap, r.1 + r.2 ≤ page ∨ page + bytes ≤ r.1

instance (heap : List (Nat × Nat)) (page bytes : Nat) : Decidable (FreshRegion heap page bytes) :=
  inferInstanceAs (Decidable (_ ∧ _ ∧ _))

namespace PoolSystem

/-- The threads before their first call, and the first chunk of a legacy pool. -/
def start (v : Version) (p : FixedSizeMemoryPool) : PoolSystem ι where
  pool := p
  mtx_ := none
  pc := fun _ => .idle
  heap := match v with
    | .memory => []
    | .legacy_pool => p.chunks_.map (·, mul p.block_size_ p.blocks_per_chunk_)
  owned := []

variable [DecidableEq ι]

def setPc (s : PoolSystem ι) (t : ι) (pc : Pc) : PoolSystem ι :=
  { s with pc := Function.update s.pc t pc }

section
variable (s : PoolSystem ι) (t : ι) (pc : Pc)

@[simp] theorem setPc_self : (s.setPc t pc).pc t = pc := by simp [setPc]

theorem setPc_of_ne {u : ι} (h : u ≠ t) : (s.setPc t pc).pc u = s.pc u := by simp [setPc, h]

end

/-- `Expand` returns. -/
def endExpand (s : PoolSystem ι) (v : Version) (t : ι) : Caller → PoolSystem ι
  | .user => s.setPc t .idle
  | .allocate =>
    match v with
    | .memory => s.setPc t (.pop .load true)
    | .legacy_pool => s.setPc t .end_expanding

/-- `Allocate` returns the block, or null. -/
def finish (s : PoolSystem ι) (t : ι) (ptr : Nat) : PoolSystem ι :=
  if ptr = 0 then s.setPc t .idle
  else { s.setPc t .idle with owned := (t, ptr) :: s.owned }

/-- The next step of `Expand`, apart from `operator new[]`. -/
def Expand (s : PoolSystem ι) (v : Version) (t : ι) (weak : Bool) (caller : Caller) :
    ExpandPc → Option (PoolSystem ι)
  | .check_limit =>
    -- the first locked section of the legacy `Expand`
    if s.mtx_.isSome then none
    else if s.pool.atLimit then some (s.endExpand v t caller)
    else some (s.setPc t (.expand .lock caller))
  | .lock =>
    if s.mtx_.isSome then none
    else if s.pool.atLimit then some { s.setPc t (.expand .unlock caller) with mtx_ := some t }
    else some { s.setPc t (.expand .new_chunk caller) with mtx_ := some t }
  | .new_chunk => none
  | .push_back page blocks =>
    -- the legacy version is inside its locked section, the other one enters it here
    if v = .memory ∧ s.mtx_.isSome then none
    else some { s.setPc t (.expand (.carve page 0 blocks) caller) with
      pool := { s.pool with chunks_ := s.pool.chunks_ ++ [page] } }
  | .carve page i blocks =>
    if i < blocks then some (s.setPc t (.expand (.push page i blocks .load) caller))
    else
      match v with
      | .memory => some (s.endExpand v t caller)
      | .legacy_pool => some (s.setPc t (.expand .unlock caller))
  | .push page i blocks op =>
    match LockFreeStack.Push v s.pool (s.pool.block page i) weak op with
    | (p, some op) => some { s.setPc t (.expand (.push page i blocks op) caller) with pool := p }
    | (p, none) =>
      match v with
      | .memory => some { s.setPc t (.expand (.carve page (i + 1) blocks) caller) with pool := p }
      | .legacy_pool => some { s.setPc t (.expand (.count page i blocks) caller) with pool := p }
  | .count page i blocks =>
    some { s.setPc t (.expand (.carve page (i + 1) blocks) caller) with
      pool := { s.pool with
        total_allocated_ := add s.pool.total_allocated_ s.pool.block_size_ } }
  | .unlock => some { s.endExpand v t caller with mtx_ := none }

/-- What `Allocate` does with the pointer that a `Pop` returned. -/
def afterPop (s : PoolSystem ι) (v : Version) (t : ι) (second : Bool) (ptr : Nat) :
    PoolSystem ι :=
  if ptr = 0 ∧ second = false then
    match v with
    | .memory => s.setPc t (.expand .new_chunk .allocate)
    | .legacy_pool => s.setPc t .try_expanding
  else
    match v with
    | .memory => s.finish t ptr
    | .legacy_pool => if ptr = 0 then s.finish t ptr else s.setPc t (.sub_freed ptr)

/-- The next step of the call of a thread. -/
def threadStep (s : PoolSystem ι) (v : Version) (t : ι) (weak : Bool) : Option (PoolSystem ι) :=
  match s.pc t with
  | .idle => none
  | .pop op second =>
    match LockFreeStack.Pop s.pool weak op with
    | (p, .inl op) => some { s.setPc t (.pop op second) with pool := p }
    | (p, .inr ptr) => some (afterPop { s with pool := p } v t second ptr)
  | .try_expanding =>
    if s.pool.is_expanding_ then some (s.setPc t (.pop .load true))
    else some { s.setPc t (.expand .check_limit .allocate) with
      pool := { s.pool with is_expanding_ := true } }
  | .expand op caller => s.Expand v t weak caller op
  | .end_expanding =>
    some { s.setPc t (.pop .load true) with pool := { s.pool with is_expanding_ := false } }
  | .sub_freed ptr =>
    some (finish { s with
      pool := { s.pool with total_freed_ := sub s.pool.total_freed_ s.pool.block_size_ } } t ptr)
  | .dealloc ptr op =>
    match LockFreeStack.Push v s.pool ptr weak op with
    | (p, some op) => some { s.setPc t (.dealloc ptr op) with pool := p }
    | (p, none) =>
      match v with
      | .memory => some { s.setPc t .idle with pool := p }
      | .legacy_pool => some { s.setPc t .add_freed with pool := p }
  | .add_freed =>
    some { s.setPc t .idle with
      pool := { s.pool with total_freed_ := add s.pool.total_freed_ s.pool.block_size_ } }

/-- `operator new[]` of the chunk. When it throws, the locks are released and the call ends. -/
def newStep (s : PoolSystem ι) (v : Version) (t : ι) (page : Option Nat) :
    Option (PoolSystem ι) :=
  match s.pc t with
  | .expand .new_chunk caller =>
    match page with
    | none =>
      match v with
      | .memory => some (s.setPc t .idle)
      | .legacy_pool => some { s.setPc t .idle with mtx_ := none }
    | some page =>
      let bytes := mul s.pool.block_size_ (s.pool.blocks v)
      if FreshRegion s.heap page bytes then
        some { s.setPc t (.expand (.push_back page (s.pool.blocks v)) caller) with
          heap := (page, bytes) :: s.heap }
      else none
  | _ => none

def step (v : Version) (s : PoolSystem ι) : PoolAction ι → Option (PoolSystem ι)
  | .allocate t =>
    match s.pc t with
    | .idle => some (s.setPc t (.pop .load false))
    | _ => none
  | .deallocate t ptr =>
    match s.pc t with
    | .idle =>
      if ptr = 0 then some s
      else if (t, ptr) ∈ s.owned then
        some { s.setPc t (.dealloc ptr .load) with owned := s.owned.erase (t, ptr) }
      else none
    | _ => none
  | .expand t =>
    match v, s.pc t with
    | .legacy_pool, .idle => some (s.setPc t (.expand .check_limit .user))
    | _, _ => none
  | .use t ptr value =>
    if (t, ptr) ∈ s.owned then
      some { s with pool := { s.pool with next := Function.update s.pool.next ptr value } }
    else none
  | .step t weak => s.threadStep v t weak
  | .new t page => s.newStep v t page

/-! ## What the pool promises -/

/-- The block is on the free list. -/
def OnFreeList (s : PoolSystem ι) (ptr : Nat) : Prop :=
  LinkedStack.Reaches 0 s.pool.next s.pool.head_ ptr

/-- No block has two owners, and no owned block is on the free list. -/
def Exclusive (s : PoolSystem ι) : Prop :=
  (s.owned.map Prod.snd).Nodup ∧ ∀ t ptr, (t, ptr) ∈ s.owned → ¬ s.OnFreeList ptr

/-- A `Pop` whose compare-exchange succeeds has read a next pointer that is null or names a
block that is on the free list behind the head. -/
def PopsFreshNext (s : PoolSystem ι) : PoolAction ι → Prop
  | .step t weak =>
    ∀ head next second, s.pc t = .pop (.compare_exchange head next) second →
      s.pool.head_ = head → weak = false →
      next = 0 ∨ LinkedStack.Reaches 0 s.pool.next (s.pool.next head) next
  | _ => True

end PoolSystem

end sci.pools
