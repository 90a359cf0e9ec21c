-- The two counters of the legacy pool (src/bridges/pool_bridge.cpp, 50-113). `total_allocated_` counts
-- blocks when they are carved, and `total_freed_` goes down when a block is allocated and up when it
-- comes back, so that it is zero minus what is allocated.
import Scicompute.MemoryPoolRuns
import Scicompute.Tally

open Transition Word Tally

namespace sci.pools

/-- A legacy pool with the number of blocks that it has carved. -/
structure Counted (ι : Type*) where
  system : PoolSystem ι
  carved : Nat

/-- A step of the pool, or one thread gives a block of its own to another. -/
inductive CountedAction (ι : Type*)
  | pool (a : PoolAction ι)
  | hand_over (t u : ι) (ptr : Nat)

namespace Counted

variable {ι : Type*} [DecidableEq ι]

/-- The step ends the `Push` of a block in `Expand`. -/
def carves (s : PoolSystem ι) : PoolAction ι → Bool
  | .step t weak =>
    match s.pc t with
    | .expand (.push _ _ _ (.compare_exchange expected)) _ =>
      decide (s.pool.head_ = expected ∧ weak = false)
    | _ => false
  | _ => false

def start (p : FixedSizeMemoryPool) : Counted ι := ⟨.start .legacy_pool p, p.blocks_per_chunk_⟩

def step (s : Counted ι) : CountedAction ι → Option (Counted ι)
  | .pool a =>
    (s.system.step .legacy_pool a).map fun system => ⟨system, s.carved + (carves s.system a).toNat⟩
  | .hand_over t u ptr =>
    if s.system.owned.contains (t, ptr) then
      some { s with system := { s.system with
        owned := (u, ptr) :: s.system.owned.erase (t, ptr) } }
    else none

/-- No call is in progress. -/
def Quiet (s : Counted ι) : Prop := ∀ t, s.system.pc t = .idle

end Counted

instance : DecidablePred (· = Pc.idle)
  | .idle => isTrue rfl
  | .pop _ _ => isFalse nofun
  | .try_expanding => isFalse nofun
  | .expand _ _ => isFalse nofun
  | .end_expanding => isFalse nofun
  | .sub_freed _ => isFalse nofun
  | .dealloc _ _ => isFalse nofun
  | .add_freed => isFalse nofun

namespace FixedSizeMemoryPool

def TotalAllocatedBytes (p : FixedSizeMemoryPool) : Nat := p.total_allocated_

def TotalFreedBytes (p : FixedSizeMemoryPool) : Nat := p.total_freed_

def BlockSize (p : FixedSizeMemoryPool) : Nat := p.block_size_

end FixedSizeMemoryPool

/-! ## Sums modulo `2^64` -/

theorem cast_add (a b : Nat) : ((add a b : Nat) : ZMod wordSize) = a + b := by
  rw [add, ZMod.natCast_mod, Nat.cast_add]

theorem cast_sub {b : Nat} (a : Nat) (h : b ≤ wordSize) :
    ((sub a b : Nat) : ZMod wordSize) = a - b := by
  rw [sub, ZMod.natCast_mod, Nat.cast_add, Nat.cast_sub h, ZMod.natCast_self, zero_sub, sub_eq_add_neg]

theorem eq_of_cast_eq {a b : Nat} (ha : a < wordSize) (hb : b < wordSize)
    (h : (a : ZMod wordSize) = b) : a = b :=
  ((ZMod.natCast_eq_natCast_iff a b wordSize).mp h).eq_of_lt_of_lt ha hb

/-! ## Where the counters lag behind -/

/-- A block is carved and not counted. -/
def counting : Pc → Nat
  | .expand (.count _ _ _) _ => 1
  | _ => 0

/-- A block is given back and not counted. -/
def returning : Pc → Nat
  | .dealloc _ _ => 1
  | .add_freed => 1
  | _ => 0

/-- A block that is counted as taken is not null. -/
def Taken : Pc → Prop
  | .sub_freed ptr => ptr ≠ 0
  | _ => True

/-- What the counters are, modulo `2^64`, with the blocks `carved`. -/
structure Counters {ι : Type*} (s : PoolSystem ι) (carved : Nat) : Prop where
  size : s.pool.block_size_ < wordSize
  allocated_lt : s.pool.total_allocated_ < wordSize
  freed_lt : s.pool.total_freed_ < wordSize
  taken : ∀ t, Taken (s.pc t)
  allocated : ∃ n, AddUp counting s.pc n ∧
    (s.pool.total_allocated_ + s.pool.block_size_ * n : ZMod wordSize) = s.pool.block_size_ * carved
  freed : ∃ n, AddUp returning s.pc n ∧
    (s.pool.total_freed_ + s.pool.block_size_ * (s.owned.length + n) : ZMod wordSize) = 0

variable {ι : Type*} [DecidableEq ι] {s s' : PoolSystem ι} {carved carved' : Nat} {t : ι}

/-- A thread goes to another place, and the counters go with it. -/
theorem Counters.move (h : Counters s carved) (pc : Pc) (hpc : s'.pc = Function.update s.pc t pc)
    (hsize : s'.pool.block_size_ = s.pool.block_size_) (htaken : Taken pc)
    (hallocated_lt : s'.pool.total_allocated_ < wordSize)
    (hfreed_lt : s'.pool.total_freed_ < wordSize)
    (hallocated : (s'.pool.total_allocated_ + s.pool.block_size_ * (counting pc + carved) :
      ZMod wordSize) = s.pool.total_allocated_ + s.pool.block_size_ * (counting (s.pc t) + carved'))
    (hfreed : (s'.pool.total_freed_ + s.pool.block_size_ * (s'.owned.length + returning pc) :
      ZMod wordSize) =
        s.pool.total_freed_ + s.pool.block_size_ * (s.owned.length + returning (s.pc t))) :
    Counters s' carved' := by
  refine ⟨hsize ▸ h.size, hallocated_lt, hfreed_lt, fun u => ?_, ?_, ?_⟩
  · rw [hpc, Function.update_apply]
    split_ifs
    · exact htaken
    · exact h.taken u
  · obtain ⟨n, hn, hsum⟩ := h.allocated
    obtain ⟨k, rfl, hk⟩ := hn.update t pc
    refine ⟨_, hpc ▸ hk, ?_⟩
    rw [hsize]
    push_cast at hsum ⊢
    linear_combination hsum + hallocated
  · obtain ⟨n, hn, hsum⟩ := h.freed
    obtain ⟨k, rfl, hk⟩ := hn.update t pc
    refine ⟨_, hpc ▸ hk, ?_⟩
    rw [hsize]
    push_cast at hsum ⊢
    linear_combination hsum + hfreed

/-- The sizes and the counters are as they were. -/
structure SameCounts (p p' : FixedSizeMemoryPool) : Prop where
  size : p'.block_size_ = p.block_size_
  allocated : p'.total_allocated_ = p.total_allocated_
  freed : p'.total_freed_ = p.total_freed_

theorem SameCounts.refl (p : FixedSizeMemoryPool) : SameCounts p p := ⟨rfl, rfl, rfl⟩

/-- A step that leaves the counters as they are, between places that no counter lags behind. -/
theorem Counters.stay (h : Counters s carved) (pc : Pc) (hpc : s'.pc = Function.update s.pc t pc)
    (hsame : SameCounts s.pool s'.pool) (howned : s'.owned = s.owned) (htaken : Taken pc)
    (hcounting : counting pc = counting (s.pc t)) (hreturning : returning pc = returning (s.pc t)) :
    Counters s' carved := by
  refine h.move pc hpc hsame.size htaken ?_ ?_ ?_ ?_
  · rw [hsame.allocated]
    exact h.allocated_lt
  · rw [hsame.freed]
    exact h.freed_lt
  · rw [hsame.allocated, hcounting]
  · rw [hsame.freed, howned, hreturning]

/-! ## The calls -/

theorem sameCounts_push (v : Version) (p : FixedSizeMemoryPool) (node : Nat) (weak : Bool)
    (op : PushPc) : SameCounts p (LockFreeStack.Push v p node weak op).1 := by
  cases op with
  | compare_exchange expected =>
    rw [LockFreeStack.Push]
    split_ifs <;> exact ⟨rfl, rfl, rfl⟩
  | _ => exact ⟨rfl, rfl, rfl⟩

theorem sameCounts_pop (p : FixedSizeMemoryPool) (weak : Bool) (op : PopPc) :
    SameCounts p (LockFreeStack.Pop p weak op).1 := by
  cases op with
  | compare_exchange head next =>
    rw [LockFreeStack.Pop]
    split_ifs <;> exact ⟨rfl, rfl, rfl⟩
  | _ => exact ⟨rfl, rfl, rfl⟩

theorem Counters.endExpand (h : Counters s carved) {caller : Caller} (hc : counting (s.pc t) = 0)
    (hr : returning (s.pc t) = 0) (mtx : Option ι) :
    Counters { s.endExpand .legacy_pool t caller with mtx_ := mtx } carved := by
  cases caller with
  | user => exact h.stay .idle rfl (.refl _) rfl trivial hc.symm hr.symm
  | allocate => exact h.stay .end_expanding rfl (.refl _) rfl trivial hc.symm hr.symm

omit [DecidableEq ι] in
/-- A block is carved where its `Push` ends. -/
theorem carves_of_push {page i blocks : Nat} {op : PushPc} {caller : Caller}
    (hpc : s.pc t = .expand (.push page i blocks op) caller) (node : Nat) (weak : Bool) :
    Counted.carves s (.step t weak) =
      (LockFreeStack.Push .legacy_pool s.pool node weak op).2.isNone := by
  unfold Counted.carves
  dsimp only
  rw [hpc]
  cases op with
  | compare_exchange expected =>
    dsimp only
    rw [LockFreeStack.Push]
    split_ifs with h
    · exact decide_eq_true h
    · exact decide_eq_false h
  | _ => rfl

theorem Counters.expand {op : ExpandPc} {caller : Caller} {weak : Bool} (h : Counters s carved)
    (hpc : s.pc t = .expand op caller) (hs : s.Expand .legacy_pool t weak caller op = some s') :
    Counters s' (carved + (Counted.carves s (.step t weak)).toNat) := by
  have hr : returning (s.pc t) = 0 := by rw [hpc]; rfl
  -- only in its `Push` a block is carved
  have hkeep : (∀ page i blocks op', op ≠ .push page i blocks op') →
      carved + (Counted.carves s (.step t weak)).toNat = carved := by
    intro hop
    unfold Counted.carves
    dsimp only
    rw [hpc]
    cases op with
    | push page i blocks op' => exact absurd rfl (hop page i blocks op')
    | _ => rfl
  cases op with
  | check_limit =>
    have hc : counting (s.pc t) = 0 := by rw [hpc]; rfl
    rw [hkeep (by simp)]
    rw [PoolSystem.Expand] at hs
    split_ifs at hs
    · cases hs
      exact h.endExpand hc hr _
    · cases hs
      exact h.stay _ rfl (.refl _) rfl trivial hc.symm hr.symm
  | lock =>
    have hc : counting (s.pc t) = 0 := by rw [hpc]; rfl
    rw [hkeep (by simp)]
    rw [PoolSystem.Expand] at hs
    split_ifs at hs <;> cases hs
    · exact h.stay (.expand .unlock caller) rfl (.refl _) rfl trivial hc.symm hr.symm
    · exact h.stay (.expand .new_chunk caller) rfl (.refl _) rfl trivial hc.symm hr.symm
  | new_chunk => cases hs
  | push_back page blocks =>
    have hc : counting (s.pc t) = 0 := by rw [hpc]; rfl
    rw [hkeep (by simp)]
    rw [PoolSystem.Expand, if_neg (by simp)] at hs
    cases hs
    exact h.stay (.expand (.carve page 0 blocks) caller) rfl ⟨rfl, rfl, rfl⟩ rfl trivial
      hc.symm hr.symm
  | carve page i blocks =>
    have hc : counting (s.pc t) = 0 := by rw [hpc]; rfl
    rw [hkeep (by simp)]
    rw [PoolSystem.Expand] at hs
    split_ifs at hs <;> cases hs
    · exact h.stay (.expand (.push page i blocks .load) caller) rfl (.refl _) rfl trivial
        hc.symm hr.symm
    · exact h.stay (.expand .unlock caller) rfl (.refl _) rfl trivial hc.symm hr.symm
  | push page i blocks op =>
    have hc : counting (s.pc t) = 0 := by rw [hpc]; rfl
    rw [carves_of_push hpc (s.pool.block page i)]
    rw [PoolSystem.Expand] at hs
    have hsame := sameCounts_push .legacy_pool s.pool (s.pool.block page i) weak op
    revert hs hsame
    rcases LockFreeStack.Push .legacy_pool s.pool (s.pool.block page i) weak op with ⟨p, _ | op'⟩
    · intro hs hsame
      cases hs
      refine h.move (.expand (.count page i blocks) caller) rfl hsame.size trivial ?_ ?_ ?_ ?_
      · exact hsame.allocated ▸ h.allocated_lt
      · exact hsame.freed ▸ h.freed_lt
      · have hcarved : ((carved + (none : Option PushPc).isNone.toNat : Nat) : ZMod wordSize) =
            carved + 1 := by
          simp
        rw [hcarved, hc]
        dsimp only
        rw [hsame.allocated]
        simp only [counting]
        push_cast
        ring
      · rw [hr]
        dsimp only
        rw [hsame.freed]
        rfl
    · intro hs hsame
      cases hs
      exact h.stay (.expand (.push page i blocks op') caller) rfl hsame rfl trivial hc.symm hr.symm
  | count page i blocks =>
    have hc : counting (s.pc t) = 1 := by rw [hpc]; rfl
    rw [hkeep (by simp)]
    cases hs
    refine h.move (.expand (.carve page (i + 1) blocks) caller) rfl rfl trivial
      (Nat.mod_lt _ (by decide)) h.freed_lt ?_ ?_
    · rw [hc]
      dsimp only
      rw [cast_add]
      simp only [counting]
      push_cast
      ring
    · rw [hr]
      rfl
  | unlock =>
    have hc : counting (s.pc t) = 0 := by rw [hpc]; rfl
    rw [hkeep (by simp)]
    cases hs
    exact h.endExpand hc hr none

/-- `Pop` returns null, or a block that is taken now. -/
theorem Counters.afterPop (h : Counters s carved) {p : FixedSizeMemoryPool} (hsame : SameCounts s.pool p)
    {op : PopPc} {second : Bool} (hpc : s.pc t = .pop op second) (ptr : Nat) :
    Counters (PoolSystem.afterPop { s with pool := p } .legacy_pool t second ptr) carved := by
  have hc : counting (s.pc t) = 0 := by rw [hpc]; rfl
  have hr : returning (s.pc t) = 0 := by rw [hpc]; rfl
  unfold PoolSystem.afterPop PoolSystem.finish
  split_ifs with hnull hptr
  · exact h.stay .try_expanding rfl hsame rfl trivial hc.symm hr.symm
  · exact h.stay .idle rfl hsame rfl trivial hc.symm hr.symm
  · exact h.stay (.sub_freed ptr) rfl hsame rfl hptr hc.symm hr.symm

theorem Counters.sub_freed (h : Counters s carved) {ptr : Nat} (hpc : s.pc t = .sub_freed ptr) :
    Counters (PoolSystem.finish { s with pool := { s.pool with
      total_freed_ := sub s.pool.total_freed_ s.pool.block_size_ } } t ptr) carved := by
  have hptr : ptr ≠ 0 := by
    have htaken := h.taken t
    rwa [hpc] at htaken
  have hc : counting (s.pc t) = 0 := by rw [hpc]; rfl
  have hr : returning (s.pc t) = 0 := by rw [hpc]; rfl
  rw [PoolSystem.finish, if_neg hptr]
  refine h.move .idle rfl rfl trivial h.allocated_lt (Nat.mod_lt _ (by decide)) ?_ ?_
  · rw [hc]
    rfl
  · rw [hr]
    simp only [returning, PoolSystem.setPc]
    rw [cast_sub _ h.size.le, List.length_cons]
    push_cast
    ring

theorem Counters.add_freed (h : Counters s carved) (hpc : s.pc t = .add_freed) :
    Counters { s.setPc t .idle with pool := { s.pool with
      total_freed_ := add s.pool.total_freed_ s.pool.block_size_ } } carved := by
  have hc : counting (s.pc t) = 0 := by rw [hpc]; rfl
  have hr : returning (s.pc t) = 1 := by rw [hpc]; rfl
  refine h.move .idle rfl rfl trivial h.allocated_lt (Nat.mod_lt _ (by decide)) ?_ ?_
  · rw [hc]
    rfl
  · rw [hr]
    dsimp only
    rw [cast_add]
    simp only [returning, PoolSystem.setPc]
    push_cast
    ring

theorem Counters.thread {weak : Bool} (h : Counters s carved)
    (hs : s.threadStep .legacy_pool t weak = some s') :
    Counters s' (carved + (Counted.carves s (.step t weak)).toNat) := by
  -- outside of `Expand` no block is carved
  have hkeep : (∀ op caller, s.pc t ≠ .expand op caller) →
      carved + (Counted.carves s (.step t weak)).toNat = carved := by
    intro hpc
    unfold Counted.carves
    dsimp only
    cases hat : s.pc t with
    | expand op caller => exact absurd hat (hpc op caller)
    | _ => rfl
  unfold PoolSystem.threadStep at hs
  cases hpc : s.pc t with
  | idle =>
    rw [hpc] at hs
    cases hs
  | pop op second =>
    rw [hkeep (by rw [hpc]; exact nofun)]
    rw [hpc] at hs
    dsimp only at hs
    have hsame := sameCounts_pop s.pool weak op
    revert hs hsame
    rcases LockFreeStack.Pop s.pool weak op with ⟨p, op' | ptr⟩
    · intro hs hsame
      cases hs
      exact h.stay (.pop op' second) rfl hsame rfl trivial (by rw [hpc]; rfl) (by rw [hpc]; rfl)
    · intro hs hsame
      cases hs
      exact h.afterPop hsame hpc ptr
  | try_expanding =>
    rw [hkeep (by rw [hpc]; exact nofun)]
    rw [hpc] at hs
    dsimp only at hs
    split_ifs at hs <;> cases hs
    · exact h.stay (.pop .load true) rfl (.refl _) rfl trivial (by rw [hpc]; rfl)
        (by rw [hpc]; rfl)
    · exact h.stay (.expand .check_limit .allocate) rfl ⟨rfl, rfl, rfl⟩ rfl trivial
        (by rw [hpc]; rfl) (by rw [hpc]; rfl)
  | expand op caller =>
    rw [hpc] at hs
    exact h.expand hpc hs
  | end_expanding =>
    rw [hkeep (by rw [hpc]; exact nofun)]
    rw [hpc] at hs
    cases hs
    exact h.stay (.pop .load true) rfl ⟨rfl, rfl, rfl⟩ rfl trivial (by rw [hpc]; rfl)
      (by rw [hpc]; rfl)
  | sub_freed ptr =>
    rw [hkeep (by rw [hpc]; exact nofun)]
    rw [hpc] at hs
    cases hs
    exact h.sub_freed hpc
  | dealloc ptr op =>
    rw [hkeep (by rw [hpc]; exact nofun)]
    rw [hpc] at hs
    dsimp only at hs
    have hsame := sameCounts_push .legacy_pool s.pool ptr weak op
    revert hs hsame
    rcases LockFreeStack.Push .legacy_pool s.pool ptr weak op with ⟨p, _ | op'⟩
    · intro hs hsame
      cases hs
      exact h.stay .add_freed rfl hsame rfl trivial (by rw [hpc]; rfl) (by rw [hpc]; rfl)
    · intro hs hsame
      cases hs
      exact h.stay (.dealloc ptr op') rfl hsame rfl trivial (by rw [hpc]; rfl) (by rw [hpc]; rfl)
  | add_freed =>
    rw [hkeep (by rw [hpc]; exact nofun)]
    rw [hpc] at hs
    cases hs
    exact h.add_freed hpc

theorem Counters.new {page : Option Nat} (h : Counters s carved)
    (hs : s.newStep .legacy_pool t page = some s') : Counters s' carved := by
  unfold PoolSystem.newStep at hs
  split at hs
  · rename_i caller hpc
    have hc : counting (s.pc t) = 0 := by rw [hpc]; rfl
    have hr : returning (s.pc t) = 0 := by rw [hpc]; rfl
    cases page with
    | none =>
      cases hs
      exact h.stay .idle rfl (.refl _) rfl trivial hc.symm hr.symm
    | some page =>
      dsimp only at hs
      split_ifs at hs
      cases hs
      exact h.stay (.expand (.push_back page (s.pool.blocks .legacy_pool)) caller) rfl (.refl _)
        rfl trivial hc.symm hr.symm
  · cases hs

/-- A call begins. -/
theorem Counters.begin (h : Counters s carved) (hidle : s.pc t = .idle) {pc : Pc} (htaken : Taken pc)
    (hcounting : counting pc = 0) (hreturning : returning pc = 0) : Counters (s.setPc t pc) carved := by
  refine h.stay pc rfl (.refl _) rfl htaken ?_ ?_
  · rw [hidle, hcounting]
    rfl
  · rw [hidle, hreturning]
    rfl

theorem Counters.deallocate (h : Counters s carved) {ptr : Nat} (hidle : s.pc t = .idle)
    (howned : (t, ptr) ∈ s.owned) :
    Counters { s.setPc t (.dealloc ptr .load) with owned := s.owned.erase (t, ptr) } carved := by
  have hlength : (s.owned.erase (t, ptr)).length + 1 = s.owned.length :=
    List.length_erase_add_one howned
  refine h.move (.dealloc ptr .load) rfl rfl trivial h.allocated_lt h.freed_lt ?_ ?_
  · rw [hidle]
    rfl
  · rw [hidle, ← hlength]
    simp only [returning, PoolSystem.setPc]
    push_cast
    ring

theorem Counters.pool {a : PoolAction ι} (h : Counters s carved)
    (hs : s.step .legacy_pool a = some s') : Counters s' (carved + (Counted.carves s a).toNat) := by
  cases a with
  | allocate t =>
    rw [PoolSystem.step] at hs
    cases hidle : s.pc t with
    | idle =>
      rw [hidle] at hs
      cases hs
      exact h.begin hidle trivial rfl rfl
    | _ =>
      rw [hidle] at hs
      cases hs
  | deallocate t ptr =>
    rw [PoolSystem.step] at hs
    cases hidle : s.pc t with
    | idle =>
      rw [hidle] at hs
      dsimp only at hs
      split_ifs at hs with hnull howned <;> cases hs
      · exact h
      · exact h.deallocate hidle howned
    | _ =>
      rw [hidle] at hs
      cases hs
  | expand t =>
    unfold PoolSystem.step at hs
    dsimp only at hs
    cases hidle : s.pc t with
    | idle =>
      rw [hidle] at hs
      cases hs
      exact h.begin hidle trivial rfl rfl
    | _ =>
      rw [hidle] at hs
      cases hs
  | use t ptr value =>
    rw [PoolSystem.step] at hs
    split_ifs at hs
    cases hs
    exact ⟨h.size, h.allocated_lt, h.freed_lt, h.taken, h.allocated, h.freed⟩
  | step t weak => exact h.thread hs
  | new t page => exact h.new hs

/-! ## Runs -/

theorem Counters.hand_over {ptr : Nat} {u : ι} (h : Counters s carved) (howned : (t, ptr) ∈ s.owned) :
    Counters { s with owned := (u, ptr) :: s.owned.erase (t, ptr) } carved := by
  have hlength : ((u, ptr) :: s.owned.erase (t, ptr)).length = s.owned.length := by
    rw [List.length_cons, List.length_erase_add_one howned]
  refine ⟨h.size, h.allocated_lt, h.freed_lt, h.taken, h.allocated, ?_⟩
  dsimp only
  rw [hlength]
  exact h.freed

theorem Counters.step {c c' : Counted ι} {a : CountedAction ι} (h : Counters c.system c.carved)
    (hs : c.step a = some c') : Counters c'.system c'.carved := by
  cases a with
  | pool a =>
    obtain ⟨system, hsystem, rfl⟩ := Option.map_eq_some_iff.mp hs
    exact h.pool hsystem
  | hand_over t u ptr =>
    rw [Counted.step] at hs
    split_ifs at hs with howned
    cases hs
    exact h.hand_over (List.contains_iff_mem.mp howned)

theorem align_up_lt (size alignment : Nat) : align_up size alignment < wordSize := by
  have hle : align_up size alignment ≤ wordSize - 1 - sub alignment 1 := Nat.and_le_right
  have hpos : 0 < wordSize := by decide
  omega

/-- The blocks of the constructor are counted. -/
theorem counters_carve (p : FixedSizeMemoryPool) (page n : Nat) (h : p.total_allocated_ < wordSize) :
    (p.carve page n).total_freed_ = p.total_freed_ ∧ (p.carve page n).total_allocated_ < wordSize ∧
      ((p.carve page n).total_allocated_ : ZMod wordSize) =
        p.total_allocated_ + p.block_size_ * n := by
  induction n with
  | zero =>
    refine ⟨rfl, h, ?_⟩
    rw [FixedSizeMemoryPool.carve, Nat.cast_zero, mul_zero, add_zero]
  | succ n ih =>
    obtain ⟨hfreed, -, hsum⟩ := ih
    refine ⟨hfreed, Nat.mod_lt _ (by decide), ?_⟩
    rw [FixedSizeMemoryPool.carve]
    dsimp only
    rw [cast_add, hsum, FixedSizeMemoryPool.carve_block_size_]
    push_cast
    ring

omit [DecidableEq ι] in
theorem counters_start (block_size blocks_per_chunk page : Nat) (junk : Nat → Nat) (max : Nat)
    (grown : Option Nat) {p : FixedSizeMemoryPool}
    (hp : p = (construct .legacy_pool block_size blocks_per_chunk page junk).configure max grown) :
    Counters (Counted.start (ι := ι) p).system (Counted.start (ι := ι) p).carved := by
  obtain ⟨q, rfl, hsize, hallocated, hfreed, hper⟩ : ∃ q : FixedSizeMemoryPool,
      p = (q.carve page blocks_per_chunk).configure max grown ∧
        q.block_size_ = align_up block_size kDefaultAlignment ∧ q.total_allocated_ = 0 ∧
        q.total_freed_ = 0 ∧ q.blocks_per_chunk_ = blocks_per_chunk :=
    ⟨_, hp, rfl, rfl, rfl, rfl⟩
  obtain ⟨hcarve, hlt, hsum⟩ := counters_carve q page blocks_per_chunk (by rw [hallocated]; decide)
  have hblock := q.carve_block_size_ page blocks_per_chunk
  have hcarved := (q.carve_blocks_per_chunk_ page blocks_per_chunk).trans hper
  refine ⟨?_, hlt, ?_, fun t => trivial, ⟨0, addUp_zero fun _ => rfl, ?_⟩,
    ⟨0, addUp_zero fun _ => rfl, ?_⟩⟩
  · exact (hblock.trans hsize) ▸ align_up_lt block_size kDefaultAlignment
  · exact (hcarve.trans hfreed) ▸ (by decide : 0 < wordSize)
  · change ((q.carve page blocks_per_chunk).total_allocated_ +
      (q.carve page blocks_per_chunk).block_size_ * (0 : Nat) : ZMod wordSize) =
        (q.carve page blocks_per_chunk).block_size_ * (q.carve page blocks_per_chunk).blocks_per_chunk_
    rw [hsum, hblock, hcarved, hallocated, Nat.cast_zero, mul_zero, add_zero, zero_add]
  · change ((q.carve page blocks_per_chunk).total_freed_ +
      (q.carve page blocks_per_chunk).block_size_ * (([] : List (ι × Nat)).length + (0 : Nat)) :
        ZMod wordSize) = 0
    rw [hcarve, hfreed, List.length_nil, Nat.cast_zero, add_zero, mul_zero, add_zero]

omit [DecidableEq ι] in
theorem Counters.allocated_eq {c : Counted ι} (h : Counters c.system c.carved) (hquiet : c.Quiet)
    (hcarved : c.system.pool.BlockSize * c.carved < wordSize) :
    c.system.pool.TotalAllocatedBytes = c.system.pool.BlockSize * c.carved := by
  obtain ⟨n, hn, hsum⟩ := h.allocated
  obtain rfl := hn.eq_zero fun t => by rw [hquiet t]; rfl
  refine eq_of_cast_eq h.allocated_lt hcarved ?_
  rw [Nat.cast_mul]
  rwa [Nat.cast_zero, mul_zero, add_zero] at hsum

omit [DecidableEq ι] in
/-- The bytes of the blocks that are allocated and `total_freed_` add up to 0, or to `2^64`. -/
theorem Counters.freed_eq {c : Counted ι} (h : Counters c.system c.carved) (hquiet : c.Quiet)
    (howned : c.system.pool.BlockSize * c.system.owned.length < wordSize) :
    c.system.pool.TotalFreedBytes + c.system.pool.BlockSize * c.system.owned.length = 0 ∨
      c.system.pool.TotalFreedBytes + c.system.pool.BlockSize * c.system.owned.length = wordSize := by
  obtain ⟨n, hn, hsum⟩ := h.freed
  obtain rfl := hn.eq_zero fun t => by rw [hquiet t]; rfl
  have hzero : ((c.system.pool.TotalFreedBytes +
      c.system.pool.BlockSize * c.system.owned.length : Nat) : ZMod wordSize) = 0 := by
    rw [Nat.cast_add, Nat.cast_mul]
    rwa [Nat.cast_zero, add_zero] at hsum
  obtain ⟨k, hk⟩ := (ZMod.natCast_eq_zero_iff _ _).mp hzero
  have hlt : c.system.pool.TotalFreedBytes < wordSize := h.freed_lt
  have hk2 : k < 2 := by
    by_contra hge
    have hmul := Nat.mul_le_mul_left wordSize (not_lt.mp hge)
    omega
  interval_cases k
  · exact Or.inl hk
  · exact Or.inr (hk.trans (Nat.mul_one _))

namespace Counted

/-- Where no call is in progress the blocks that were carved are counted, and the bytes that were freed
are at most those only if no block is allocated. -/
theorem totals_iff (block_size blocks_per_chunk page : Nat) (junk : Nat → Nat) (max : Nat)
    (grown : Option Nat) {p : FixedSizeMemoryPool}
    (hp : p = (construct .legacy_pool block_size blocks_per_chunk page junk).configure max grown)
    {as : List (CountedAction ι)} {c : Counted ι} (hr : run step (start p) as = some c)
    (hquiet : c.Quiet) (hcarved : c.system.pool.BlockSize * c.carved < 2 ^ 63)
    (howned : c.system.pool.BlockSize * c.system.owned.length < 2 ^ 63) :
    c.system.pool.TotalAllocatedBytes = c.system.pool.BlockSize * c.carved ∧
      (c.system.pool.TotalFreedBytes ≤ c.system.pool.TotalAllocatedBytes ↔
        c.system.pool.BlockSize = 0 ∨ c.system.owned = []) := by
  have h : Counters c.system c.carved :=
    invariant_of_run (I := fun c => Counters c.system c.carved) (fun _ _ _ h hs => h.step hs)
      (counters_start block_size blocks_per_chunk page junk max grown hp) hr
  have hword : (2 : Nat) ^ 63 < wordSize := by decide
  have hallocated := h.allocated_eq hquiet (hcarved.trans hword)
  refine ⟨hallocated, ?_⟩
  rw [hallocated, ← List.length_eq_zero_iff, ← Nat.mul_eq_zero]
  rcases h.freed_eq hquiet (howned.trans hword) with hzero | hwrap
  · exact iff_of_true (by omega) (by omega)
  · unfold wordSize at hwrap
    have hlt : c.system.pool.TotalFreedBytes < 2 ^ 64 := h.freed_lt
    exact iff_of_false (by omega) (by omega)

/-- A block is allocated and comes back. -/
theorem totals_of_a_block_that_comes_back :
    ∃ c : Counted Bool, run step (start (PoolSystem.smallPool .legacy_pool))
      ((.allocate false :: PoolSystem.steps false 4 ++ .deallocate false 4112 ::
        PoolSystem.steps false 5).map .pool) = some c ∧
      c.system.pool.TotalFreedBytes ≤ c.system.pool.TotalAllocatedBytes := by
  obtain ⟨c, hr, hquiet, hcarved, howned⟩ : ∃ c : Counted Bool, run step
      (start (PoolSystem.smallPool .legacy_pool)) ((.allocate false :: PoolSystem.steps false 4 ++
        .deallocate false 4112 :: PoolSystem.steps false 5).map .pool) = some c ∧
      (∀ t, c.system.pc t = .idle) ∧ c.system.pool.BlockSize * c.carved < 2 ^ 63 ∧
      c.system.owned = [] := exists_of_any (by decide +kernel)
  have hlength : c.system.pool.BlockSize * c.system.owned.length < 2 ^ 63 := by
    rw [howned, List.length_nil, Nat.mul_zero]
    decide
  exact ⟨c, hr, (totals_iff 16 2 4096 (fun _ => 0) 0 none rfl hr hquiet hcarved hlength).2.mpr
    (Or.inr howned)⟩

/-- While the block is allocated, `2^64 - 16` bytes have been freed. -/
theorem more_is_freed_than_allocated :
    ∃ c : Counted Bool, run step (start (PoolSystem.smallPool .legacy_pool))
      ((.allocate false :: PoolSystem.steps false 4).map .pool) = some c ∧
      (∀ t, c.system.pc t = .idle) ∧ c.system.pool.TotalFreedBytes = 2 ^ 64 - 16 ∧
      ¬ c.system.pool.TotalFreedBytes ≤ c.system.pool.TotalAllocatedBytes :=
  exists_of_any (by decide +kernel)

end Counted

end sci.pools
