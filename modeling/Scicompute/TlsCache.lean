-- `sci::memory::TlsCache` (include/memory/memory_pool.hpp) and `legacy_pool::TlsCache`
-- (src/bridges/pool_bridge.cpp): a vector of free blocks that is filled and emptied in batches.
-- The blocks come from `alloc_` and go back through `free_`.
import Scicompute.MemoryPool

open Transition

namespace sci.pools

/-! ## The cache -/

def kBatchSize : Nat := 16

/-- `allocs` is the number of the calls of `alloc_` so far, and `freed` lists the pointers that
`free_` was called with. The null pointer is 0. -/
structure TlsCache where
  cache_ : List Nat
  allocs : Nat
  freed : List Nat

namespace TlsCache

/-- `cache_.push_back(ptr)` -/
def push_back (c : TlsCache) (ptr : Nat) : TlsCache := { c with cache_ := c.cache_ ++ [ptr] }

variable (alloc_ : Nat → Nat)

/-- The loop of `Refill`; `alloc_ k` is what call `k` of `alloc_` returns. -/
def Refill.loop : Nat → TlsCache → TlsCache
  | 0, c => c
  | n + 1, c =>
    let ptr := alloc_ c.allocs
    let c := { c with allocs := c.allocs + 1 }
    if ptr = 0 then c else loop n (c.push_back ptr)

def Refill (c : TlsCache) : TlsCache := Refill.loop alloc_ kBatchSize c

def Flush (c : TlsCache) : TlsCache := { c with cache_ := [], freed := c.freed ++ c.cache_ }

/-- The constructors. -/
def construct : Version → TlsCache
  | .memory => ⟨[], 0, []⟩
  | .legacy_pool => Refill alloc_ ⟨[], 0, []⟩

/-- `none` stands for `back()` and `pop_back()` of an empty vector, which are undefined. -/
def Get (v : Version) (c : TlsCache) : Option (TlsCache × Nat) :=
  let c := if c.cache_ = [] then c.Refill alloc_ else c
  match c.cache_.getLast? with
  | some ptr => some ({ c with cache_ := c.cache_.dropLast }, ptr)
  | none =>
    match v with
    | .memory => none
    | .legacy_pool => some ({ c with allocs := c.allocs + 1 }, alloc_ c.allocs)

def Put (c : TlsCache) (ptr : Nat) : Version → TlsCache
  | .memory =>
    let c := if kBatchSize ≤ c.cache_.length then c.Flush else c
    c.push_back ptr
  | .legacy_pool =>
    let c := c.push_back ptr
    if kBatchSize * 2 ≤ c.cache_.length then c.Flush else c

/-- The destructors; that of the legacy cache destroys the vector and nothing else. -/
def destroy (c : TlsCache) : Version → TlsCache
  | .memory => c.Flush
  | .legacy_pool => { c with cache_ := [] }

end TlsCache

inductive TlsCall
  | Get
  | Put (ptr : Nat)

/-! ## What a refill does -/

namespace TlsCache

variable {alloc_ : Nat → Nat} {v : Version} {c c' : TlsCache}

/-- A refill stops at the first null. -/
structure Refills (alloc_ : Nat → Nat) (c c' : TlsCache) (new : List Nat) : Prop where
  cache_ : c'.cache_ = c.cache_ ++ new
  freed : c'.freed = c.freed
  ne_zero : ∀ ptr ∈ new, ptr ≠ 0
  allocs : c.allocs ≤ c'.allocs

theorem refills_loop (alloc_ : Nat → Nat) (n : Nat) (c : TlsCache) :
    ∃ new, Refills alloc_ c (Refill.loop alloc_ n c) new := by
  induction n generalizing c with
  | zero => exact ⟨[], by simp [Refill.loop], rfl, by simp, Nat.le_refl _⟩
  | succ n ih =>
    rw [Refill.loop]
    by_cases hnull : alloc_ c.allocs = 0
    · rw [if_pos hnull]
      exact ⟨[], by simp, rfl, by simp, Nat.le_succ _⟩
    · rw [if_neg hnull]
      obtain ⟨new, h⟩ := ih ({ c with allocs := c.allocs + 1 }.push_back (alloc_ c.allocs))
      refine ⟨alloc_ c.allocs :: new, ?_, h.freed, ?_, ?_⟩
      · rw [h.cache_]
        simp [push_back]
      · intro ptr hptr
        rcases List.mem_cons.mp hptr with rfl | hptr
        · exact hnull
        · exact h.ne_zero ptr hptr
      · exact Nat.le_of_succ_le h.allocs

/-- When the first call of `alloc_` returns null, the refill does nothing else. -/
theorem refill_of_null (h : alloc_ c.allocs = 0) :
    c.Refill alloc_ = { c with allocs := c.allocs + 1 } := by
  rw [Refill, kBatchSize, Refill.loop, if_pos h]

/-- When it returns a block, the block is in the cache afterwards. -/
theorem refill_ne_nil (h : alloc_ c.allocs ≠ 0) : (c.Refill alloc_).cache_ ≠ [] := by
  rw [Refill, kBatchSize, Refill.loop, if_neg h]
  obtain ⟨new, hnew⟩ := refills_loop alloc_ 15
    ({ c with allocs := c.allocs + 1 }.push_back (alloc_ c.allocs))
  rw [hnew.cache_]
  simp [push_back]

/-- A refill takes a whole batch when no call of `alloc_` returns null. -/
theorem refill_loop_eq (hnull : ∀ k, alloc_ k ≠ 0) (n : Nat) (c : TlsCache) :
    Refill.loop alloc_ n c = { c with
      cache_ := c.cache_ ++ (List.range' c.allocs n).map alloc_
      allocs := c.allocs + n } := by
  induction n generalizing c with
  | zero => simp [Refill.loop]
  | succ n ih =>
    rw [Refill.loop, if_neg (hnull _), ih, List.range'_succ]
    simp only [push_back, List.map_cons, List.append_assoc, List.singleton_append, mk.injEq,
      true_and, and_true]
    omega

end TlsCache

/-! ## Every block is in one place -/

/-- The cache, and the blocks that `Get` has handed out and that were not put back. -/
structure TlsHistory where
  cache : TlsCache
  handed : List Nat

namespace TlsHistory

def start (v : Version) (alloc_ : Nat → Nat) : TlsHistory := ⟨.construct alloc_ v, []⟩

/-- Only blocks that were handed out are put back. -/
def step (v : Version) (alloc_ : Nat → Nat) (s : TlsHistory) : TlsCall → Option TlsHistory
  | .Get =>
    match s.cache.Get alloc_ v with
    | some (c, ptr) => some ⟨c, if ptr = 0 then s.handed else ptr :: s.handed⟩
    | none => none
  | .Put ptr =>
    if ptr ∈ s.handed then some ⟨s.cache.Put ptr v, s.handed.erase ptr⟩ else none

/-- The blocks that `alloc_` has returned. -/
def obtained (alloc_ : Nat → Nat) (s : TlsHistory) : List Nat :=
  (List.range s.cache.allocs).map alloc_

/-- Each block is in the cache, handed out or freed, and in one of them only. -/
def InOnePlace (alloc_ : Nat → Nat) (s : TlsHistory) : Prop :=
  (s.cache.cache_ ++ s.handed ++ s.cache.freed).Perm (s.obtained alloc_)

variable {alloc_ : Nat → Nat} {v : Version} {s s' : TlsHistory}

theorem InOnePlace.refill (hnull : ∀ k, alloc_ k ≠ 0) (h : s.InOnePlace alloc_) :
    InOnePlace alloc_ { s with cache := s.cache.Refill alloc_ } := by
  have hrange : List.range (s.cache.allocs + kBatchSize) =
      List.range s.cache.allocs ++ List.range' s.cache.allocs kBatchSize := by
    rw [List.range_eq_range', List.range_eq_range', ← List.range'_append_1, Nat.zero_add]
  unfold InOnePlace obtained at h ⊢
  simp only [TlsCache.Refill, TlsCache.refill_loop_eq hnull, hrange, List.map_append]
  have hmoved : ∀ a b c d : List Nat, (a ++ b ++ c ++ d).Perm (a ++ c ++ d ++ b) := by
    intro a b c d
    rw [List.perm_iff_count]
    intro x
    simp only [List.count_append]
    omega
  exact (hmoved ..).trans (h.append_right _)

/-- `Get` takes the last block out of the cache. -/
theorem InOnePlace.pop {ptr : Nat} (h : s.InOnePlace alloc_)
    (hlast : s.cache.cache_.getLast? = some ptr) :
    InOnePlace alloc_ ⟨{ s.cache with cache_ := s.cache.cache_.dropLast }, ptr :: s.handed⟩ := by
  have hsplit : s.cache.cache_.dropLast ++ [ptr] = s.cache.cache_ :=
    List.dropLast_append_getLast? ptr hlast
  unfold InOnePlace at h ⊢
  rw [← hsplit] at h
  refine List.Perm.trans ?_ h
  simp

theorem InOnePlace.flush (h : s.InOnePlace alloc_) :
    InOnePlace alloc_ { s with cache := s.cache.Flush } := by
  unfold InOnePlace at h ⊢
  refine List.Perm.trans ?_ h
  rw [List.perm_iff_count]
  intro x
  simp only [TlsCache.Flush, List.nil_append, List.count_append]
  omega

theorem InOnePlace.push_back {ptr : Nat} (h : s.InOnePlace alloc_) (hptr : ptr ∈ s.handed) :
    InOnePlace alloc_ ⟨s.cache.push_back ptr, s.handed.erase ptr⟩ := by
  unfold InOnePlace at h ⊢
  refine List.Perm.trans ?_ h
  simp only [TlsCache.push_back, List.append_assoc]
  refine (List.Perm.refl _).append ?_
  exact ((List.perm_cons_erase hptr).symm.append_right s.cache.freed)

theorem InOnePlace.get (hnull : ∀ k, alloc_ k ≠ 0) (h : s.InOnePlace alloc_)
    (hs : step v alloc_ s .Get = some s') : s'.InOnePlace alloc_ := by
  -- the cache that the block is taken from
  obtain ⟨c, hc, hkept⟩ : ∃ c,
      (if s.cache.cache_ = [] then s.cache.Refill alloc_ else s.cache) = c ∧
      InOnePlace alloc_ { s with cache := c } := by
    refine ⟨_, rfl, ?_⟩
    split_ifs
    · exact h.refill hnull
    · exact h
  simp only [step, TlsCache.Get, hc] at hs
  cases hlast : c.cache_.getLast? with
  | some ptr =>
    have hne : ptr ≠ 0 := by
      have hmem : ptr ∈ obtained alloc_ { s with cache := c } := by
        apply hkept.subset
        simp [List.mem_of_getLast? hlast]
      obtain ⟨k, -, rfl⟩ := List.mem_map.mp hmem
      exact hnull k
    simp only [hlast, if_neg hne] at hs
    cases hs
    exact hkept.pop hlast
  | none =>
    -- a refill has put a block into the cache
    exfalso
    rw [List.getLast?_eq_none_iff] at hlast
    subst hc
    split_ifs at hlast with hempty
    · exact TlsCache.refill_ne_nil (hnull _) hlast
    · exact hempty hlast

theorem InOnePlace.step {call : TlsCall} (hnull : ∀ k, alloc_ k ≠ 0) (h : s.InOnePlace alloc_)
    (hs : TlsHistory.step v alloc_ s call = some s') : s'.InOnePlace alloc_ := by
  cases call with
  | Get => exact h.get hnull hs
  | Put ptr =>
    simp only [TlsHistory.step] at hs
    split_ifs at hs with hptr
    cases hs
    cases v with
    | memory =>
      simp only [TlsCache.Put]
      split_ifs
      · exact h.flush.push_back hptr
      · exact h.push_back hptr
    | legacy_pool =>
      simp only [TlsCache.Put]
      split_ifs
      · exact (h.push_back hptr).flush
      · exact h.push_back hptr

theorem inOnePlace_start (v : Version) (hnull : ∀ k, alloc_ k ≠ 0) :
    (start v alloc_).InOnePlace alloc_ := by
  have hempty : InOnePlace alloc_ ⟨⟨[], 0, []⟩, []⟩ := List.Perm.refl _
  cases v with
  | memory => exact hempty
  | legacy_pool => exact hempty.refill hnull

/-- Every block that is not handed out has been freed once. -/
def FreedOnce (alloc_ : Nat → Nat) (s : TlsHistory) : Prop :=
  ∀ b ∈ s.obtained alloc_, b ∉ s.handed → s.cache.freed.count b = 1

/-- In every history of a cache each block is in the cache, handed out or freed, once. After the
destruction the blocks that are not handed out have been freed once, if and only if the
destructor flushes, or the cache was empty. -/
theorem blocks_are_in_one_place_and_freed_once_iff (hinj : Function.Injective alloc_)
    (hnull : ∀ k, alloc_ k ≠ 0) {calls : List TlsCall}
    (hr : run (step v alloc_) (start v alloc_) calls = some s) :
    (s.InOnePlace alloc_ ∧ (s.obtained alloc_).Nodup) ∧
      (FreedOnce alloc_ { s with cache := s.cache.destroy v } ↔
        v = .memory ∨ s.cache.cache_ = []) := by
  have hkept : s.InOnePlace alloc_ :=
    invariant_of_run (fun _ _ _ h hs => InOnePlace.step hnull h hs) (inOnePlace_start v hnull) hr
  have hnodup : (s.obtained alloc_).Nodup := List.nodup_range.map hinj
  refine ⟨⟨hkept, hnodup⟩, ?_⟩
  have hone : ∀ b ∈ s.obtained alloc_, b ∉ s.handed →
      s.cache.cache_.count b + s.cache.freed.count b = 1 := by
    intro b hb hout
    have hcount := hkept.count_eq b
    rw [List.count_eq_one_of_mem hnodup hb, List.count_append, List.count_append,
      List.count_eq_zero.mpr hout] at hcount
    omega
  cases v with
  | memory =>
    refine iff_of_true ?_ (Or.inl rfl)
    intro b hb hout
    have hsum := hone b hb hout
    simp only [TlsCache.destroy, TlsCache.Flush, List.count_append]
    omega
  | legacy_pool =>
    simp only [reduceCtorEq, false_or]
    constructor
    · intro hfreed
      rw [List.eq_nil_iff_forall_not_mem]
      intro b hb
      have hmem : b ∈ s.obtained alloc_ := hkept.subset (by simp [hb])
      have hpos : 0 < s.cache.cache_.count b := List.count_pos_iff.mpr hb
      have hout : b ∉ s.handed := by
        intro hin
        have hcount := hkept.count_eq b
        have hin' : 0 < s.handed.count b := List.count_pos_iff.mpr hin
        rw [List.count_eq_one_of_mem hnodup hmem, List.count_append, List.count_append] at hcount
        omega
      have hsum := hone b hmem hout
      have honce : s.cache.freed.count b = 1 := hfreed b hmem hout
      omega
    · intro hempty b hb hout
      have hsum := hone b hb hout
      rw [hempty, List.count_nil, Nat.zero_add] at hsum
      exact hsum

/-- One block is taken and put back. -/
theorem one_block_is_freed_once : ∃ s, run (step .memory (· + 1)) (start .memory (· + 1))
    [.Get, .Put 16] = some s ∧
    FreedOnce (· + 1) { s with cache := s.cache.destroy .memory } := by
  have hsome : (run (step .memory (· + 1)) (start .memory (· + 1)) [.Get, .Put 16]).isSome := by
    decide
  obtain ⟨s, hs⟩ := Option.isSome_iff_exists.mp hsome
  exact ⟨s, hs, (blocks_are_in_one_place_and_freed_once_iff (add_left_injective 1)
    (fun k => Nat.succ_ne_zero k) hs).2.mpr (Or.inl rfl)⟩

/-- A legacy cache that is destroyed at once has taken a batch of blocks and frees none. -/
theorem a_batch_is_not_freed :
    ((start .legacy_pool (· + 1)).cache.destroy .legacy_pool).freed = [] ∧
    1 ∈ (start .legacy_pool (· + 1)).obtained (· + 1) ∧ (start .legacy_pool (· + 1)).handed = [] ∧
    ¬ FreedOnce (· + 1) { start .legacy_pool (· + 1) with
      cache := (start .legacy_pool (· + 1)).cache.destroy .legacy_pool } := by
  refine ⟨by decide, by decide, by decide, ?_⟩
  intro h
  have hcount := h 1 (by decide) (by decide)
  revert hcount
  decide

end TlsHistory

/-! ## What `Get` returns -/

namespace TlsCache

/-- A call with any pointer. -/
def call (v : Version) (alloc_ : Nat → Nat) (c : TlsCache) : TlsCall → Option TlsCache
  | .Get => (c.Get alloc_ v).map Prod.fst
  | .Put ptr => some (c.Put ptr v)

/-- `Get` takes no element of an empty vector, and returns null only when the cache was empty and a
call of `alloc_` returned null during the call. -/
def GetIsRight (v : Version) (alloc_ : Nat → Nat) (c : TlsCache) : Prop :=
  ∃ c' ptr, c.Get alloc_ v = some (c', ptr) ∧
    (ptr = 0 → c.cache_ = [] ∧ ∃ k, c.allocs ≤ k ∧ k < c'.allocs ∧ alloc_ k = 0)

/-- No null stays in the cache: `Put` gets none, or the legacy cache flushes it at once. -/
def PutsNoNull (v : Version) (c : TlsCache) : TlsCall → Prop
  | .Get => True
  | .Put ptr => ptr ≠ 0 ∨ (v = .legacy_pool ∧ kBatchSize * 2 ≤ c.cache_.length + 1)

instance (v : Version) (c : TlsCache) : ∀ call, Decidable (PutsNoNull v c call)
  | .Get => isTrue trivial
  | .Put ptr =>
    inferInstanceAs (Decidable (ptr ≠ 0 ∨
      (v = .legacy_pool ∧ kBatchSize * 2 ≤ c.cache_.length + 1)))

variable {alloc_ : Nat → Nat} {v : Version} {c c' : TlsCache}

def NoNull (c : TlsCache) : Prop := ∀ ptr ∈ c.cache_, ptr ≠ 0

theorem NoNull.refill (h : c.NoNull) : (c.Refill alloc_).NoNull := by
  obtain ⟨new, hnew⟩ := refills_loop alloc_ kBatchSize c
  intro ptr hptr
  rw [Refill, hnew.cache_] at hptr
  rcases List.mem_append.mp hptr with hptr | hptr
  · exact h ptr hptr
  · exact hnew.ne_zero ptr hptr

theorem noNull_construct (v : Version) (alloc_ : Nat → Nat) : (construct alloc_ v).NoNull := by
  have hempty : NoNull ⟨[], 0, []⟩ := fun _ h => absurd h List.not_mem_nil
  cases v with
  | memory => exact hempty
  | legacy_pool => exact hempty.refill

theorem NoNull.push_back {ptr : Nat} (h : c.NoNull) (hptr : ptr ≠ 0) :
    (c.push_back ptr).NoNull := by
  intro x hx
  rcases List.mem_append.mp hx with hx | hx
  · exact h x hx
  · rw [List.mem_singleton.mp hx]
    exact hptr

theorem noNull_flush (c : TlsCache) : c.Flush.NoNull := fun _ h => absurd h List.not_mem_nil

theorem NoNull.call {a : TlsCall} (h : c.NoNull) (hok : PutsNoNull v c a)
    (hs : c.call v alloc_ a = some c') : c'.NoNull := by
  cases a with
  | Get =>
    obtain ⟨⟨c₁, ptr⟩, hget, rfl⟩ := Option.map_eq_some_iff.mp hs
    have hfilled : NoNull (if c.cache_ = [] then c.Refill alloc_ else c) := by
      split_ifs
      · exact h.refill
      · exact h
    simp only [Get] at hget
    cases hlast : (if c.cache_ = [] then c.Refill alloc_ else c).cache_.getLast? with
    | some last =>
      rw [hlast] at hget
      cases hget
      exact fun x hx => hfilled x (List.dropLast_subset _ hx)
    | none =>
      rw [hlast] at hget
      cases v with
      | memory => cases hget
      | legacy_pool =>
        cases hget
        exact hfilled
  | Put ptr =>
    cases hs
    cases v with
    | memory =>
      have hptr : ptr ≠ 0 := hok.resolve_right (fun hl => by cases hl.1)
      simp only [Put]
      split_ifs
      · exact c.noNull_flush.push_back hptr
      · exact h.push_back hptr
    | legacy_pool =>
      simp only [Put]
      split_ifs with hfull
      · exact noNull_flush _
      · refine h.push_back (hok.resolve_right ?_)
        rintro ⟨-, hlarge⟩
        exact hfull (by simpa [TlsCache.push_back] using hlarge)

/-- A `Get` from a cache with a block in it returns a block. -/
theorem NoNull.getIsRight_of_ne_nil (h : c.NoNull) (hne : c.cache_ ≠ []) :
    GetIsRight v alloc_ c := by
  cases hlast : c.cache_.getLast? with
  | none => exact absurd (List.getLast?_eq_none_iff.mp hlast) hne
  | some ptr =>
    refine ⟨{ c with cache_ := c.cache_.dropLast }, ptr, ?_, ?_⟩
    · simp only [Get, if_neg hne, hlast]
    · intro hnull
      exact absurd hnull (h ptr (List.mem_of_getLast? hlast))

/-- A `Get` from an empty cache whose refill gets a block returns a block. -/
theorem NoNull.getIsRight_of_refill (h : c.NoNull) (hempty : c.cache_ = [])
    (hblock : alloc_ c.allocs ≠ 0) : GetIsRight v alloc_ c := by
  cases hlast : (c.Refill alloc_).cache_.getLast? with
  | none => exact absurd (List.getLast?_eq_none_iff.mp hlast) (refill_ne_nil hblock)
  | some ptr =>
    refine ⟨{ c.Refill alloc_ with cache_ := (c.Refill alloc_).cache_.dropLast }, ptr, ?_, ?_⟩
    · simp only [Get, if_pos hempty, hlast]
    · intro hnull
      exact absurd hnull (h.refill ptr (List.mem_of_getLast? hlast))

/-- In every history in which no null stays in the cache, a `Get` is right if and only if it does
not ask the `sci::memory` cache for a block when it is empty and `alloc_` returns null. -/
theorem Get_is_right_iff {calls : List TlsCall}
    (hm : Meets (call v alloc_) (PutsNoNull v) (construct alloc_ v) calls)
    (hr : run (call v alloc_) (construct alloc_ v) calls = some c) :
    GetIsRight v alloc_ c ↔ (v = .memory → c.cache_ = [] → alloc_ c.allocs ≠ 0) := by
  have hnull : c.NoNull :=
    invariant_of_meets (fun _ _ _ h hok hs => NoNull.call h hok hs) (noNull_construct v alloc_) hm
      hr
  by_cases hempty : c.cache_ = []
  · by_cases hblock : alloc_ c.allocs = 0
    · have hfilled := refill_of_null hblock
      cases v with
      | memory =>
        refine iff_of_false ?_ (fun h => h rfl hempty hblock)
        rintro ⟨c', ptr, hget, -⟩
        simp only [Get, hfilled, hempty, if_true, List.getLast?_nil] at hget
        cases hget
      | legacy_pool =>
        refine iff_of_true ?_ (fun h => by cases h)
        refine ⟨{ c with allocs := c.allocs + 1 + 1 }, alloc_ (c.allocs + 1), ?_, ?_⟩
        · simp only [Get, hfilled, hempty, if_true, List.getLast?_nil]
        · exact fun _ => ⟨hempty, c.allocs, Nat.le_refl _, by simp only; omega, hblock⟩
    · exact iff_of_true (hnull.getIsRight_of_refill hempty hblock) (fun _ _ => hblock)
  · exact iff_of_true (hnull.getIsRight_of_ne_nil hempty) (fun _ h => absurd h hempty)

/-- A null that stays in the cache is returned by the next `Get`, though the cache is not empty. -/
theorem a_null_that_is_put_is_returned (c : TlsCache) {ptr : Nat}
    (hput : ¬ PutsNoNull v c (.Put ptr)) :
    (c.Put ptr v).cache_ ≠ [] ∧ ∃ c', (c.Put ptr v).Get alloc_ v = some (c', 0) := by
  obtain ⟨rfl, hflush⟩ : ptr = 0 ∧ ¬ (v = .legacy_pool ∧ kBatchSize * 2 ≤ c.cache_.length + 1) := by
    simpa [PutsNoNull, not_or] using hput
  obtain ⟨rest, hrest⟩ : ∃ rest, (c.Put 0 v).cache_ = rest ++ [0] := by
    cases v with
    | memory =>
      simp only [Put]
      split_ifs
      · exact ⟨[], rfl⟩
      · exact ⟨c.cache_, rfl⟩
    | legacy_pool =>
      have hroom : ¬ kBatchSize * 2 ≤ (c.push_back 0).cache_.length := by
        simpa [TlsCache.push_back] using hflush
      simp only [Put, if_neg hroom]
      exact ⟨c.cache_, rfl⟩
  have hne : (c.Put 0 v).cache_ ≠ [] := by simp [hrest]
  refine ⟨hne, { c.Put 0 v with cache_ := (c.Put 0 v).cache_.dropLast }, ?_⟩
  have hlast : (c.Put 0 v).cache_.getLast? = some 0 := by simp [hrest]
  simp only [Get, if_neg hne, hlast]

/-- `alloc_` runs out of blocks after the third one. -/
def threeBlocks (k : Nat) : Nat := if k < 3 then k + 1 else 0

theorem three_blocks_are_got : ∃ c, run (call .memory threeBlocks) (construct threeBlocks .memory)
    [.Get, .Get, .Put 3] = some c ∧ GetIsRight .memory threeBlocks c := by
  obtain ⟨c, hc, hne⟩ : ∃ c, run (call .memory threeBlocks) (construct threeBlocks .memory)
      [.Get, .Get, .Put 3] = some c ∧ c.cache_ ≠ [] := exists_of_any (by decide)
  exact ⟨c, hc, (Get_is_right_iff (by decide) hc).mpr fun _ h => absurd h hne⟩

/-- The fourth `Get` takes the last element of an empty vector. -/
theorem the_fourth_Get_is_undefined : ∃ c, run (call .memory threeBlocks)
    (construct threeBlocks .memory) [.Get, .Get, .Get] = some c ∧
    c.Get threeBlocks .memory = none ∧ ¬ GetIsRight .memory threeBlocks c := by
  obtain ⟨c, hc, hnone⟩ : ∃ c, run (call .memory threeBlocks) (construct threeBlocks .memory)
      [.Get, .Get, .Get] = some c ∧ (c.Get threeBlocks .memory).isNone = true :=
    exists_of_any (by decide)
  rw [Option.isNone_iff_eq_none] at hnone
  refine ⟨c, hc, hnone, ?_⟩
  rintro ⟨c', ptr, hget, -⟩
  rw [hnone] at hget
  cases hget

end TlsCache

end sci.pools
