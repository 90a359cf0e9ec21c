-- Thread-local caches on one pool (include/memory/memory_pool.hpp): `TlsCache` objects whose
-- `alloc_` and `free_` are `Allocate` and `Deallocate` of a `FixedSizeMemoryPool`. Each thread has
-- its cache, and the threads take turns between their calls of the pool.
import Scicompute.Holding
import Scicompute.MemoryPoolHistory
import Scicompute.TlsCache

open Word Transition Holding LinkedStack FreeList

namespace sci.pools

/-- Where a thread stands in a member of its cache: in the loop of `Refill`, with some turns left,
at `cache_.back()`, or in the loop of `Flush`, which `Put` calls with a pointer and the destructor
without. -/
inductive TlsPc
  | idle
  | refill (left : Nat)
  | back
  | flush (i : Nat) (ptr : Option Nat)
  | destroyed
  deriving DecidableEq

/-- `handed` lists the blocks that `Get` has handed out and that were not put back. -/
structure CachedPool (τ : Type*) where
  history : PoolHistory
  cache_ : τ → List Nat
  pc : τ → TlsPc
  handed : List Nat

inductive CachedCall (τ : Type*)
  | Get (t : τ)
  | Put (t : τ) (ptr : Nat)
  /-- The thread enters the destructor. -/
  | destroy (t : τ)
  /-- The next step of the thread; `page` is what `operator new[]` returns in it. -/
  | next (t : τ) (page : Nat)
  /-- A user writes the first word of a block that it was handed. -/
  | use (ptr value : Nat)

variable {τ : Type*} [DecidableEq τ]

namespace CachedPool

def start (block_size blocks_per_chunk page : Nat) (junk : Nat → Nat) : CachedPool τ where
  history := .start .memory block_size blocks_per_chunk page junk
  cache_ _ := []
  pc _ := .idle
  handed := []

/-- The thread goes to `pc` with these elements in its cache. -/
def goto (s : CachedPool τ) (t : τ) (cache : List Nat) (pc : TlsPc) : CachedPool τ :=
  { s with cache_ := Function.update s.cache_ t cache, pc := Function.update s.pc t pc }

/-- The next step of a thread. -/
def next (s : CachedPool τ) (t : τ) (page : Nat) : TlsPc → Option (CachedPool τ)
  | .idle => none
  | .refill 0 => some (s.goto t (s.cache_ t) .back)
  | .refill (n + 1) =>
    match s.history.step .memory (.Allocate page) with
    | none => none
    | some history =>
      let ptr := (s.history.pool.Allocate .memory page).2
      if ptr = 0 then some { s.goto t (s.cache_ t) .back with history := history }
      else some { s.goto t (s.cache_ t ++ [ptr]) (.refill n) with history := history }
  | .back =>
    match (s.cache_ t).getLast? with
    | none => none
    | some ptr =>
      some { s.goto t (s.cache_ t).dropLast .idle with handed := ptr :: s.handed }
  | .flush i ptr =>
    match (s.cache_ t)[i]? with
    | some x =>
      match s.history.step .memory (.Deallocate x) with
      | none => none
      | some history => some { s.goto t (s.cache_ t) (.flush (i + 1) ptr) with history := history }
    | none =>
      match ptr with
      | some ptr => some (s.goto t [ptr] .idle)
      | none => some (s.goto t [] .destroyed)
  | .destroyed => none

/-- Only blocks that were handed out are put back and written. -/
def step (s : CachedPool τ) : CachedCall τ → Option (CachedPool τ)
  | .Get t =>
    if s.pc t = .idle then
      some (s.goto t (s.cache_ t) (if s.cache_ t = [] then .refill kBatchSize else .back))
    else none
  | .Put t ptr =>
    if s.pc t = .idle ∧ ptr ∈ s.handed then
      if kBatchSize ≤ (s.cache_ t).length then
        some { s.goto t (s.cache_ t) (.flush 0 (some ptr)) with handed := s.handed.erase ptr }
      else some { s.goto t (s.cache_ t ++ [ptr]) .idle with handed := s.handed.erase ptr }
    else none
  | .destroy t => if s.pc t = .idle then some (s.goto t (s.cache_ t) (.flush 0 none)) else none
  | .next t page => s.next t page (s.pc t)
  | .use ptr value =>
    if ptr ∈ s.handed then
      match s.history.step .memory (.use ptr value) with
      | none => none
      | some history => some { s with history := history }
    else none

/-! ## Who has a block -/

inductive Place (τ : Type*)
  | cache (t : τ)
  /-- The argument of a `Put` that flushes its cache. -/
  | argument (t : τ)
  | user

/-- A flush has freed the elements before `i`. -/
def inCache (cache : List Nat) : TlsPc → List Nat
  | .flush i _ => cache.drop i
  | _ => cache

def underWay : TlsPc → List Nat
  | .flush _ (some ptr) => [ptr]
  | _ => []

def holds (s : CachedPool τ) : Place τ → List Nat
  | .cache t => inCache (s.cache_ t) (s.pc t)
  | .argument t => underWay (s.pc t)
  | .user => s.handed

/-- What a thread knows of its cache. -/
def CacheOk (cache : List Nat) : TlsPc → Prop
  | .refill left => cache.length + left = kBatchSize
  | .back => cache ≠ [] ∧ cache.length ≤ kBatchSize
  | .destroyed => cache = []
  | _ => cache.length ≤ kBatchSize

/-- The blocks that have left the pool are with the caches and the users, each in one place. -/
structure Inv (block_size : Nat) (s : CachedPool τ) : Prop where
  kept : s.history.Kept block_size
  apart : Apart s.holds
  live : ∀ x, x ∈ s.history.live ↔ ∃ k, x ∈ s.holds k
  cache : ∀ t, CacheOk (s.cache_ t) (s.pc t)

variable {block_size page : Nat} {s s' : CachedPool τ} {t : τ}

theorem holds_goto_cache (s : CachedPool τ) (t : τ) (cache : List Nat) (pc : TlsPc) :
    (s.goto t cache pc).holds (.cache t) = inCache cache pc := by
  simp [holds, goto]

theorem holds_goto_argument (s : CachedPool τ) (t : τ) (cache : List Nat) (pc : TlsPc) :
    (s.goto t cache pc).holds (.argument t) = underWay pc := by
  simp [holds, goto]

/-- The other threads have what they had. -/
theorem holds_goto_other (s : CachedPool τ) (t : τ) (cache : List Nat) (pc : TlsPc) {k : Place τ}
    (hcache : k ≠ .cache t) (hargument : k ≠ .argument t) :
    (s.goto t cache pc).holds k = s.holds k := by
  cases k with
  | cache u =>
    have hu : u ≠ t := fun he => hcache (he ▸ rfl)
    simp [holds, goto, hu]
  | argument u =>
    have hu : u ≠ t := fun he => hargument (he ▸ rfl)
    simp [holds, goto, hu]
  | user => rfl

theorem cacheOk_goto (h : ∀ u, CacheOk (s.cache_ u) (s.pc u)) {cache : List Nat} {pc : TlsPc}
    (hok : CacheOk cache pc) (u : τ) :
    CacheOk ((s.goto t cache pc).cache_ u) ((s.goto t cache pc).pc u) := by
  by_cases hu : u = t
  · subst hu
    simpa [goto] using hok
  · simpa [goto, hu] using h u

/-- A step after which the thread has the same blocks. -/
theorem Inv.stay (h : s.Inv block_size) {cache : List Nat} {pc : TlsPc}
    (hcache : inCache cache pc = s.holds (.cache t))
    (hargument : underWay pc = s.holds (.argument t))
    (hok : CacheOk cache pc) : (s.goto t cache pc).Inv block_size := by
  have hsame : (s.goto t cache pc).holds = s.holds := by
    funext k
    by_cases hc : k = .cache t
    · rw [hc, holds_goto_cache, hcache]
    · by_cases ha : k = .argument t
      · rw [ha, holds_goto_argument, hargument]
      · exact holds_goto_other s t cache pc hc ha
  refine ⟨h.kept, hsame ▸ h.apart, ?_, cacheOk_goto h.cache hok⟩
  intro x
  rw [hsame]
  exact h.live x

/-- A block of the pool comes into the cache. -/
theorem Inv.refill (h : s.Inv block_size) {n : Nat} (hpc : s.pc t = .refill (n + 1))
    {history : PoolHistory} (hstep : s.history.step .memory (.Allocate page) = some history) :
    (s.history.pool.Allocate .memory page).2 ≠ 0 ∧
      Inv block_size { s.goto t (s.cache_ t ++ [(s.history.pool.Allocate .memory page).2])
        (.refill n) with history := history } := by
  obtain ⟨hallocates, hkept⟩ := h.kept.allocate hstep
  have hne : (s.history.pool.Allocate .memory page).2 ≠ 0 := by
    intro h0
    cases (hallocates.null h0).2.1
  obtain ⟨hnew, -, hlive⟩ := hallocates.block hne
  generalize (s.history.pool.Allocate .memory page).2 = ptr at *
  let s' : CachedPool τ :=
    { s.goto t (s.cache_ t ++ [ptr]) (.refill n) with history := history }
  have hin : (s'.holds (.cache t)).Perm (ptr :: s.holds (.cache t)) := by
    have hafter : s'.holds (.cache t) = s.cache_ t ++ [ptr] := holds_goto_cache ..
    have hbefore : s.holds (.cache t) = s.cache_ t := by simp [holds, hpc, inCache]
    rw [hafter, hbefore]
    exact List.perm_append_singleton _ _
  have hother : ∀ k, k ≠ .cache t → s'.holds k = s.holds k := by
    intro k hk
    by_cases ha : k = .argument t
    · have hafter : s'.holds (.argument t) = [] := holds_goto_argument s t (s.cache_ t ++ [ptr]) _
      rw [ha, hafter]
      simp [holds, hpc, underWay]
    · exact holds_goto_other s t _ _ hk ha
  refine ⟨hne, hkept, ?_, ?_, ?_⟩
  · refine h.apart.add (a := .cache t) (x := ptr) ?_ hin hother
    exact fun k hk => hnew ((h.live ptr).mpr ⟨k, hk⟩)
  · intro x
    rw [show ({ s.goto t (s.cache_ t ++ [ptr]) (.refill n) with history := history } :
      CachedPool τ).holds = s'.holds from rfl, exists_mem_add hin hother, ← h.live]
    change x ∈ history.live ↔ _
    rw [hlive, List.mem_cons]
  · apply cacheOk_goto h.cache
    have hok := h.cache t
    rw [hpc] at hok
    simp only [CacheOk, List.length_append, List.length_singleton] at hok ⊢
    omega

/-- `Get` hands out the last block of the cache. -/
theorem Inv.handOut (h : s.Inv block_size) (hpc : s.pc t = .back) {ptr : Nat}
    (hlast : (s.cache_ t).getLast? = some ptr) :
    Inv block_size { s.goto t (s.cache_ t).dropLast .idle with handed := ptr :: s.handed } := by
  let s' : CachedPool τ := { s.goto t (s.cache_ t).dropLast .idle with handed := ptr :: s.handed }
  have hbefore : s.holds (.cache t) = s.cache_ t := by simp [holds, hpc, inCache]
  have hafter : s'.holds (.cache t) = (s.cache_ t).dropLast := holds_goto_cache ..
  have hout : (s.holds (.cache t)).Perm (ptr :: s'.holds (.cache t)) := by
    rw [hbefore, hafter]
    conv_lhs => rw [← List.dropLast_append_getLast? ptr hlast]
    exact List.perm_append_singleton _ _
  have hin : (s'.holds .user).Perm (ptr :: s.holds .user) := List.Perm.refl _
  have hother : ∀ k, k ≠ .cache t → k ≠ .user → s'.holds k = s.holds k := by
    intro k hk hu
    by_cases ha : k = .argument t
    · have hnone : s'.holds (.argument t) = [] := holds_goto_argument s t (s.cache_ t).dropLast _
      rw [ha, hnone]
      simp [holds, hpc, underWay]
    · cases k with
      | user => exact absurd rfl hu
      | _ => exact holds_goto_other s t (s.cache_ t).dropLast .idle hk ha
  refine ⟨h.kept, h.apart.move (by simp) hout hin hother, ?_, ?_⟩
  · intro x
    exact (h.live x).trans (exists_mem_move (by simp) hout hin hother x).symm
  · apply cacheOk_goto h.cache
    have hok := h.cache t
    rw [hpc] at hok
    simp only [CacheOk, List.length_dropLast] at hok ⊢
    omega

/-- `Put` takes the block of a user, into the cache or as the argument of a flush. -/
theorem Inv.takeIn (h : s.Inv block_size) (hpc : s.pc t = .idle) {ptr : Nat}
    (hptr : ptr ∈ s.handed) {cache : List Nat} {pc : TlsPc} (hok : CacheOk cache pc)
    (hmoved : (inCache cache pc).Perm (ptr :: s.cache_ t) ∧ underWay pc = [] ∨
      inCache cache pc = s.cache_ t ∧ underWay pc = [ptr]) :
    Inv block_size { s.goto t cache pc with handed := s.handed.erase ptr } := by
  let s' : CachedPool τ := { s.goto t cache pc with handed := s.handed.erase ptr }
  have hcache : s.holds (.cache t) = s.cache_ t := by simp [holds, hpc, inCache]
  have hargument : s.holds (.argument t) = [] := by simp [holds, hpc, underWay]
  have hcache' : s'.holds (.cache t) = inCache cache pc := holds_goto_cache ..
  have hargument' : s'.holds (.argument t) = underWay pc := holds_goto_argument s t cache pc
  have hout : (s.holds .user).Perm (ptr :: s'.holds .user) := List.perm_cons_erase hptr
  have hrest : ∀ k, k ≠ .user → k ≠ .cache t → k ≠ .argument t → s'.holds k = s.holds k := by
    intro k hu hc ha
    cases k with
    | user => exact absurd rfl hu
    | _ => exact holds_goto_other s t cache pc hc ha
  obtain ⟨b, hb, hin, hother⟩ : ∃ b, Place.user ≠ b ∧ (s'.holds b).Perm (ptr :: s.holds b) ∧
      ∀ k, k ≠ .user → k ≠ b → s'.holds k = s.holds k := by
    rcases hmoved with ⟨hin, hnone⟩ | ⟨hsame, hone⟩
    · refine ⟨.cache t, by simp, by rw [hcache', hcache]; exact hin, ?_⟩
      intro k hu hc
      by_cases ha : k = .argument t
      · rw [ha, hargument', hnone, hargument]
      · exact hrest k hu hc ha
    · refine ⟨.argument t, by simp, by rw [hargument', hone, hargument], ?_⟩
      intro k hu ha
      by_cases hc : k = .cache t
      · rw [hc, hcache', hsame, hcache]
      · exact hrest k hu hc ha
  refine ⟨h.kept, h.apart.move hb hout hin hother, ?_, cacheOk_goto h.cache hok⟩
  intro x
  exact (h.live x).trans (exists_mem_move hb hout hin hother x).symm

/-- A flush gives an element of the cache back to the pool. -/
theorem Inv.flush (h : s.Inv block_size) {i : Nat} {ptr : Option Nat}
    (hpc : s.pc t = .flush i ptr) {x : Nat} (hx : (s.cache_ t)[i]? = some x) :
    x ∈ s.history.live ∧ Inv block_size { s.goto t (s.cache_ t) (.flush (i + 1) ptr) with
      history := { s.history with
        pool := s.history.pool.Deallocate .memory x, live := s.history.live.erase x } } := by
  have hdrop : (s.cache_ t).drop i = x :: (s.cache_ t).drop (i + 1) := by
    obtain ⟨hi, rfl⟩ := List.getElem?_eq_some_iff.mp hx
    exact List.drop_eq_getElem_cons hi
  have hlive : x ∈ s.history.live := by
    refine (h.live x).mpr ⟨.cache t, ?_⟩
    rw [holds, hpc, inCache, hdrop]
    exact List.mem_cons_self ..
  let s' : CachedPool τ := { s.goto t (s.cache_ t) (.flush (i + 1) ptr) with
    history := { s.history with
      pool := s.history.pool.Deallocate .memory x, live := s.history.live.erase x } }
  have hout : (s.holds (.cache t)).Perm (x :: s'.holds (.cache t)) := by
    have hafter : s'.holds (.cache t) = (s.cache_ t).drop (i + 1) := holds_goto_cache ..
    rw [hafter, holds, hpc, inCache, hdrop]
  have hother : ∀ k, k ≠ .cache t → s'.holds k = s.holds k := by
    intro k hk
    by_cases ha : k = .argument t
    · have hafter : s'.holds (.argument t) = underWay (.flush (i + 1) ptr) :=
        holds_goto_argument s t (s.cache_ t) _
      rw [ha, hafter, holds, hpc]
      cases ptr <;> rfl
    · exact holds_goto_other s t _ _ hk ha
  obtain ⟨hapart, hmem⟩ := h.apart.giveUp hout hother
  refine ⟨hlive, h.kept.deallocate hlive, hapart, ?_, ?_⟩
  · intro y
    change y ∈ s.history.live.erase x ↔ ∃ k, y ∈ s'.holds k
    rw [hmem y, ← h.live y, h.kept.nodup.mem_erase_iff]
  · apply cacheOk_goto h.cache
    have hok := h.cache t
    rw [hpc] at hok
    exact hok

/-- `Put` goes on after its flush. -/
theorem Inv.putBack (h : s.Inv block_size) {i ptr : Nat} (hpc : s.pc t = .flush i (some ptr))
    (hnone : (s.cache_ t).drop i = []) : (s.goto t [ptr] .idle).Inv block_size := by
  have hcache : s.holds (.cache t) = [] := by rw [holds, hpc, inCache, hnone]
  have hargument : s.holds (.argument t) = [ptr] := by simp [holds, hpc, underWay]
  have hcache' := holds_goto_cache s t [ptr] .idle
  have hargument' := holds_goto_argument s t [ptr] .idle
  have hout : (s.holds (.argument t)).Perm (ptr :: (s.goto t [ptr] .idle).holds (.argument t)) := by
    rw [hargument, hargument']
    exact List.Perm.refl [ptr]
  have hin : ((s.goto t [ptr] .idle).holds (.cache t)).Perm (ptr :: s.holds (.cache t)) := by
    rw [hcache, hcache']
    exact List.Perm.refl [ptr]
  have hother : ∀ k, k ≠ .argument t → k ≠ .cache t →
      (s.goto t [ptr] .idle).holds k = s.holds k :=
    fun k ha hc => holds_goto_other s t [ptr] .idle hc ha
  have hone : CacheOk [ptr] .idle := Nat.succ_le_of_lt (Nat.succ_pos 15)
  refine ⟨h.kept, h.apart.move (by simp) hout hin hother, ?_, cacheOk_goto h.cache hone⟩
  intro x
  exact (h.live x).trans (exists_mem_move (by simp) hout hin hother x).symm

omit [DecidableEq τ] in
/-- A user writes to a block that it was handed. -/
theorem Inv.use (h : s.Inv block_size) {ptr : Nat} (hptr : ptr ∈ s.handed) (value : Nat) :
    Inv block_size { s with history := { s.history with
      pool := { s.history.pool with
        next := Function.update s.history.pool.next ptr value } } } :=
  ⟨h.kept.use ((h.live ptr).mpr ⟨.user, hptr⟩) value, h.apart, h.live, h.cache⟩

/-- The next step of a thread keeps the invariant. -/
theorem Inv.next (h : s.Inv block_size) (hs : s.next t page (s.pc t) = some s') :
    s'.Inv block_size := by
  have hok := h.cache t
  cases hpc : s.pc t with
  | idle =>
    rw [hpc] at hs
    cases hs
  | refill left =>
    rw [hpc] at hs hok
    cases left with
    | zero =>
      cases hs
      have hlength : (s.cache_ t).length = kBatchSize := hok
      refine h.stay (by simp [holds, hpc, inCache]) (by simp [holds, hpc, underWay]) ⟨?_, ?_⟩
      · rintro hnil
        rw [hnil] at hlength
        cases hlength
      · exact hlength.le
    | succ n =>
      simp only [CachedPool.next] at hs
      split at hs
      · cases hs
      · rename_i history hstep
        obtain ⟨hne, hinv⟩ := h.refill hpc hstep
        rw [if_neg hne] at hs
        cases hs
        exact hinv
  | back =>
    rw [hpc] at hs
    simp only [CachedPool.next] at hs
    split at hs
    · cases hs
    · rename_i ptr hlast
      cases hs
      exact h.handOut hpc hlast
  | flush i ptr =>
    rw [hpc] at hs hok
    simp only [CachedPool.next] at hs
    split at hs
    · rename_i x hx
      obtain ⟨hlive, hinv⟩ := h.flush hpc hx
      rw [PoolHistory.step, if_pos hlive] at hs
      cases hs
      exact hinv
    · rename_i hx
      -- every element has been freed
      have hnone : (s.cache_ t).drop i = [] :=
        List.drop_eq_nil_of_le (List.getElem?_eq_none_iff.mp hx)
      cases ptr with
      | none =>
        cases hs
        refine h.stay ?_ (by simp [holds, hpc, underWay]) rfl
        rw [holds, hpc, inCache, hnone]
        rfl
      | some ptr =>
        cases hs
        exact h.putBack hpc hnone
  | destroyed =>
    rw [hpc] at hs
    cases hs

theorem Inv.step {c : CachedCall τ} (h : s.Inv block_size) (hs : s.step c = some s') :
    s'.Inv block_size := by
  cases c with
  | Get t =>
    simp only [CachedPool.step] at hs
    split_ifs at hs with hpc hempty
    · cases hs
      refine h.stay (by simp [holds, hpc, inCache]) (by simp [holds, hpc, underWay]) ?_
      simp [CacheOk, hempty]
    · cases hs
      have hok := h.cache t
      rw [hpc] at hok
      exact h.stay (by simp [holds, hpc, inCache]) (by simp [holds, hpc, underWay]) ⟨hempty, hok⟩
  | Put t ptr =>
    simp only [CachedPool.step] at hs
    split_ifs at hs with hput hfull
    · cases hs
      have hok := h.cache t
      rw [hput.1] at hok
      exact h.takeIn hput.1 hput.2 hok (Or.inr ⟨rfl, rfl⟩)
    · cases hs
      refine h.takeIn hput.1 hput.2 ?_ (Or.inl ⟨List.perm_append_singleton _ _, rfl⟩)
      simp only [CacheOk, List.length_append, List.length_singleton]
      omega
  | destroy t =>
    simp only [CachedPool.step] at hs
    split_ifs at hs with hpc
    cases hs
    have hok := h.cache t
    rw [hpc] at hok
    exact h.stay (by simp [holds, hpc, inCache]) (by simp [holds, hpc, underWay]) hok
  | next t page => exact h.next hs
  | use ptr value =>
    simp only [CachedPool.step] at hs
    split_ifs at hs with hptr
    rw [PoolHistory.step, if_pos ((h.live ptr).mpr ⟨.user, hptr⟩)] at hs
    cases hs
    exact h.use hptr value

/-! ## Every block is in one place -/

/-- What the pool, the caches and the users have. -/
def everywhere (s : CachedPool τ) (free : List Nat) : Option (Place τ) → List Nat
  | none => free
  | some k => s.holds k

/-- Each block that was carved is on the free list, in a cache, on its way into one, or with a user,
and in one of these places only. A cache is never larger than a batch, `Get` never takes the last
element of an empty cache, and a flush frees blocks of the pool that are not free. When all caches
are destroyed and the users have put back all blocks, every block is on the free list. -/
structure Settled (s : CachedPool τ) : Prop where
  once : ∃ free, Chain 0 s.history.pool.next s.history.pool.head_ free ∧
    Apart (s.everywhere free) ∧
    ∀ x, x ∈ carved s.history.chunks ↔ ∃ k, x ∈ s.everywhere free k
  small : ∀ t, (s.cache_ t).length ≤ kBatchSize
  back : ∀ t, s.pc t = .back → s.cache_ t ≠ []
  frees : ∀ t i ptr x, s.pc t = .flush i ptr → (s.cache_ t)[i]? = some x → x ∈ s.history.live
  drained : (∀ t, s.pc t = .destroyed) → s.handed = [] →
    ∃ free, Chain 0 s.history.pool.next s.history.pool.head_ free ∧
      free.Perm (carved s.history.chunks)

theorem CacheOk.length_le {cache : List Nat} {pc : TlsPc} (h : CacheOk cache pc) :
    cache.length ≤ kBatchSize := by
  cases pc with
  | refill left =>
    simp only [CacheOk] at h
    omega
  | back => exact h.2
  | destroyed =>
    simp only [CacheOk] at h
    simp [h]
  | _ => exact h

theorem Inv.settled (h : s.Inv block_size) : s.Settled := by
  obtain ⟨free, hchain, hperm⟩ := (h.kept.accounted .memory).once
  have hnodup : (free ++ s.history.live).Nodup :=
    hperm.nodup_iff.mpr (h.kept.accounted .memory).nodup
  obtain ⟨hfree, -, hdisjoint⟩ := List.nodup_append.mp hnodup
  have hmem : ∀ x, x ∈ carved s.history.chunks ↔ x ∈ free ∨ ∃ k, x ∈ s.holds k := by
    intro x
    rw [← hperm.mem_iff, List.mem_append, h.live]
  have hout : ∀ x k, x ∈ free → x ∉ s.holds k := fun x k hx hk =>
    hdisjoint x hx x ((h.live x).mpr ⟨k, hk⟩) rfl
  refine ⟨⟨free, hchain, ⟨?_, ?_⟩, ?_⟩, fun t => (h.cache t).length_le, ?_, ?_, ?_⟩
  · intro k
    cases k with
    | none => exact hfree
    | some k => exact h.apart.nodup k
  · intro j k x hj hk
    cases j with
    | none =>
      cases k with
      | none => rfl
      | some k => exact absurd hk (hout x k hj)
    | some j =>
      cases k with
      | none => exact absurd hj (hout x j hk)
      | some k => exact congrArg some (h.apart.unique hj hk)
  · intro x
    rw [hmem, Option.exists]
    rfl
  · intro t hpc
    have hok := h.cache t
    rw [hpc] at hok
    exact hok.1
  · intro t i ptr x hpc hx
    exact (h.flush hpc hx).1
  · intro hdestroyed hhanded
    refine ⟨free, hchain, ?_⟩
    -- nothing is live any more
    have hnone : s.history.live = [] := by
      rw [List.eq_nil_iff_forall_not_mem]
      intro x hx
      obtain ⟨k, hk⟩ := (h.live x).mp hx
      cases k with
      | cache t =>
        have hok := h.cache t
        rw [hdestroyed t] at hok
        have hcache : s.cache_ t = [] := hok
        simp [holds, hdestroyed t, inCache, hcache] at hk
      | argument t => simp [holds, hdestroyed t, underWay] at hk
      | user => simp [holds, hhanded] at hk
    rw [hnone, List.append_nil] at hperm
    exact hperm

/-- Two threads take blocks of one chunk. One has filled its cache and handed out a block, and the
other one is filling its cache. -/
def twoCaches : List (CachedCall Bool) :=
  [.Get true, .next true 4096, .Get false, .next false 0] ++ List.replicate 17 (.next true 0) ++
    [.use 4144 7, .next false 0]

end CachedPool

end sci.pools
