-- The counters of `sci::HostAllocator` (include/memory/allocator.hpp,
-- src/memory/allocator.cpp, 18-59), with any number of threads in it. A call of `allocate`
-- takes the memory first, and the lock afterwards.
import Scicompute.Transition
import Scicompute.Word
import Scicompute.SizeMap

open Transition

namespace sci

/-- `Allocator::Stats`. -/
structure Stats where
  num_allocations : Nat
  num_deallocations : Nat
  current_bytes : Nat
  peak_bytes : Nat
  total_bytes : Nat
  deriving DecidableEq

structure HostAllocator where
  allocation_map_ : AList fun _ : Nat => Nat
  stats_ : Stats

namespace HostAllocator

/-- The locked section of `allocate(bytes)`. -/
def record (a : HostAllocator) (ptr bytes : Nat) : HostAllocator :=
  { allocation_map_ := a.allocation_map_.insert ptr bytes
    stats_ :=
      { a.stats_ with
        num_allocations := Word.add a.stats_.num_allocations 1
        current_bytes := Word.add a.stats_.current_bytes bytes
        total_bytes := Word.add a.stats_.total_bytes bytes
        peak_bytes := max a.stats_.peak_bytes (Word.add a.stats_.current_bytes bytes) } }

/-- The locked section of `deallocate(ptr)`, which frees `ptr` in any case. -/
def deallocate (a : HostAllocator) (ptr : Nat) : HostAllocator :=
  match a.allocation_map_.lookup ptr with
  | none => a
  | some bytes =>
    { allocation_map_ := a.allocation_map_.erase ptr
      stats_ :=
        { a.stats_ with
          current_bytes := Word.sub a.stats_.current_bytes bytes
          num_deallocations := Word.add a.stats_.num_deallocations 1 } }

/-- "This only clears the tracking map, not actual allocations." -/
def clear (a : HostAllocator) : HostAllocator := { a with allocation_map_ := ∅ }

end HostAllocator

namespace HostAllocator

/-! ## The locked sections -/

/-- The counters are those of the map, and of `entries` removed entries of `bytes` bytes. -/
structure Counts (a : HostAllocator) (bytes entries : Nat) : Prop where
  current : a.stats_.current_bytes = SizeMap.total a.allocation_map_ + bytes
  entries : a.stats_.num_allocations =
    a.stats_.num_deallocations + (SizeMap.card a.allocation_map_ + entries)
  peak : a.stats_.current_bytes ≤ a.stats_.peak_bytes
  total : a.stats_.peak_bytes ≤ a.stats_.total_bytes
  total_lt : a.stats_.total_bytes < Word.wordSize
  num_lt : a.stats_.num_allocations < Word.wordSize

variable {a : HostAllocator} {b n : Nat}

theorem Counts.record (h : a.Counts b n) {ptr bytes : Nat} (hptr : ptr ∉ a.allocation_map_)
    (htotal : a.stats_.total_bytes + bytes < Word.wordSize)
    (hnum : a.stats_.num_allocations + 1 < Word.wordSize) : (a.record ptr bytes).Counts b n := by
  have hcurrent := h.current
  have hentries := h.entries
  have hpeak := h.peak
  have hle := h.total
  have hstats : (a.record ptr bytes).stats_ =
      { num_allocations := a.stats_.num_allocations + 1
        num_deallocations := a.stats_.num_deallocations
        current_bytes := a.stats_.current_bytes + bytes
        peak_bytes := max a.stats_.peak_bytes (a.stats_.current_bytes + bytes)
        total_bytes := a.stats_.total_bytes + bytes } := by
    unfold HostAllocator.record
    rw [Word.add_of_lt hnum, Word.add_of_lt htotal, Word.add_of_lt (by omega)]
  have hmap : (a.record ptr bytes).allocation_map_ = a.allocation_map_.insert ptr bytes := rfl
  constructor
  · simp only [hstats, hmap, SizeMap.total_insert hptr]
    omega
  · simp only [hstats, hmap, SizeMap.card_insert hptr]
    omega
  · rw [hstats]
    exact le_max_right _ _
  · simp only [hstats]
    apply max_le <;> omega
  · rwa [hstats]
  · rwa [hstats]

theorem Counts.deallocate (h : a.Counts b n) (ptr : Nat) : (a.deallocate ptr).Counts b n := by
  unfold HostAllocator.deallocate
  cases hptr : a.allocation_map_.lookup ptr with
  | none => exact h
  | some bytes =>
    have hcurrent := h.current
    have hentries := h.entries
    have hpeak := h.peak
    have hle := h.total
    have hlt := h.total_lt
    have hnum := h.num_lt
    have hbytes := SizeMap.total_erase hptr
    have hcard := SizeMap.card_erase hptr
    have hcur : Word.sub a.stats_.current_bytes bytes = a.stats_.current_bytes - bytes :=
      Word.sub_of_le (by omega) (by omega)
    have hone : Word.add a.stats_.num_deallocations 1 = a.stats_.num_deallocations + 1 :=
      Word.add_of_lt (by omega)
    constructor
    · simp only [hcur]
      omega
    · simp only [hone]
      omega
    · simp only [hcur]
      omega
    · exact hle
    · exact hlt
    · exact hnum

theorem Counts.clear (h : a.Counts b n) :
    a.clear.Counts (SizeMap.total a.allocation_map_ + b)
      (SizeMap.card a.allocation_map_ + n) where
  current := by
    rw [HostAllocator.clear, SizeMap.total_empty, Nat.zero_add]
    exact h.current
  entries := by
    rw [HostAllocator.clear, SizeMap.card_empty, Nat.zero_add]
    exact h.entries
  peak := h.peak
  total := h.total
  total_lt := h.total_lt
  num_lt := h.num_lt

end HostAllocator

/-- `calls` has the calls of `allocate` that have their memory and not the lock yet, `returned`
the pointers that the callers have got and not given back. `cleared` lists the sizes of the
entries that `clear` has removed. -/
structure HostSystem where
  allocator : HostAllocator
  calls : List (Nat × Nat)
  returned : List Nat
  cleared : List Nat

/-- A pointer is `none` where it is null. -/
inductive HostAction
  /-- `allocate(bytes)` up to the lock, with what `posix_memalign` gives. -/
  | malloc (bytes : Nat) (ptr : Option Nat)
  | record (ptr bytes : Nat)
  | deallocate (ptr : Option Nat)
  | clear

namespace HostSystem

def start : HostSystem := ⟨⟨∅, ⟨0, 0, 0, 0, 0⟩⟩, [], [], []⟩

/-- The blocks that are not freed. -/
def live (s : HostSystem) : List Nat := s.calls.map Prod.fst ++ s.returned

/-- Neither counter of the allocation overflows. -/
def Fits (s : HostSystem) (bytes : Nat) : Prop :=
  s.allocator.stats_.total_bytes + bytes < Word.wordSize ∧
    s.allocator.stats_.num_allocations + 1 < Word.wordSize

instance (s : HostSystem) (bytes : Nat) : Decidable (s.Fits bytes) :=
  inferInstanceAs (Decidable (_ ∧ _))

def step (s : HostSystem) : HostAction → Option HostSystem
  | .malloc bytes ptr =>
    match ptr with
    | none => some s
    | some ptr =>
      if bytes = 0 then none
      else if ptr ∈ s.live then none
      else some { s with calls := (ptr, bytes) :: s.calls }
  | .record ptr bytes =>
    if (ptr, bytes) ∈ s.calls ∧ s.Fits bytes then
      some { s with allocator := s.allocator.record ptr bytes
                    calls := s.calls.erase (ptr, bytes)
                    returned := ptr :: s.returned }
    else none
  | .deallocate ptr =>
    match ptr with
    | none => some s
    | some ptr =>
      if ptr ∈ s.returned then
        some { s with allocator := s.allocator.deallocate ptr
                      returned := s.returned.erase ptr }
      else none
  | .clear =>
    some { s with allocator := s.allocator.clear
                  cleared := s.allocator.allocation_map_.entries.map Sigma.snd ++ s.cleared }

/-- The counters are those of the map. -/
structure Balanced (s : HostSystem) : Prop where
  current : s.allocator.stats_.current_bytes = SizeMap.total s.allocator.allocation_map_
  entries : Word.sub s.allocator.stats_.num_allocations s.allocator.stats_.num_deallocations =
    SizeMap.card s.allocator.allocation_map_
  peak : s.allocator.stats_.current_bytes ≤ s.allocator.stats_.peak_bytes
  total : s.allocator.stats_.peak_bytes ≤ s.allocator.stats_.total_bytes

/-- The counters are those of the map and of the entries that `clear` has removed. They are those of
the map alone as long as it has removed none. -/
structure BalancedWithCleared (s : HostSystem) : Prop where
  current : s.allocator.stats_.current_bytes =
    SizeMap.total s.allocator.allocation_map_ + s.cleared.sum
  entries : Word.sub s.allocator.stats_.num_allocations s.allocator.stats_.num_deallocations =
    SizeMap.card s.allocator.allocation_map_ + s.cleared.length
  peak : s.allocator.stats_.current_bytes ≤ s.allocator.stats_.peak_bytes
  total : s.allocator.stats_.peak_bytes ≤ s.allocator.stats_.total_bytes
  balanced : s.Balanced ↔ s.cleared = []

/-! ## What a step keeps -/

/-- Blocks in use have different addresses, and the map has pointers that callers hold. -/
structure Inv (s : HostSystem) : Prop where
  nodup : s.live.Nodup
  keys : ∀ p ∈ s.allocator.allocation_map_, p ∈ s.returned
  calls : ∀ c ∈ s.calls, 0 < c.2
  sizes : ∀ p n, s.allocator.allocation_map_.lookup p = some n → 0 < n
  cleared : ∀ n ∈ s.cleared, 0 < n
  counts : s.allocator.Counts s.cleared.sum s.cleared.length

variable {s t : HostSystem}

theorem inv_start : start.Inv where
  nodup := List.nodup_nil
  keys p hp := by simp [start] at hp
  calls c hc := by simp [start] at hc
  sizes p n hn := by simp [start] at hn
  cleared n hn := by simp [start] at hn
  counts := by constructor <;> decide

theorem Inv.malloc (hs : s.Inv) {ptr bytes : Nat} (hbytes : bytes ≠ 0) (hptr : ptr ∉ s.live) :
    { s with calls := (ptr, bytes) :: s.calls }.Inv where
  nodup := List.nodup_cons.mpr ⟨hptr, hs.nodup⟩
  keys := hs.keys
  calls := by
    intro c hc
    rcases List.mem_cons.mp hc with rfl | hc
    · exact Nat.pos_of_ne_zero hbytes
    · exact hs.calls c hc
  sizes := hs.sizes
  cleared := hs.cleared
  counts := hs.counts

theorem Inv.record (hs : s.Inv) {ptr bytes : Nat} (hcall : (ptr, bytes) ∈ s.calls)
    (hfits : s.Fits bytes) :
    { s with allocator := s.allocator.record ptr bytes
             calls := s.calls.erase (ptr, bytes)
             returned := ptr :: s.returned }.Inv where
  nodup := by
    have hperm : (s.calls.map Prod.fst ++ s.returned).Perm
        ((s.calls.erase (ptr, bytes)).map Prod.fst ++ ptr :: s.returned) := by
      have hcalls := (List.perm_cons_erase hcall).map Prod.fst
      rw [List.map_cons] at hcalls
      exact (hcalls.append_right s.returned).trans List.perm_middle.symm
    exact hperm.nodup hs.nodup
  keys := by
    intro p hp
    rcases (AList.mem_insert _).mp hp with rfl | hp
    · exact List.mem_cons_self
    · exact List.mem_cons_of_mem ptr (hs.keys p hp)
  calls c hc := hs.calls c (List.mem_of_mem_erase hc)
  sizes := by
    intro p n hn
    by_cases hp : p = ptr
    · subst hp
      rw [HostAllocator.record, AList.lookup_insert, Option.some.injEq] at hn
      exact hn ▸ hs.calls _ hcall
    · rw [HostAllocator.record, AList.lookup_insert_ne hp] at hn
      exact hs.sizes p n hn
  cleared := hs.cleared
  counts := by
    apply hs.counts.record _ hfits.1 hfits.2
    intro hp
    have hret := hs.keys ptr hp
    exact List.disjoint_of_nodup_append hs.nodup (List.mem_map_of_mem (f := Prod.fst) hcall) hret

theorem Inv.deallocate (hs : s.Inv) (ptr : Nat) :
    { s with allocator := s.allocator.deallocate ptr
             returned := s.returned.erase ptr }.Inv where
  nodup := hs.nodup.sublist (List.Sublist.append_left List.erase_sublist _)
  keys := by
    intro p hp
    have hne : p ≠ ptr ∧ p ∈ s.allocator.allocation_map_ := by
      unfold HostAllocator.deallocate at hp
      cases hptr : s.allocator.allocation_map_.lookup ptr with
      | none =>
        rw [hptr] at hp
        refine ⟨?_, hp⟩
        rintro rfl
        exact AList.lookup_eq_none.mp hptr hp
      | some bytes =>
        rw [hptr] at hp
        exact AList.mem_erase.mp hp
    exact (List.mem_erase_of_ne hne.1).mpr (hs.keys p hne.2)
  calls := hs.calls
  sizes := by
    intro p n hn
    unfold HostAllocator.deallocate at hn
    cases hptr : s.allocator.allocation_map_.lookup ptr with
    | none =>
      rw [hptr] at hn
      exact hs.sizes p n hn
    | some bytes =>
      rw [hptr] at hn
      have hne : p ≠ ptr := by
        rintro rfl
        rw [AList.lookup_erase] at hn
        cases hn
      rw [AList.lookup_erase_ne hne] at hn
      exact hs.sizes p n hn
  cleared := hs.cleared
  counts := hs.counts.deallocate ptr

theorem Inv.clear (hs : s.Inv) :
    { s with allocator := s.allocator.clear
             cleared := s.allocator.allocation_map_.entries.map Sigma.snd ++ s.cleared }.Inv where
  nodup := hs.nodup
  keys p hp := absurd hp (AList.notMem_empty p)
  calls := hs.calls
  sizes p n hn := by
    rw [HostAllocator.clear, AList.lookup_empty] at hn
    cases hn
  cleared := by
    intro n hn
    rcases List.mem_append.mp hn with hn | hn
    · obtain ⟨⟨p, n⟩, he, rfl⟩ := List.mem_map.mp hn
      exact hs.sizes p n (AList.mem_lookup_iff.mpr he)
    · exact hs.cleared n hn
  counts := by
    rw [List.sum_append, List.length_append, List.length_map]
    exact hs.counts.clear

theorem Inv.step (hs : s.Inv) (a : HostAction) (ht : s.step a = some t) : t.Inv := by
  unfold HostSystem.step at ht
  cases a with
  | malloc bytes ptr =>
    cases ptr with
    | none =>
      cases ht
      exact hs
    | some ptr =>
      dsimp only at ht
      split_ifs at ht with hbytes hptr
      cases ht
      exact hs.malloc hbytes hptr
  | record ptr bytes =>
    dsimp only at ht
    split_ifs at ht with h
    cases ht
    exact hs.record h.1 h.2
  | deallocate ptr =>
    cases ptr with
    | none =>
      cases ht
      exact hs
    | some ptr =>
      dsimp only at ht
      split_ifs at ht with hptr
      cases ht
      exact hs.deallocate ptr
  | clear =>
    cases ht
    exact hs.clear

theorem Inv.run (hs : s.Inv) {as : List HostAction}
    (ht : Transition.run HostSystem.step s as = some t) : t.Inv :=
  invariant_of_run (fun _ a _ hs ht => hs.step a ht) hs ht

/-! ## The counters in every history -/

/-- Sizes that are positive have the sum 0 only where there are none. -/
theorem sum_eq_zero_iff_of_pos {l : List Nat} (h : ∀ n ∈ l, 0 < n) : l.sum = 0 ↔ l = [] := by
  cases l with
  | nil => simp
  | cons n l =>
    have hn := h n List.mem_cons_self
    rw [List.sum_cons]
    simp only [reduceCtorEq, iff_false]
    omega

theorem Inv.balancedWithCleared (hs : s.Inv) : s.BalancedWithCleared := by
  have hcounts := hs.counts
  have hnum := hcounts.num_lt
  have hentries := hcounts.entries
  have hsub : Word.sub s.allocator.stats_.num_allocations s.allocator.stats_.num_deallocations =
      SizeMap.card s.allocator.allocation_map_ + s.cleared.length := by
    rw [Word.sub_of_le (by omega) hnum]
    omega
  refine ⟨hcounts.current, hsub, hcounts.peak, hcounts.total, ?_⟩
  rw [← sum_eq_zero_iff_of_pos hs.cleared]
  constructor
  · intro h
    have hcurrent := h.current
    rw [hcounts.current] at hcurrent
    omega
  · intro h
    have hnil := (sum_eq_zero_iff_of_pos hs.cleared).mp h
    refine ⟨?_, ?_, hcounts.peak, hcounts.total⟩
    · rw [hcounts.current, h, Nat.add_zero]
    · rw [hsub, hnil, List.length_nil, Nat.add_zero]

/-- In every history the counters are those of the map and of the entries that `clear` has removed
from it. -/
theorem counters_count_the_map_and_the_cleared_entries {as : List HostAction} {s : HostSystem}
    (hr : Transition.run step start as = some s) : s.BalancedWithCleared :=
  (inv_start.run hr).balancedWithCleared

/-- Two threads allocate, the map is cleared, and one block is freed and used again. -/
def clearBetweenFrees : List HostAction :=
  [.malloc 64 (some 4096), .malloc 128 (some 8192), .record 8192 128, .record 4096 64,
    .deallocate (some 4096), .clear, .deallocate (some 8192), .malloc 32 (some 8192),
    .record 8192 32]

theorem clear_between_frees_counts : ∃ s, Transition.run step start clearBetweenFrees = some s ∧
    s.allocator.stats_ = ⟨3, 1, 160, 192, 224⟩ ∧ s.BalancedWithCleared := by
  have hr : ∃ s, Transition.run step start clearBetweenFrees = some s ∧
      s.allocator.stats_ = ⟨3, 1, 160, 192, 224⟩ := exists_of_any (by decide)
  obtain ⟨s, hr, hstats⟩ := hr
  exact ⟨s, hr, hstats, counters_count_the_map_and_the_cleared_entries hr⟩

/-- `clear` leaves the counters as they are. -/
theorem clear_unbalances :
    ¬ ∀ as s, Transition.run step start as = some s → s.Balanced := by
  intro h
  have hr : ∃ s, Transition.run step start [.malloc 64 (some 4096), .record 4096 64, .clear] =
      some s ∧ s.allocator.stats_.current_bytes ≠ SizeMap.total s.allocator.allocation_map_ :=
    exists_of_any (by decide)
  obtain ⟨s, hr, hne⟩ := hr
  exact hne (h _ s hr).current

end HostSystem

end sci
