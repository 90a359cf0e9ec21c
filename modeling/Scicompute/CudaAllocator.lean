-- The counters of `sci::gpu::CudaAllocator` (include/gpu/gpu_memory.hpp,
-- src/gpu/gpu_memory.cpp, 49-139). One block of counters follows three maps, and
-- `reset_stats` sets it to zero whatever the maps hold.
import Scicompute.Transition
import Scicompute.Word
import Scicompute.SizeMap

open Transition

namespace sci.gpu

/-- The three kinds of memory, each with a map, a call that gets it and one that frees it. -/
inductive MemoryKind
  | managed
  | device
  | pinned
  deriving DecidableEq

structure CudaStats where
  num_allocations : Nat
  num_deallocations : Nat
  current_bytes : Nat
  peak_bytes : Nat
  total_allocated_bytes : Nat
  deriving DecidableEq

/-- `map_` has `managed_map_`, `device_map_` and `pinned_map_`. -/
structure CudaAllocator where
  map_ : MemoryKind → AList fun _ : Nat => Nat
  stats_ : CudaStats

namespace CudaAllocator

def update_stats (s : CudaStats) (bytes : Nat) (allocate : Bool) : CudaStats :=
  if allocate then
    { num_allocations := Word.add s.num_allocations 1
      num_deallocations := s.num_deallocations
      current_bytes := Word.add s.current_bytes bytes
      peak_bytes := max s.peak_bytes (Word.add s.current_bytes bytes)
      total_allocated_bytes := Word.add s.total_allocated_bytes bytes }
  else
    { s with num_deallocations := Word.add s.num_deallocations 1
             current_bytes := Word.sub s.current_bytes bytes }

/-- An allocation that CUDA has granted. -/
def allocate (kind : MemoryKind) (a : CudaAllocator) (bytes ptr : Nat) : CudaAllocator where
  map_ := Function.update a.map_ kind ((a.map_ kind).insert ptr bytes)
  stats_ := update_stats a.stats_ bytes true

def allocate_managed := allocate .managed
def allocate_device := allocate .device
def allocate_pinned := allocate .pinned

/-- A pointer that the map has is passed to `cudaFree` or `cudaFreeHost`. -/
def deallocate (kind : MemoryKind) (a : CudaAllocator) (ptr : Nat) : CudaAllocator :=
  match (a.map_ kind).lookup ptr with
  | none => a
  | some bytes =>
    { map_ := Function.update a.map_ kind ((a.map_ kind).erase ptr)
      stats_ := update_stats a.stats_ bytes false }

def deallocate_managed := deallocate .managed
def deallocate_device := deallocate .device
def deallocate_pinned := deallocate .pinned

def reset_stats (a : CudaAllocator) : CudaAllocator := { a with stats_ := ⟨0, 0, 0, 0, 0⟩ }

/-- The bytes in the three maps. -/
def held (a : CudaAllocator) : Nat :=
  SizeMap.total (a.map_ .managed) + SizeMap.total (a.map_ .device) + SizeMap.total (a.map_ .pinned)

def Live (a : CudaAllocator) (ptr : Nat) : Prop :=
  ptr ∈ a.map_ .managed ∨ ptr ∈ a.map_ .device ∨ ptr ∈ a.map_ .pinned

instance (a : CudaAllocator) (ptr : Nat) : Decidable (a.Live ptr) :=
  inferInstanceAs (Decidable (_ ∨ _))

variable {a : CudaAllocator} {kind : MemoryKind} {bytes ptr : Nat}

theorem live_of_mem (h : ptr ∈ a.map_ kind) : a.Live ptr := by
  unfold Live
  cases kind <;> simp [h]

theorem held_allocate (h : ¬ a.Live ptr) : (allocate kind a bytes ptr).held = bytes + a.held := by
  have hnot : ∀ k, ptr ∉ a.map_ k := fun k hk => h (live_of_mem hk)
  unfold held allocate
  cases kind <;> simp [SizeMap.total_insert (hnot _)] <;> omega

theorem deallocate_eq (h : (a.map_ kind).lookup ptr = some bytes) :
    deallocate kind a ptr =
      { map_ := Function.update a.map_ kind ((a.map_ kind).erase ptr)
        stats_ := update_stats a.stats_ bytes false } := by
  unfold deallocate
  rw [h]

theorem held_deallocate (h : (a.map_ kind).lookup ptr = some bytes) :
    bytes + (deallocate kind a ptr).held = a.held := by
  have htotal := SizeMap.total_erase h
  rw [deallocate_eq h]
  unfold held
  cases kind <;> simp <;> omega

theorem live_allocate {p : Nat} (h : (allocate kind a bytes ptr).Live p) : p = ptr ∨ a.Live p := by
  unfold Live allocate at *
  cases kind <;> simp at h <;> tauto

/-- A pointer is in one map only. -/
def Apart (a : CudaAllocator) : Prop := ∀ ptr k l, ptr ∈ a.map_ k → ptr ∈ a.map_ l → k = l

theorem exists_mem_of_live (h : a.Live ptr) : ∃ k, ptr ∈ a.map_ k := by
  rcases h with h | h | h
  · exact ⟨_, h⟩
  · exact ⟨_, h⟩
  · exact ⟨_, h⟩

theorem Apart.allocate (ha : a.Apart) (h : ¬ a.Live ptr) : (allocate kind a bytes ptr).Apart := by
  have hmem : ∀ p k, p ∈ (CudaAllocator.allocate kind a bytes ptr).map_ k →
      p = ptr ∧ k = kind ∨ p ≠ ptr ∧ p ∈ a.map_ k := by
    intro p k hp
    unfold CudaAllocator.allocate at hp
    by_cases hk : k = kind
    · subst hk
      simp only [Function.update_self, AList.mem_insert] at hp
      by_cases hpp : p = ptr
      · exact Or.inl ⟨hpp, rfl⟩
      · exact Or.inr ⟨hpp, hp.resolve_left hpp⟩
    · simp only [Function.update_of_ne hk] at hp
      refine Or.inr ⟨?_, hp⟩
      rintro rfl
      exact h (live_of_mem hp)
  intro p k l hk hl
  rcases hmem p k hk with ⟨rfl, rfl⟩ | ⟨hne, hk⟩
  · rcases hmem p l hl with ⟨-, rfl⟩ | ⟨hne, -⟩
    · rfl
    · exact absurd rfl hne
  · rcases hmem p l hl with ⟨rfl, -⟩ | ⟨-, hl⟩
    · exact absurd rfl hne
    · exact ha p k l hk hl

theorem mem_of_mem_deallocate (h : (a.map_ kind).lookup ptr = some bytes) {p : Nat} {k : MemoryKind}
    (hp : p ∈ (deallocate kind a ptr).map_ k) : p ∈ a.map_ k ∧ (k = kind → p ≠ ptr) := by
  rw [deallocate_eq h] at hp
  by_cases hk : k = kind
  · subst hk
    simp only [Function.update_self, AList.mem_erase] at hp
    exact ⟨hp.2, fun _ => hp.1⟩
  · simp only [Function.update_of_ne hk] at hp
    exact ⟨hp, fun he => absurd he hk⟩

theorem Apart.deallocate (ha : a.Apart) (h : (a.map_ kind).lookup ptr = some bytes) :
    (deallocate kind a ptr).Apart := fun p k l hk hl =>
  ha p k l (mem_of_mem_deallocate h hk).1 (mem_of_mem_deallocate h hl).1

/-- A block that was freed is in no map. -/
theorem Apart.ne_of_live (ha : a.Apart) (h : (a.map_ kind).lookup ptr = some bytes) {p : Nat}
    (hp : (CudaAllocator.deallocate kind a ptr).Live p) : p ≠ ptr ∧ a.Live p := by
  obtain ⟨k, hk⟩ := exists_mem_of_live hp
  obtain ⟨hmem, hne⟩ := mem_of_mem_deallocate h hk
  refine ⟨?_, live_of_mem hmem⟩
  rintro rfl
  have hin : p ∈ a.map_ kind := AList.lookup_isSome.mp (by rw [h]; rfl)
  exact hne (ha p k kind hmem hin) rfl

end CudaAllocator

/-- `total` is the sum of all allocations, and `allocated` and `freed` list the pointers that CUDA
has given and those that it has got back. The two numbers of bytes begin again at `reset_stats`.
`underflowed` says whether `current_bytes` has ever been less than what was subtracted from it. -/
structure CudaSystem where
  allocator : CudaAllocator
  total : Nat
  allocated : List Nat
  freed : List Nat
  allocated_bytes : Nat
  freed_bytes : Nat
  underflowed : Bool

/-- A pointer is `none` where it is null, or where CUDA fails. -/
inductive CudaAction
  | allocate (kind : MemoryKind) (bytes : Nat) (ptr : Option Nat)
  | deallocate (kind : MemoryKind) (ptr : Option Nat)
  | reset_stats

namespace CudaSystem

def start : CudaSystem := ⟨⟨fun _ => ∅, ⟨0, 0, 0, 0, 0⟩⟩, 0, [], [], 0, 0, false⟩

def allocate (s : CudaSystem) (kind : MemoryKind) (bytes ptr : Nat) : CudaSystem :=
  { s with allocator := CudaAllocator.allocate kind s.allocator bytes ptr
           total := s.total + bytes
           allocated := ptr :: s.allocated
           allocated_bytes := s.allocated_bytes + bytes }

def free (s : CudaSystem) (kind : MemoryKind) (bytes ptr : Nat) : CudaSystem :=
  { s with allocator := CudaAllocator.deallocate kind s.allocator ptr
           freed := ptr :: s.freed
           freed_bytes := s.freed_bytes + bytes
           underflowed := s.underflowed || decide (s.allocator.stats_.current_bytes < bytes) }

def step (s : CudaSystem) : CudaAction → Option CudaSystem
  | .allocate kind bytes ptr =>
    match ptr with
    | none => some s
    | some ptr =>
      if 0 < bytes ∧ ¬ s.allocator.Live ptr ∧ s.total + bytes < Word.wordSize then
        some (s.allocate kind bytes ptr)
      else none
  | .deallocate kind ptr =>
    match ptr with
    | none => some s
    | some ptr =>
      match (s.allocator.map_ kind).lookup ptr with
      | none => some { s with allocator := CudaAllocator.deallocate kind s.allocator ptr }
      | some bytes => some (s.free kind bytes ptr)
  | .reset_stats =>
    some { s with allocator := s.allocator.reset_stats, allocated_bytes := 0, freed_bytes := 0 }

/-- `once` compares what CUDA has got back with what it has given, pointer by pointer. -/
structure Safe (s : CudaSystem) : Prop where
  no_underflow : s.underflowed = false
  held : s.allocator.stats_.current_bytes ≤ s.allocator.held
  peak : s.allocator.stats_.current_bytes ≤ s.allocator.stats_.peak_bytes
  once : ∀ ptr, s.freed.count ptr ≤ s.allocated.count ptr
  live : ∀ ptr, s.allocator.Live ptr → s.freed.count ptr < s.allocated.count ptr

/-- A call that frees a block: since the last `reset_stats` no more bytes are freed, with those of
the block, than were allocated. -/
def Covered (s : CudaSystem) : CudaAction → Prop
  | .deallocate kind (some ptr) =>
    ∀ bytes ∈ (s.allocator.map_ kind).lookup ptr, s.freed_bytes + bytes ≤ s.allocated_bytes
  | _ => True

instance (s : CudaSystem) : ∀ a, Decidable (s.Covered a)
  | .allocate .. => isTrue trivial
  | .deallocate _ none => isTrue trivial
  | .deallocate kind (some ptr) =>
    inferInstanceAs (Decidable (∀ bytes ∈ (s.allocator.map_ kind).lookup ptr, _))
  | .reset_stats => isTrue trivial

/-! ## What a step keeps -/

/-- The counters, as long as they have not underflowed. -/
structure Counted (s : CudaSystem) : Prop where
  since : s.allocator.stats_.current_bytes + s.freed_bytes = s.allocated_bytes
  held : s.allocator.stats_.current_bytes ≤ s.allocator.held
  peak : s.allocator.stats_.current_bytes ≤ s.allocator.stats_.peak_bytes

structure Inv (s : CudaSystem) : Prop where
  apart : s.allocator.Apart
  held : s.allocator.held ≤ s.total
  total_lt : s.total < Word.wordSize
  once : ∀ ptr, s.freed.count ptr ≤ s.allocated.count ptr
  live : ∀ ptr, s.allocator.Live ptr → s.freed.count ptr < s.allocated.count ptr
  counted : s.underflowed = false → s.Counted

variable {s t : CudaSystem} {kind : MemoryKind} {bytes ptr : Nat}

theorem inv_start : start.Inv where
  apart p k l hk := absurd hk (AList.notMem_empty p)
  held := by decide
  total_lt := by decide
  once p := le_rfl
  live := by
    intro p hp
    rcases hp with hp | hp | hp <;> exact absurd hp (AList.notMem_empty p)
  counted _ := by constructor <;> decide

theorem Counted.allocate (hs : s.Counted) (hheld : s.allocator.held ≤ s.total)
    (hptr : ¬ s.allocator.Live ptr) (hfits : s.total + bytes < Word.wordSize) :
    (s.allocate kind bytes ptr).Counted := by
  have hsince := hs.since
  have hle := hs.held
  have hstats : (s.allocate kind bytes ptr).allocator.stats_.current_bytes =
      s.allocator.stats_.current_bytes + bytes := Word.add_of_lt (by omega)
  have hmaps : (s.allocate kind bytes ptr).allocator.held = bytes + s.allocator.held :=
    CudaAllocator.held_allocate hptr
  constructor
  · rw [hstats]
    simp only [CudaSystem.allocate]
    omega
  · rw [hstats, hmaps]
    omega
  · exact le_max_right _ _

theorem Inv.allocate (hs : s.Inv) (hptr : ¬ s.allocator.Live ptr)
    (hfits : s.total + bytes < Word.wordSize) : (s.allocate kind bytes ptr).Inv where
  apart := hs.apart.allocate hptr
  held := by
    have hheld := hs.held
    have hmaps : (CudaAllocator.allocate kind s.allocator bytes ptr).held =
        bytes + s.allocator.held := CudaAllocator.held_allocate hptr
    simp only [CudaSystem.allocate]
    omega
  total_lt := hfits
  once p := (hs.once p).trans (List.count_le_count_cons)
  live := by
    intro p hp
    unfold CudaSystem.allocate
    rcases CudaAllocator.live_allocate hp with rfl | hp
    · rw [List.count_cons_self]
      exact Nat.lt_succ_of_le (hs.once p)
    · exact (hs.live p hp).trans_le List.count_le_count_cons
  counted h := (hs.counted h).allocate hs.held hptr hfits

theorem free_allocator (s : CudaSystem) (kind : MemoryKind) (bytes ptr : Nat) :
    (s.free kind bytes ptr).allocator = CudaAllocator.deallocate kind s.allocator ptr := rfl

theorem Counted.free (hs : s.Counted) (hlt : s.allocator.stats_.current_bytes < Word.wordSize)
    (h : (s.allocator.map_ kind).lookup ptr = some bytes)
    (hle : bytes ≤ s.allocator.stats_.current_bytes) : (s.free kind bytes ptr).Counted := by
  have hsince := hs.since
  have hheld := hs.held
  have hpeak := hs.peak
  have hmaps := CudaAllocator.held_deallocate h
  have hstats : (s.free kind bytes ptr).allocator.stats_.current_bytes =
      s.allocator.stats_.current_bytes - bytes := by
    rw [free_allocator, CudaAllocator.deallocate_eq h]
    exact Word.sub_of_le hle hlt
  constructor
  · rw [hstats]
    simp only [CudaSystem.free]
    omega
  · rw [hstats, free_allocator]
    omega
  · rw [hstats, free_allocator, CudaAllocator.deallocate_eq h]
    exact (Nat.sub_le _ _).trans hpeak

theorem Inv.free (hs : s.Inv) (h : (s.allocator.map_ kind).lookup ptr = some bytes) :
    (s.free kind bytes ptr).Inv where
  apart := hs.apart.deallocate h
  held := by
    have hheld := hs.held
    have hmaps := CudaAllocator.held_deallocate h
    simp only [CudaSystem.free]
    omega
  total_lt := hs.total_lt
  once := by
    intro p
    unfold CudaSystem.free
    by_cases hp : p = ptr
    · subst hp
      have hlive : s.allocator.Live p :=
        CudaAllocator.live_of_mem (AList.lookup_isSome.mp (by rw [h]; rfl))
      rw [List.count_cons_self]
      exact hs.live p hlive
    · rw [List.count_cons_of_ne (Ne.symm hp)]
      exact hs.once p
  live := by
    intro p hp
    obtain ⟨hne, hlive⟩ := hs.apart.ne_of_live h hp
    unfold CudaSystem.free
    rw [List.count_cons_of_ne (Ne.symm hne)]
    exact hs.live p hlive
  counted := by
    intro hflag
    obtain ⟨hflag, hle⟩ := Bool.or_eq_false_iff.mp hflag
    have hcounted := hs.counted hflag
    have hheld := hcounted.held
    have htotal := hs.held
    have hlt := hs.total_lt
    exact hcounted.free (by omega) h (Nat.le_of_not_lt (of_decide_eq_false hle))

theorem Inv.reset_stats (hs : s.Inv) :
    { s with allocator := s.allocator.reset_stats, allocated_bytes := 0, freed_bytes := 0 }.Inv where
  apart := hs.apart
  held := hs.held
  total_lt := hs.total_lt
  once := hs.once
  live := hs.live
  counted _ := ⟨rfl, Nat.zero_le _, le_rfl⟩

/-- What a step does. -/
theorem step_cases {a : CudaAction} (ht : s.step a = some t) :
    t = s ∨ (∃ kind bytes ptr, a = .allocate kind bytes (some ptr) ∧ ¬ s.allocator.Live ptr ∧
        s.total + bytes < Word.wordSize ∧ t = s.allocate kind bytes ptr) ∨
      (∃ kind bytes ptr, a = .deallocate kind (some ptr) ∧
        (s.allocator.map_ kind).lookup ptr = some bytes ∧ t = s.free kind bytes ptr) ∨
      a = .reset_stats ∧
        t = { s with allocator := s.allocator.reset_stats, allocated_bytes := 0
                     freed_bytes := 0 } := by
  unfold step at ht
  cases a with
  | allocate kind bytes ptr =>
    cases ptr with
    | none =>
      cases ht
      exact Or.inl rfl
    | some ptr =>
      dsimp only at ht
      split_ifs at ht with h
      cases ht
      exact Or.inr (Or.inl ⟨kind, bytes, ptr, rfl, h.2.1, h.2.2, rfl⟩)
  | deallocate kind ptr =>
    cases ptr with
    | none =>
      cases ht
      exact Or.inl rfl
    | some ptr =>
      cases h : (s.allocator.map_ kind).lookup ptr with
      | none =>
        simp only [h, CudaAllocator.deallocate, Option.some.injEq] at ht
        exact Or.inl ht.symm
      | some bytes =>
        simp only [h, Option.some.injEq] at ht
        exact Or.inr (Or.inr (Or.inl ⟨kind, bytes, ptr, rfl, h, ht.symm⟩))
  | reset_stats =>
    cases ht
    exact Or.inr (Or.inr (Or.inr ⟨rfl, rfl⟩))

theorem Inv.step (hs : s.Inv) (a : CudaAction) (ht : s.step a = some t) : t.Inv := by
  rcases step_cases ht with rfl | ⟨kind, bytes, ptr, -, hptr, hfits, rfl⟩ |
    ⟨kind, bytes, ptr, -, h, rfl⟩ | ⟨-, rfl⟩
  · exact hs
  · exact hs.allocate hptr hfits
  · exact hs.free h
  · exact hs.reset_stats

/-! ## When the counters are right -/

/-- A step that is covered does not underflow, and no other step does. -/
theorem covered_iff (hs : s.Inv) (hg : s.underflowed = false) (a : CudaAction)
    (ht : s.step a = some t) : s.Covered a ↔ t.underflowed = false := by
  have hsince := (hs.counted hg).since
  cases a with
  | allocate kind bytes ptr =>
    rcases step_cases ht with rfl | ⟨kind, bytes, ptr, -, -, -, rfl⟩ | ⟨_, _, _, he, -⟩ | ⟨he, -⟩
    · exact iff_of_true trivial hg
    · exact iff_of_true trivial hg
    · cases he
    · cases he
  | deallocate kind ptr =>
    cases ptr with
    | none =>
      cases ht
      exact iff_of_true trivial hg
    | some ptr =>
      have hcovered : s.Covered (.deallocate kind (some ptr)) ↔
          ∀ bytes, (s.allocator.map_ kind).lookup ptr = some bytes →
            s.freed_bytes + bytes ≤ s.allocated_bytes := Iff.rfl
      unfold CudaSystem.step at ht
      rw [hcovered]
      cases h : (s.allocator.map_ kind).lookup ptr with
      | none =>
        simp only [h, Option.some.injEq] at ht
        subst ht
        exact iff_of_true (fun bytes hb => by simp at hb) hg
      | some bytes =>
        simp only [h, Option.some.injEq] at ht
        subst ht
        simp only [CudaSystem.free, hg, Bool.false_or, decide_eq_false_iff_not,
          Option.some.injEq, forall_eq']
        omega
  | reset_stats =>
    cases ht
    exact iff_of_true trivial hg

theorem underflowed_step (a : CudaAction) (hg : ¬ s.underflowed = false)
    (ht : s.step a = some t) : ¬ t.underflowed = false := by
  rcases step_cases ht with rfl | ⟨kind, bytes, ptr, -, -, -, rfl⟩ |
    ⟨kind, bytes, ptr, -, -, rfl⟩ | ⟨-, rfl⟩
  · exact hg
  · exact hg
  · intro h
    exact hg (Bool.or_eq_false_iff.mp h).1
  · exact hg

theorem Inv.safe_iff (hs : s.Inv) : s.Safe ↔ s.underflowed = false := by
  constructor
  · exact fun h => h.no_underflow
  · intro h
    have hcounted := hs.counted h
    exact ⟨h, hcounted.held, hcounted.peak, hs.once, hs.live⟩

/-- The counters stay right in a run exactly when no more bytes are ever freed after a
`reset_stats` than were allocated after it. -/
theorem safe_iff_frees_are_covered {as : List CudaAction} {s : CudaSystem}
    (hr : run step start as = some s) : s.Safe ↔ Meets step Covered start as := by
  have hinv : s.Inv := invariant_of_run (fun _ a _ hs ht => hs.step a ht) inv_start hr
  rw [hinv.safe_iff]
  exact meets_iff_of_run (I := Inv) (fun _ a _ hs ht => hs.step a ht)
    (fun _ a _ hs hg ht => covered_iff hs hg a ht) (fun _ a _ _ hg ht => underflowed_step a hg ht)
    inv_start rfl hr

/-- A block from before the `reset_stats` is freed twice, once as memory of another kind. -/
def freeAfterReset : List CudaAction :=
  [.allocate .device 100 (some 4096), .reset_stats, .allocate .managed 300 (some 8192),
    .deallocate .pinned (some 4096), .deallocate .device (some 4096),
    .deallocate .device (some 4096), .deallocate .device none, .allocate .pinned 50 none]

theorem free_after_reset_is_safe : ∃ s, run step start freeAfterReset = some s ∧
    s.allocator.stats_ = ⟨1, 1, 200, 300, 300⟩ ∧ s.Safe := by
  have hr : ∃ s, run step start freeAfterReset = some s ∧
      s.allocator.stats_ = ⟨1, 1, 200, 300, 300⟩ := exists_of_any (by decide)
  obtain ⟨s, hr, hstats⟩ := hr
  exact ⟨s, hr, hstats, (safe_iff_frees_are_covered hr).mpr (by decide)⟩

theorem reset_stats_makes_a_free_underflow :
    ¬ ∀ as s, run step start as = some s → s.Safe := by
  intro h
  have hr : ∃ s, run step start [.allocate .managed 64 (some 4096), .reset_stats,
      .deallocate .managed (some 4096)] = some s ∧
      s.allocator.stats_.current_bytes = 2 ^ 64 - 64 ∧ s.underflowed = true :=
    exists_of_any (by decide)
  obtain ⟨s, hr, -, hflag⟩ := hr
  have hsafe := (h _ s hr).no_underflow
  rw [hflag] at hsafe
  cases hsafe

end CudaSystem

end sci.gpu
