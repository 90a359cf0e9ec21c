-- What the kernels of the program run on: the elements of the global memory of a device, and of the
-- dynamic shared memory of each block. Built-in indices are 32-bit unsigned words.
import Scicompute.SimtPaths
import Scicompute.Word

namespace sci.cuda

open Simt

/-- A location of a device. The dynamic shared memory of a block begins at its element 0. -/
inductive Loc
  | global (address : Nat)
  | shared (block element : Nat)
  deriving DecidableEq

/-- `kernel<<<gridDim, blockDim, shared_bytes>>>(..)`. The kernel reads the dimensions, `blockIdx.x`
and `threadIdx.x`. -/
structure KernelLaunch (V : Type) where
  dims : Simt.Launch
  shared_bytes : Nat
  kernel : Simt.Launch → Nat → Nat → Simt.Thread Loc V Unit

variable {V : Type}

/-- The programs of the threads. -/
abbrev KernelLaunch.threads (c : KernelLaunch V) : Nat → Nat → Simt.Thread Loc V Unit :=
  c.kernel c.dims

/-- The result of an operation of 32-bit unsigned words. -/
def u32 (a : Nat) : Nat := a % 2 ^ 32

theorem Loc.global_ne_shared (a b i : Nat) : Loc.global a ≠ .shared b i := nofun

theorem shared_injective (b : Nat) : Function.Injective (Loc.shared b) := fun _ _ h => by
  injection h

/-! ## Reads of the global memory -/

def Loc.isGlobal : Loc → Bool
  | .global _ => true
  | .shared _ _ => false

/-- The locations of the global memory that are read, as often as they are. -/
def globalReads (F : Multiset (Event Loc)) : Multiset Loc :=
  (F.filter fun e => e.isWrite = false ∧ e.loc.isGlobal = true).map Event.loc

@[simp] theorem globalReads_zero : globalReads 0 = 0 := rfl

theorem globalReads_add (F F' : Multiset (Event Loc)) :
    globalReads (F + F') = globalReads F + globalReads F' := by
  unfold globalReads
  rw [Multiset.filter_add, Multiset.map_add]

theorem globalReads_eq_zero {F : Multiset (Event Loc)}
    (h : ∀ e ∈ F, e.isWrite = true ∨ e.loc.isGlobal = false) : globalReads F = 0 := by
  unfold globalReads
  rw [Multiset.filter_eq_nil.mpr, Multiset.map_zero]
  rintro e he ⟨hread, hglobal⟩
  rcases h e he with hw | hs
  · rw [hread] at hw
    cases hw
  · rw [hglobal] at hs
    cases hs

/-- A thread that reads elements of the global memory. -/
theorem globalReads_events (b t n p : Nat) (l : List Nat) :
    globalReads (events b t n (l.map fun i => (Loc.global (p + i), false))) =
      (l : Multiset Nat).map fun i => Loc.global (p + i) := by
  unfold globalReads events
  rw [Multiset.filter_eq_self.mpr, Multiset.map_coe, Multiset.map_coe, List.map_map, List.map_map]
  · rfl
  · intro e he
    rw [Multiset.mem_coe, List.mem_map] at he
    obtain ⟨a, ha, rfl⟩ := he
    obtain ⟨i, -, rfl⟩ := List.mem_map.mp ha
    exact ⟨rfl, rfl⟩

theorem globalReads_sum_events (b n p d : Nat) (l : Nat → List Nat) :
    globalReads (∑ t ∈ Finset.range d,
      events b t n ((l t).map fun i => (Loc.global (p + i), false))) =
        (∑ t ∈ Finset.range d, (l t : Multiset Nat)).map fun i => Loc.global (p + i) := by
  induction d with
  | zero => rfl
  | succ d ih =>
    rw [Finset.sum_range_succ, Finset.sum_range_succ, globalReads_add, ih, globalReads_events,
      Multiset.map_add]

end sci.cuda
