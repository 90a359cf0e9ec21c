-- What `SharedMemorySegment::Create` leaves in the name space and in the segments of other owners
-- (src/bridges/ipc_bridge.cpp, 52-73), for every way in which its system calls can end.
import Scicompute.SharedMemory

namespace sci.bridges

open SharedMemorySegment (ShmAnswer)
open ShmSystem (dev_shm)

/-- The entries of the name space and the contents of the segments, which are numbered in the order
of their creation. -/
structure NameSpace where
  names : String → Option Nat
  bytes : Nat → List UInt8
  segments : Nat
  bound_lt : ∀ e seg, names e = some seg → seg < segments

def SharedMemorySegment.IsValid (x : SharedMemorySegment) : Bool := x.mapped_addr_.isSome

namespace NameSpace

variable (entry : String → String) (s : NameSpace) (name : String) (seg size : Nat)
  (o : ShmAnswer)

/-- An entry for a new segment, which has no bytes. -/
def bind (e : String) : NameSpace where
  names := Function.update s.names e (some s.segments)
  bytes := Function.update s.bytes s.segments []
  segments := s.segments + 1
  bound_lt e' seg h := by
    rw [Function.update_apply] at h
    split_ifs at h
    · cases h
      exact Nat.lt_succ_self _
    · exact Nat.lt_succ_of_lt (s.bound_lt e' seg h)

/-- What the name is bound to. -/
def lookup : Option Nat := s.names (entry (c_str name))

/-- `shm_open(name.c_str(), O_CREAT | O_RDWR, 0666)`, and the segment of the descriptor. -/
def shm_open : NameSpace × Nat :=
  match s.lookup entry name with
  | some seg => (s, seg)
  | none => (s.bind (entry (c_str name)), s.segments)

/-- What `ftruncate` makes of the bytes: it cuts them off, or adds zeros. -/
def resized (l : List UInt8) : List UInt8 := l.take size ++ List.replicate (size - l.length) 0

def ftruncate : NameSpace :=
  { s with bytes := Function.update s.bytes seg (resized size (s.bytes seg)) }

/-- What `Create` returns, the segment that is mapped there, and what it leaves. -/
structure Creation where
  object : SharedMemorySegment
  mapped : Option Nat
  space : NameSpace

/-- A call that fails is followed by `close`, which leaves the names and the segments as they
are. -/
def Create : Creation :=
  let object := SharedMemorySegment.Create name size o
  let opened := s.shm_open entry name
  match o with
  | .shm_open_fails => ⟨object, none, s⟩
  | .sizing_fails _ => ⟨object, none, opened.1⟩
  | .mmap_fails _ _ => ⟨object, none, opened.1.ftruncate opened.2 size⟩
  | .mapped _ _ _ => ⟨object, some opened.2, opened.1.ftruncate opened.2 size⟩

/-- A segment that is not valid leaves everything as it was. A valid one is not a segment that had
the name before, and leaves that as it was. -/
structure LeavesOthers : Prop where
  invalid : (s.Create entry name size o).object.IsValid = false →
    (s.Create entry name size o).space.names = s.names ∧
      ∀ seg < s.segments, (s.Create entry name size o).space.bytes seg = s.bytes seg
  valid : (s.Create entry name size o).object.IsValid = true →
    ∀ seg, s.lookup entry name = some seg →
      (s.Create entry name size o).mapped ≠ some seg ∧
        (s.Create entry name size o).space.bytes seg = s.bytes seg

/-- The condition: a name that is bound when a call behind `shm_open` fails, to a segment of this
size if it is `mmap`, and a name that is not bound when no call fails. -/
def Harmless : ShmAnswer → Prop
  | .shm_open_fails => True
  | .sizing_fails _ => ∃ seg, s.lookup entry name = some seg
  | .mmap_fails _ _ => ∃ seg, s.lookup entry name = some seg ∧ (s.bytes seg).length = size
  | .mapped _ _ _ => s.lookup entry name = none

/-! ## The calls -/

variable {entry s name seg size o}

theorem shm_open_bound (h : s.lookup entry name = some seg) : s.shm_open entry name = (s, seg) := by
  rw [shm_open, h]

theorem shm_open_unbound (h : s.lookup entry name = none) :
    s.shm_open entry name = (s.bind (entry (c_str name)), s.segments) := by
  rw [shm_open, h]

theorem names_bind_ne {e : String} (h : s.names e = none) : (s.bind e).names ≠ s.names := by
  intro heq
  have hnew : (s.bind e).names e = some s.segments := Function.update_self ..
  rw [heq, h] at hnew
  cases hnew

theorem resized_eq_self_iff (l : List UInt8) : resized size l = l ↔ l.length = size := by
  unfold resized
  constructor
  · intro h
    have hlength := congrArg List.length h
    rw [List.length_append, List.length_take, List.length_replicate] at hlength
    omega
  · rintro rfl
    rw [List.take_length, Nat.sub_self, List.replicate_zero, List.append_nil]

theorem bytes_ftruncate_self :
    (s.ftruncate seg size).bytes seg = resized size (s.bytes seg) := Function.update_self ..

theorem bytes_ftruncate_of_ne {other : Nat} (h : other ≠ seg) :
    (s.ftruncate seg size).bytes other = s.bytes other := Function.update_of_ne h _ _

/-- All segments keep their bytes if this one has the size already. -/
theorem bytes_ftruncate_iff (h : seg < s.segments) (size : Nat) :
    (∀ other < s.segments, (s.ftruncate seg size).bytes other = s.bytes other) ↔
      (s.bytes seg).length = size := by
  rw [← resized_eq_self_iff]
  constructor
  · intro hall
    exact bytes_ftruncate_self.symm.trans (hall seg h)
  · intro hself other _
    by_cases hother : other = seg
    · rw [hother]
      exact bytes_ftruncate_self.trans hself
    · exact bytes_ftruncate_of_ne hother

/-! ## The ways to end -/

theorem leavesOthers_of_invalid (h : (s.Create entry name size o).object.IsValid = false) :
    s.LeavesOthers entry name size o ↔ (s.Create entry name size o).space.names = s.names ∧
      ∀ seg < s.segments, (s.Create entry name size o).space.bytes seg = s.bytes seg := by
  refine ⟨fun hleaves => hleaves.invalid h, fun hspace => ⟨fun _ => hspace, fun hvalid => ?_⟩⟩
  rw [h] at hvalid
  cases hvalid

theorem leavesOthers_of_sizing (fd : Int) :
    s.LeavesOthers entry name size (.sizing_fails fd) ↔
      ∃ seg, s.lookup entry name = some seg := by
  rw [leavesOthers_of_invalid rfl]
  unfold Create
  dsimp only
  cases h : s.lookup entry name with
  | some seg =>
    rw [shm_open_bound h]
    exact iff_of_true ⟨rfl, fun _ _ => rfl⟩ ⟨seg, rfl⟩
  | none =>
    rw [shm_open_unbound h]
    exact iff_of_false (fun hkeep => names_bind_ne h hkeep.1) nofun

theorem leavesOthers_of_mmap (fd : Int) (given : Nat) :
    s.LeavesOthers entry name size (.mmap_fails fd given) ↔
      ∃ seg, s.lookup entry name = some seg ∧ (s.bytes seg).length = size := by
  rw [leavesOthers_of_invalid rfl]
  unfold Create
  dsimp only
  cases h : s.lookup entry name with
  | some seg =>
    rw [shm_open_bound h]
    have hbytes := bytes_ftruncate_iff (s.bound_lt _ seg h) size
    constructor
    · rintro ⟨-, hkeep⟩
      exact ⟨seg, rfl, hbytes.mp hkeep⟩
    · rintro ⟨_, ⟨⟩, hlength⟩
      exact ⟨rfl, hbytes.mpr hlength⟩
  | none =>
    rw [shm_open_unbound h]
    refine iff_of_false (fun hkeep => names_bind_ne h hkeep.1) ?_
    rintro ⟨_, ⟨⟩, -⟩

/-- A name that was bound has its old segment mapped. -/
theorem leavesOthers_of_mapped (fd : Int) (given addr : Nat) :
    s.LeavesOthers entry name size (.mapped fd given addr) ↔ s.lookup entry name = none := by
  constructor
  · intro hleaves
    cases h : s.lookup entry name with
    | none => rfl
    | some seg =>
      have hmapped : (s.Create entry name size (.mapped fd given addr)).mapped = some seg := by
        unfold Create
        dsimp only
        rw [shm_open_bound h]
      exact absurd hmapped (hleaves.valid rfl seg h).1
  · intro h
    refine ⟨nofun, fun _ seg hseg => ?_⟩
    rw [h] at hseg
    cases hseg

/-- `Create` leaves other owners alone exactly under the condition. -/
theorem create_leavesOthers_iff (entry : String → String) (s : NameSpace) (name : String)
    (size : Nat) (o : ShmAnswer) :
    s.LeavesOthers entry name size o ↔ s.Harmless entry name size o := by
  cases o with
  | shm_open_fails =>
    exact iff_of_true ((leavesOthers_of_invalid rfl).mpr ⟨rfl, fun _ _ => rfl⟩) trivial
  | sizing_fails fd => exact leavesOthers_of_sizing fd
  | mmap_fails fd given => exact leavesOthers_of_mmap fd given
  | mapped fd given addr => exact leavesOthers_of_mapped fd given addr

/-- A segment of another owner, of 4 bytes. -/
def oneSegment : NameSpace where
  names := fun e => if e = "data" then some 0 else none
  bytes := fun _ => [1, 2, 3, 4]
  segments := 1
  bound_lt e seg h := by
    split_ifs at h
    cases h
    exact Nat.one_pos

/-- The second `Create` of a name cuts off the segment of the first one. -/
theorem a_segment_is_taken_over :
    ¬ oneSegment.LeavesOthers dev_shm "/data" 2 (.mapped 3 2 4096) ∧
      ((oneSegment.Create dev_shm "/data" 2 (.mapped 3 2 4096)).mapped = some 0 ∧
        (oneSegment.Create dev_shm "/data" 2 (.mapped 3 2 4096)).space.bytes 0 = [1, 2]) := by
  refine ⟨fun h => ?_, rfl, rfl⟩
  have hmapped := (h.valid rfl 0 rfl).1
  exact hmapped rfl

end NameSpace

end sci.bridges
