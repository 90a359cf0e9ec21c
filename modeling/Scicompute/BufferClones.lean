-- `BufferHandle::clone` (src/memory/buffer_handle.cpp, 71-77). It allocates and copies with
-- `device_ptr_`, which only the constructor from a device sets: the other constructors leave it
-- null, and `reset` leaves it as it was.
import Scicompute.BufferHandle
import Scicompute.DeviceTensors

open Transition
open sci.DeviceMemory (At Apart)

namespace sci.BufferHandle

variable {F : Type*}

/-- A buffer of the device type is in this memory. -/
def Holds : Space → DeviceType → Prop
  | .host, .kCPU => True
  | .host, .kCPUPinned => True
  | .cuda _, .kCUDA => True
  | _, _ => False

instance : ∀ space type, Decidable (Holds space type)
  | .host, .kCPU => isTrue trivial
  | .host, .kCPUPinned => isTrue trivial
  | .host, .kCUDA => isFalse id
  | .cuda _, .kCUDA => isTrue trivial
  | .cuda _, .kCPU => isFalse id
  | .cuda _, .kCPUPinned => isFalse id

/-- The block is in a memory of its device type. `spaces` says where each block is. -/
def Placed (spaces : Nat → Space) (data : Option BlockPtr) (type : DeviceType) : Prop :=
  ∀ p ∈ data, Holds (spaces p.block) type

/-- The handles that the public functions make. The target of a move gets the members of its
source, which is then `moved`. -/
inductive Reached (place : Nat → Nat) (spaces : Nat → Space) : BufferHandle Device F → Prop
  | empty : Reached place spaces .empty
  | ofData {data : Option BlockPtr} {bytes : Nat} {device : DeviceType}
      {dealloc : Option (Dealloc Device F)} (hdata : Placed spaces data device) :
      Reached place spaces (.ofData data bytes device dealloc)
  | ofDevice {device : Device} {bytes : Nat} {data : Option BlockPtr}
      (hdata : ∀ p ∈ data, spaces p.block = device.space place) :
      Reached place spaces (.ofDevice device device.type bytes data)
  | moved {b : BufferHandle Device F} (left : Option (Dealloc Device F)) :
      Reached place spaces b → Reached place spaces (b.moved left)
  | deallocate {b : BufferHandle Device F} :
      Reached place spaces b → Reached place spaces b.deallocate
  | reset {b : BufferHandle Device F} {data : Option BlockPtr} {bytes : Nat} {device : DeviceType}
      {dealloc : Option (Dealloc Device F)} (hdata : Placed spaces data device) :
      Reached place spaces b → Reached place spaces (b.deallocate.reset data bytes device dealloc)
  | detach {b : BufferHandle Device F} :
      Reached place spaces b → Reached place spaces b.detach.2

/-- The pointer, with the memory that it points to. -/
def pointer (spaces : Nat → Space) (data : Option BlockPtr) : Option DevicePointer :=
  data.map fun p => ⟨spaces p.block, p.address⟩

/-- `clone()`, with the block that the device allocates. There is no result where a null pointer is
dereferenced, or where the copy is undefined. -/
def clone (place : Nat → Nat) (spaces : Nat → Space) (m : DeviceMemory) (b : BufferHandle Device F)
    (new : BlockPtr) : Option (BufferHandle Device F × DeviceMemory) :=
  match b.device_ptr_ with
  | none => none
  | some device =>
    let r := device.allocate place m b.bytes_ new.address
    let result : BufferHandle Device F :=
      .ofDevice device device.type b.bytes_ (r.1.map fun _ => new)
    match pointer spaces b.data_ with
    | none => some (result, r.2)
    | some data =>
      (device.copy_to_device place r.2 r.1 (some data) b.bytes_).map fun m' => (result, m')

/-- The clone has the bytes of the source, on the device type of the source. -/
def IsCloned (place : Nat → Nat) (spaces : Nat → Space) (m : DeviceMemory)
    (b : BufferHandle Device F) (new : BlockPtr) : Prop :=
  ∃ result m', b.clone place spaces m new = some (result, m') ∧ result.bytes_ = b.bytes_ ∧
    result.device_ = b.device_ ∧
    m'.load (pointer spaces result.data_) b.bytes_ = m.load (pointer spaces b.data_) b.bytes_

/-- The handle has the device of its data still, and this is the CPU, or there are no bytes. -/
def Clonable (b : BufferHandle Device F) : Prop :=
  ∃ device ∈ b.device_ptr_, device.type = b.device_ ∧ (device = .cpu ∨ b.bytes_ = 0)

/-- The block that `clone` allocates is in the memory of the device, and has no byte of the
source. -/
structure FreshClone (place : Nat → Nat) (spaces : Nat → Space) (b : BufferHandle Device F)
    (new : BlockPtr) : Prop where
  space : ∀ device ∈ b.device_ptr_, spaces new.block = device.space place
  apart : ∀ device ∈ b.device_ptr_, Apart (pointer spaces b.data_) b.bytes_
    (device.block place b.bytes_ new.address) b.bytes_

variable {place : Nat → Nat} {spaces : Nat → Space} {m : DeviceMemory}
  {b : BufferHandle Device F} {new : BlockPtr}

theorem holds_space (place : Nat → Nat) (device : Device) :
    Holds (device.space place) device.type := by
  cases device <;> trivial

/-- The data of a handle is where its device type says. -/
theorem Reached.placed (hb : Reached place spaces b) : Placed spaces b.data_ b.device_ := by
  induction hb with
  | empty => exact fun p hp => by cases hp
  | ofData hdata => exact hdata
  | @ofDevice device bytes data hdata =>
    intro p hp
    rw [hdata p hp]
    exact holds_space place device
  | moved left _ ih => exact fun p hp => by cases hp
  | deallocate _ ih => exact fun p hp => by cases hp
  | reset hdata _ ih => exact hdata
  | detach _ ih => exact ih

/-! ## The handles of a run -/

section
variable {H : Type*} [DecidableEq H]

/-- The blocks of a step are in a memory of their device type. -/
def PlacedAction (place : Nat → Nat) (spaces : Nat → Space) (s : Handles H Device F) :
    HandleAction H Device F → Prop
  | .construct_device _ device type _ _ =>
    type = device.type ∧ spaces s.acquired.length = device.space place
  | .construct_data _ _ _ device _ => Holds (spaces s.acquired.length) device
  | .reset_data _ _ _ device _ => Holds (spaces s.acquired.length) device
  | _ => True

def AllReached (place : Nat → Nat) (spaces : Nat → Space) (s : Handles H Device F) : Prop :=
  ∀ h b, s.handles h = some b → Reached place spaces b

variable {s t : Handles H Device F} {h : H}

theorem AllReached.put (hs : AllReached place spaces s) {o : Option (BufferHandle Device F)}
    (ho : ∀ b, o = some b → Reached place spaces b) : AllReached place spaces (s.put h o) := by
  intro k b hb
  by_cases hk : k = h
  · subst hk
    simp only [Handles.put, Function.update_self] at hb
    exact ho b hb
  · simp only [Handles.put, Function.update_of_ne hk] at hb
    exact hs k b hb

theorem AllReached.deallocate (hs : AllReached place spaces s) {b : BufferHandle Device F}
    (hb : s.handles h = some b) : AllReached place spaces (s.deallocate h b) :=
  hs.put (by rintro c ⟨⟩; exact (hs h b hb).deallocate)

theorem AllReached.move (hs : AllReached place spaces s) {other : H} {o : BufferHandle Device F}
    (left : Option (Dealloc Device F)) (ho : s.handles other = some o) :
    AllReached place spaces (s.move h other o left) := by
  have hreached := hs other o ho
  apply AllReached.put
  · apply hs.put
    rintro c ⟨⟩
    exact hreached
  · rintro c ⟨⟩
    exact hreached.moved left

variable [DecidableEq F]

theorem AllReached.step (hs : AllReached place spaces s) (a : HandleAction H Device F)
    (ha : PlacedAction place spaces s a) (ht : s.step a = some t) : AllReached place spaces t := by
  unfold Handles.step at ht
  cases a with
  | construct h =>
    dsimp only at ht
    split at ht
    · cases ht
    · cases ht
      apply hs.put
      rintro b ⟨⟩
      exact Reached.empty
  | construct_device h device type bytes data =>
    obtain ⟨rfl, hspace⟩ := ha
    dsimp only at ht
    split at ht
    · cases ht
    · cases ht
      apply hs.put
      rintro b ⟨⟩
      exact Reached.ofDevice (fun p hp => by cases hp)
    · split_ifs at ht
      cases ht
      apply hs.put
      rintro b ⟨⟩
      apply Reached.ofDevice
      rintro p ⟨⟩
      exact hspace
  | construct_data h data bytes device dealloc =>
    dsimp only at ht
    split at ht
    · cases ht
    · split_ifs at ht
      cases ht
      apply hs.put
      rintro b ⟨⟩
      apply Reached.ofData
      rintro p ⟨⟩
      exact ha
  | move_construct h other left =>
    dsimp only at ht
    split at ht
    case h_1 ho =>
      cases ht
      exact hs.move left ho
    · cases ht
  | move_assign h other left =>
    dsimp only at ht
    split at ht
    case h_1 b o hb ho =>
      split_ifs at ht with hne
      · cases ht
        exact hs
      · cases ht
        apply (hs.deallocate hb).move left
        simp [Handles.deallocate, Handles.put, Ne.symm hne, ho]
    · cases ht
  | reset h =>
    dsimp only at ht
    split at ht
    · cases ht
    case h_2 b hb =>
      cases ht
      exact hs.deallocate hb
  | reset_data h data bytes device dealloc =>
    dsimp only at ht
    split at ht
    · cases ht
    case h_2 b hb =>
      split_ifs at ht
      cases ht
      apply (hs.deallocate hb).put
      rintro c ⟨⟩
      apply Reached.reset _ (hs h b hb)
      rintro p ⟨⟩
      exact ha
  | detach h =>
    dsimp only at ht
    split at ht
    · cases ht
    case h_2 b hb =>
      cases ht
      apply hs.put
      rintro c ⟨⟩
      exact (hs h b hb).detach
  | destroy h =>
    dsimp only at ht
    split at ht
    · cases ht
    case h_2 b hb =>
      cases ht
      apply (hs.deallocate hb).put
      rintro c ⟨⟩

/-- The handles of every run are `Reached`. -/
theorem reached_of_run {as : List (HandleAction H Device F)} (hr : run Handles.step .start as = some s)
    (hm : Meets Handles.step (PlacedAction place spaces) .start as) : AllReached place spaces s :=
  invariant_of_meets (fun _ a _ hs ha ht => hs.step a ha ht) (fun h b hb => by cases hb) hm hr

end

/-! ## When a clone is right -/

theorem eq_cpu_of_holds_host {device : Device} {type : DeviceType} (h : Holds .host type)
    (htype : device.type = type) : device = .cpu := by
  cases device with
  | cpu => rfl
  | cuda n =>
    subst htype
    exact absurd h id

/-- The pointer of the new block, as the device gives it. -/
theorem pointer_new {device : Device} (hspace : spaces new.block = device.space place) (n : Nat) :
    pointer spaces ((device.block place n new.address).map fun _ => new) =
      device.block place n new.address := by
  unfold pointer Device.block
  split_ifs with hn
  · rfl
  · rw [Option.map_some, Option.map_some, hspace]

/-- A handle with data has a right clone exactly when it has the device of its data still, and this
is the CPU, or there are no bytes. -/
theorem is_cloned_iff_clonable (hb : Reached place spaces b) (hdata : b.data_ ≠ none)
    (hnew : b.FreshClone place spaces new) : b.IsCloned place spaces m new ↔ b.Clonable := by
  obtain ⟨p, hp⟩ := Option.ne_none_iff_exists'.mp hdata
  have hpointer : pointer spaces b.data_ = some ⟨spaces p.block, p.address⟩ := by rw [hp]; rfl
  have hplaced := hb.placed p hp
  cases hd : b.device_ptr_ with
  | none =>
    have hclone : b.clone place spaces m new = none := by
      unfold clone
      rw [hd]
    constructor
    · rintro ⟨result, m', hsome, -⟩
      rw [hclone] at hsome
      cases hsome
    · rintro ⟨device, hdev, -⟩
      rw [hd] at hdev
      cases hdev
  | some device =>
    have hspace := hnew.space device hd
    have hat : At (spaces p.block) (pointer spaces b.data_) b.bytes_ :=
      fun _ => ⟨p.address, hpointer⟩
    have hiff := Device.copy_to_device_new_iff (m := m) hat (hnew.apart device hd)
    have hclone : b.clone place spaces m new =
        (device.copy_to_device place (device.allocate place m b.bytes_ new.address).2
          (device.block place b.bytes_ new.address) (pointer spaces b.data_) b.bytes_).map fun m' =>
            (ofDevice device device.type b.bytes_
              ((device.block place b.bytes_ new.address).map fun _ => new), m') := by
      unfold clone
      simp only [hd, hpointer, Device.allocate_fst]
    constructor
    · rintro ⟨result, m', hsome, -, htype, hload⟩
      rw [hclone, Option.map_eq_some_iff] at hsome
      obtain ⟨m'', hm'', he⟩ := hsome
      cases he
      have hdevice : device.type = b.device_ := htype
      refine ⟨device, hd, hdevice, ?_⟩
      simp only [ofDevice, pointer_new hspace] at hload
      rcases hiff.mp ⟨_, hm'', hload⟩ with hhost | hzero
      · rw [hhost] at hplaced
        exact Or.inl (eq_cpu_of_holds_host hplaced hdevice)
      · exact Or.inr hzero
    · rintro ⟨device', hd', htype, hright⟩
      rw [hd, Option.mem_def, Option.some.injEq] at hd'
      subst hd'
      have hhost : spaces p.block = .host ∨ b.bytes_ = 0 := by
        rcases hright with rfl | hzero
        · left
          rw [← htype] at hplaced
          revert hplaced
          cases spaces p.block with
          | host => exact fun _ => rfl
          | cuda n => exact fun h => absurd h id
        · exact Or.inr hzero
      obtain ⟨m', hm', hload⟩ := hiff.mpr hhost
      refine ⟨ofDevice device device.type b.bytes_
        ((device.block place b.bytes_ new.address).map fun _ => new), m', ?_, rfl, htype, ?_⟩
      · rw [hclone, hm', Option.map_some]
      · simp only [ofDevice, pointer_new hspace]
        exact hload

/-- A handle of the CPU device that was given other memory, and was detached from it. -/
def refilled : BufferHandle Device Unit :=
  ((BufferHandle.ofDevice .cpu .kCPU 4 (some ⟨64, 0⟩)).deallocate.reset (some ⟨128, 1⟩) 8 .kCPU
    (some (.fn ()))).detach.2

theorem refilled_is_cloned : refilled.IsCloned id (fun _ => .host) (fun _ _ => 0) ⟨256, 2⟩ := by
  have hreached : Reached id (fun _ => .host) refilled := by
    apply Reached.detach
    apply Reached.reset
    · rintro p ⟨⟩
      trivial
    · exact Reached.ofDevice fun p hp => rfl
  apply (is_cloned_iff_clonable hreached (by decide) _).mpr
  · exact ⟨.cpu, rfl, rfl, Or.inl rfl⟩
  · exact ⟨by decide, by decide⟩

/-- The clone of a handle that was made from a pointer dereferences a null pointer. -/
theorem pointer_handle_is_not_cloned :
    ¬ ∀ (b : BufferHandle Device Unit) (m : DeviceMemory) (new : BlockPtr),
      Reached id (fun _ => .host) b → b.data_ ≠ none → b.FreshClone id (fun _ => .host) new →
        b.IsCloned id (fun _ => .host) m new := by
  intro h
  have hreached : Reached id (fun _ => .host)
      (.ofData (some ⟨64, 0⟩) 16 .kCPU none : BufferHandle Device Unit) := by
    apply Reached.ofData
    rintro p ⟨⟩
    trivial
  obtain ⟨result, m', hsome, -⟩ :=
    h _ (fun _ _ => 0) ⟨128, 1⟩ hreached (by decide) ⟨by decide, by decide⟩
  cases hsome

end sci.BufferHandle
