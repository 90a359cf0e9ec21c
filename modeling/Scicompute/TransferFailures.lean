-- `Tensor::to(type, id)` when the device has no memory (src/tensor/tensor.cpp,
-- src/memory/buffer_handle.cpp, src/device/device.cpp, src/device/cuda_device.cpp). No layer
-- looks at the null pointer: the CPU writes to it, and the CUDA devices skip the copy.
import Scicompute.DeviceTransfers

namespace sci

open DeviceMemory (At Apart)

/-! ## Allocations that can fail -/

namespace Device

/-- `allocate(bytes)`. `got` is the address that the system gives, or none. -/
def try_allocate (place : Nat → Nat) (d : Device) (m : DeviceMemory) (bytes : Nat)
    (got : Option Nat) : Option DevicePointer × DeviceMemory :=
  match got with
  | none => (none, m)
  | some addr => d.allocate place m bytes addr

end Device

/-- The statuses that `to` makes. -/
inductive TransferStatus
  | InvalidArgument (message : String)
  deriving DecidableEq

namespace DeviceTensor

/-- `Tensor(shape, dtype, device)`: the handle keeps the bytes also with a null pointer. -/
def try_make (place : Nat → Nat) (m : DeviceMemory) (shape : TensorShape) (dtype : DType)
    (device : Device) (got : Option Nat) : DeviceTensor × DeviceMemory :=
  let bytes := shape.num_elements * kDTypeSize dtype
  let r := device.try_allocate place m bytes got
  (⟨shape, dtype, .kContiguous, device, r.1, bytes⟩, r.2)

/-- `to(target_device)`. -/
def try_to (place : Nat → Nat) (m : DeviceMemory) (t : DeviceTensor) (target_device : Device)
    (got : Option Nat) (staging : Nat) : Option (DeviceTensor × DeviceMemory) :=
  let r := try_make place m t.shape_ t.dtype_ target_device got
  if t.device_.type = target_device.type ∧ t.device_.id = target_device.id then
    (copy_from place r.2 r.1 t staging).map fun m' => (r.1, m')
  else
    (copy_across_devices place r.2 t.device_ t.data target_device r.1.data t.bytes staging).map
      fun m' => (r.1, m')

/-- `to(type, id)`, where `device` is what the device manager finds. -/
def to_device (place : Nat → Nat) (m : DeviceMemory) (t : DeviceTensor) (device : Option Device)
    (got : Option Nat) (staging : Nat) :
    Option (Except TransferStatus DeviceTensor × DeviceMemory) :=
  match device with
  | none => some (.error (.InvalidArgument "Invalid device type"), m)
  | some device => (try_to place m t device got staging).map fun r => (.ok r.1, r.2)

variable {place : Nat → Nat} {m : DeviceMemory} {t : DeviceTensor} {d : Device}

/-- With memory it is the transfer that always allocates. -/
theorem try_to_some (addr staging : Nat) :
    try_to place m t d (some addr) staging = «to» place m t d addr staging := rfl

/-- Without memory the new tensor has no buffer, if there is one. -/
theorem data_of_try_to {staging : Nat} {r : DeviceTensor × DeviceMemory}
    (h : try_to place m t d none staging = some r) : r.1.data = none := by
  unfold try_to at h
  split_ifs at h <;>
  · obtain ⟨m', -, rfl⟩ := Option.map_eq_some_iff.mp h
    rfl

/-- So the call says that it has a tensor, or writes through the null pointer. -/
theorem ok_of_no_memory {staging : Nat} {r : Except TransferStatus DeviceTensor}
    {m' : DeviceMemory} (h : to_device place m t (some d) none staging = some (r, m')) :
    ∃ t', r = .ok t' ∧ t'.data = none := by
  obtain ⟨x, hx, he⟩ := Option.map_eq_some_iff.mp h
  cases he
  exact ⟨x.1, rfl, data_of_try_to hx⟩

/-! ## Results -/

/-- The call writes through no null pointer. Its tensor has a buffer with the bytes of the source,
and it returns an error when the device has no memory. -/
def ReportsFailure (place : Nat → Nat) (m : DeviceMemory) (t : DeviceTensor)
    (device : Option Device) (got : Option Nat) (staging : Nat) : Prop :=
  ∃ r m', to_device place m t device got staging = some (r, m') ∧
    (∀ t', r = .ok t' → t'.data ≠ none ∧ t'.bytes = t.bytes ∧
      m'.load t'.data t'.bytes = m.load t.data t.bytes) ∧
    (device ≠ none → got = none → ∃ status, r = .error status)

/-- What the system promises on the new block and on the vector. -/
def FreshBlocks (place : Nat → Nat) (t : DeviceTensor) (device : Option Device)
    (got : Option Nat) (staging : Nat) : Prop :=
  (∀ d ∈ device, ∀ addr ∈ got, Apart t.data t.bytes (d.block place t.bytes addr) t.bytes) ∧
    Apart t.data t.bytes (Device.cpu.block place t.bytes staging) t.bytes

instance (place : Nat → Nat) (t : DeviceTensor) (device : Option Device) (got : Option Nat)
    (staging : Nat) : Decidable (FreshBlocks place t device got staging) :=
  inferInstanceAs (Decidable (_ ∧ _))

/-- A call on a tensor with bytes returns what it should, or an error, exactly when there is no such
device, or the device has memory. -/
theorem failed_transfers_are_reported_iff (ht : t.Resident place) (hbytes : t.bytes ≠ 0)
    {device : Option Device} {got : Option Nat} {staging : Nat}
    (hfresh : FreshBlocks place t device got staging) :
    ReportsFailure place m t device got staging ↔ device = none ∨ got ≠ none := by
  constructor
  · rintro ⟨r, m', hcall, hok, -⟩
    by_contra hnot
    rw [not_or, not_not] at hnot
    obtain ⟨hdevice, rfl⟩ := hnot
    obtain ⟨d, rfl⟩ := Option.ne_none_iff_exists'.mp hdevice
    obtain ⟨t', hr, hdata⟩ := ok_of_no_memory hcall
    exact (hok t' hr).1 hdata
  · intro hright
    cases device with
    | none =>
      refine ⟨_, m, rfl, ?_, ?_⟩
      · intro t' ht'
        cases ht'
      · intro hnone
        exact absurd rfl hnone
    | some d =>
      obtain ⟨addr, rfl⟩ := Option.ne_none_iff_exists'.mp
        (hright.resolve_left (Option.some_ne_none d))
      obtain ⟨m', hcall, hload, -⟩ := call_eq_some (m := m) (c := ⟨.«to» d, addr, staging⟩) ht
        (hfresh.1 d rfl addr rfl) hfresh.2
      have hto : to_device place m t (some d) (some addr) staging =
          (call place (t, m) ⟨.«to» d, addr, staging⟩).map fun r => (.ok r.1, r.2) := rfl
      refine ⟨_, m', by rw [hto, hcall]; rfl, ?_, ?_⟩
      · intro t' ht'
        cases ht'
        obtain ⟨a, ha⟩ := Device.at_block place d t.bytes addr hbytes
        refine ⟨?_, rfl, hload⟩
        change d.block place t.bytes addr ≠ none
        rw [ha]
        exact Option.some_ne_none _
      · intro _ hnone
        cases hnone

theorem host_bytes_reach_a_device_with_memory :
    FreshBlocks (fun n => n) (bytesOn .cpu .host) (some (.cuda 0)) (some 200) 300 ∧
    ReportsFailure (fun n => n) counting (bytesOn .cpu .host) (some (.cuda 0)) (some 200) 300 :=
  ⟨by decide, (failed_transfers_are_reported_iff (resident_bytesOn .cpu _) (by decide)
    (by decide)).mpr (Or.inr (by decide))⟩

/-- A CUDA device without memory gives a tensor without a buffer, and the CPU without memory gets
the bytes at the null pointer. -/
theorem failures_are_not_reported :
    ¬ ReportsFailure (fun n => n) counting (bytesOn .cpu .host) (some (.cuda 0)) none 300 ∧
    (∃ t' m', to_device (fun n => n) counting (bytesOn .cpu .host) (some (.cuda 0)) none 300 =
      some (.ok t', m') ∧ t'.data = none ∧ t'.bytes = 4) ∧
    to_device (fun n => n) counting (bytesOn .cpu .host) (some .cpu) none 300 = none := by
  refine ⟨?_, ⟨_, _, rfl, rfl, rfl⟩, rfl⟩
  rintro ⟨r, m', hcall, hok, -⟩
  obtain ⟨t', hr, hdata⟩ := ok_of_no_memory hcall
  exact (hok t' hr).1 hdata

end DeviceTensor

end sci
