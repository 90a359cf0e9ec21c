-- Chains of `Tensor::to` and `Tensor::clone` through the CPU and CUDA devices
-- (src/tensor/tensor.cpp). Each call gets the address of its new block, and the address of the
-- vector that a copy between two CUDA devices goes through.
import Scicompute.Transition
import Scicompute.DeviceTensors

namespace sci

open DeviceMemory (At Apart)

/-! ## Copies -/

/-- `CopyAcrossDevices`. The vector `staging` has zeros, and no storage when it is empty. -/
def copy_across_devices (place : Nat → Nat) (m : DeviceMemory) (src_device : Device)
    (src : Option DevicePointer) (dst_device : Device) (dst : Option DevicePointer)
    (bytes staging : Nat) : Option DeviceMemory :=
  if src_device.type = .kCPU then
    dst_device.copy_to_device place m dst src bytes
  else if dst_device.type = .kCPU then
    src_device.copy_to_host place m dst src bytes
  else
    let r := Device.cpu.allocate place m bytes staging
    (src_device.copy_to_host place r.2 r.1 src bytes).bind fun m' =>
      dst_device.copy_to_device place m' dst r.1 bytes

namespace DeviceTensor

/-- `Tensor::copy_from`. An assertion that fails gives `none`. -/
def copy_from (place : Nat → Nat) (m : DeviceMemory) (t other : DeviceTensor) (staging : Nat) :
    Option DeviceMemory :=
  if t.shape_ = other.shape_ ∧ t.dtype_ = other.dtype_ then
    if t.device_.type = other.device_.type ∧ t.device_.id = other.device_.id then
      t.device_.copy_within place m t.data other.data t.bytes
    else
      copy_across_devices place m other.device_ other.data t.device_ t.data t.bytes staging
  else none

def clone (place : Nat → Nat) (m : DeviceMemory) (t : DeviceTensor) (addr staging : Nat) :
    Option (DeviceTensor × DeviceMemory) :=
  let r := make place m t.shape_ t.dtype_ t.device_ addr
  (copy_from place r.2 r.1 t staging).map fun m' => (r.1, m')

def «to» (place : Nat → Nat) (m : DeviceMemory) (t : DeviceTensor) (target_device : Device)
    (addr staging : Nat) : Option (DeviceTensor × DeviceMemory) :=
  let r := make place m t.shape_ t.dtype_ target_device addr
  if t.device_.type = target_device.type ∧ t.device_.id = target_device.id then
    (copy_from place r.2 r.1 t staging).map fun m' => (r.1, m')
  else
    (copy_across_devices place r.2 t.device_ t.data target_device r.1.data t.bytes staging).map
      fun m' => (r.1, m')

end DeviceTensor

variable {place : Nat → Nat} {m : DeviceMemory}

/-- A copy across devices needs the source and the target on their devices, and the vector
apart from them. -/
theorem copy_across_devices_eq_some {src_device dst_device : Device}
    {src dst : Option DevicePointer} {bytes staging : Nat}
    (hsrc : At (src_device.space place) src bytes) (hdst : At (dst_device.space place) dst bytes)
    (hvector : Apart src bytes (Device.cpu.block place bytes staging) bytes) :
    ∃ m', copy_across_devices place m src_device src dst_device dst bytes staging = some m' ∧
      m'.load dst bytes = m.load src bytes ∧
      ∀ q k, Apart q k dst bytes → Apart q k (Device.cpu.block place bytes staging) bytes →
        m'.load q k = m.load q k := by
  unfold copy_across_devices
  split_ifs with hsrc_cpu hdst_cpu
  · have hhost : At .host src bytes := by
      cases src_device with
      | cpu => exact hsrc
      | cuda device_id_ => cases hsrc_cpu
    obtain ⟨m', hm', hload, hkeep⟩ := Device.memcpy_eq_some (d := dst_device) (m := m) hdst hhost
    exact ⟨m', hm', hload, fun q k hq _ => hkeep q k hq⟩
  · have hhost : At .host dst bytes := by
      cases dst_device with
      | cpu => exact hdst
      | cuda device_id_ => cases hdst_cpu
    obtain ⟨m', hm', hload, hkeep⟩ := Device.memcpy_eq_some (d := src_device) (m := m) hhost hsrc
    exact ⟨m', hm', hload, fun q k hq _ => hkeep q k hq⟩
  · have hstaging : At .host (Device.cpu.block place bytes staging) bytes :=
      Device.at_block place .cpu bytes staging
    obtain ⟨m₁, hm₁, hload₁, hkeep₁⟩ := Device.memcpy_eq_some (d := src_device)
      (m := (Device.cpu.allocate place m bytes staging).2) hstaging hsrc
    obtain ⟨m₂, hm₂, hload₂, hkeep₂⟩ := Device.memcpy_eq_some (d := dst_device) (m := m₁) hdst
      hstaging
    refine ⟨m₂, ?_, ?_, ?_⟩
    · simp only [Device.copy_to_host, Device.copy_to_device, Device.allocate_fst, hm₁,
        Option.bind_some, hm₂]
    · rw [hload₂, hload₁, Device.load_allocate hvector]
    · intro q k hq hqv
      rw [hkeep₂ q k hq, hkeep₁ q k hqv, Device.load_allocate hqv]

namespace DeviceTensor

/-! ## Calls -/

inductive Transfer
  | clone
  | «to» (target_device : Device)
  deriving DecidableEq

/-- A call, the address of its new block, and the address of the vector. -/
structure TransferCall where
  transfer : Transfer
  addr : Nat
  staging : Nat

/-- The device of the new tensor. -/
def Transfer.target (d : Device) : Transfer → Device
  | .clone => d
  | .«to» target_device => target_device

/-- The state is the last tensor, and the memories. -/
def call (place : Nat → Nat) (s : DeviceTensor × DeviceMemory) (c : TransferCall) :
    Option (DeviceTensor × DeviceMemory) :=
  match c.transfer with
  | .clone => clone place s.2 s.1 c.addr c.staging
  | .«to» target_device => «to» place s.2 s.1 target_device c.addr c.staging

/-- What the system promises on the new block and on the vector: they are apart from the first
tensor and from the last one. -/
def FreshCall (place : Nat → Nat) (x : DeviceTensor) (s : DeviceTensor × DeviceMemory)
    (c : TransferCall) : Prop :=
  let n := s.1.bytes
  let b := (c.transfer.target s.1.device_).block place n c.addr
  let v := Device.cpu.block place n c.staging
  Apart x.data x.bytes b n ∧ Apart s.1.data n b n ∧
    Apart x.data x.bytes v n ∧ Apart s.1.data n v n

instance (place : Nat → Nat) (x : DeviceTensor) (s : DeviceTensor × DeviceMemory)
    (c : TransferCall) : Decidable (FreshCall place x s c) :=
  inferInstanceAs (Decidable (_ ∧ _ ∧ _ ∧ _))

/-- The tensor has the shape, the type and the bytes that `x` had in the memories `m`, on its
device, and `x` has them still. -/
structure Transferred (place : Nat → Nat) (x : DeviceTensor) (m : DeviceMemory)
    (s : DeviceTensor × DeviceMemory) : Prop where
  resident : s.1.Resident place
  shape_ : s.1.shape_ = x.shape_
  dtype_ : s.1.dtype_ = x.dtype_
  bytes : s.2.load s.1.data s.1.bytes = m.load x.data x.bytes
  unchanged : s.2.load x.data x.bytes = m.load x.data x.bytes

variable {x t : DeviceTensor}

/-- The new tensor of a call, and the memories before its copy. -/
theorem make_eq (ht : t.Resident place) (d : Device) (addr : Nat) :
    make place m t.shape_ t.dtype_ d addr =
      (⟨t.shape_, t.dtype_, .kContiguous, d, d.block place t.bytes addr, t.bytes⟩,
        (d.allocate place m t.bytes addr).2) := by
  simp only [make, ← ht.bytes, Device.allocate_fst]

/-- The copy of a call is within the device when the new tensor is on the device of the old one, and
across the devices otherwise. -/
theorem call_eq (ht : t.Resident place) (c : TransferCall) :
    call place (t, m) c =
      (if c.transfer.target t.device_ = t.device_ then
        t.device_.copy_within place (t.device_.allocate place m t.bytes c.addr).2
          (t.device_.block place t.bytes c.addr) t.data t.bytes
      else
        copy_across_devices place
          ((c.transfer.target t.device_).allocate place m t.bytes c.addr).2 t.device_ t.data
          (c.transfer.target t.device_) ((c.transfer.target t.device_).block place t.bytes c.addr)
          t.bytes c.staging).map
        fun m' => (⟨t.shape_, t.dtype_, .kContiguous, c.transfer.target t.device_,
          (c.transfer.target t.device_).block place t.bytes c.addr, t.bytes⟩, m') := by
  obtain ⟨transfer, addr, staging⟩ := c
  cases transfer with
  | clone => simp [call, clone, copy_from, make_eq ht, Transfer.target]
  | «to» target_device =>
    simp only [call, «to», copy_from, make_eq ht, Transfer.target, Device.eq_iff]
    by_cases hd : t.device_ = target_device
    · subst hd
      simp
    · have hd' : ¬ target_device = t.device_ := fun h => hd h.symm
      simp [hd, hd']

/-- A call fills its new block with the bytes of the tensor, and changes no other block that is
apart from the vector too. -/
theorem call_eq_some (ht : t.Resident place) {c : TransferCall}
    (hnew : Apart t.data t.bytes
      ((c.transfer.target t.device_).block place t.bytes c.addr) t.bytes)
    (hvector : Apart t.data t.bytes (Device.cpu.block place t.bytes c.staging) t.bytes) :
    ∃ m', call place (t, m) c =
        some (⟨t.shape_, t.dtype_, .kContiguous, c.transfer.target t.device_,
          (c.transfer.target t.device_).block place t.bytes c.addr, t.bytes⟩, m') ∧
      m'.load ((c.transfer.target t.device_).block place t.bytes c.addr) t.bytes =
        m.load t.data t.bytes ∧
      ∀ q k, Apart q k ((c.transfer.target t.device_).block place t.bytes c.addr) t.bytes →
        Apart q k (Device.cpu.block place t.bytes c.staging) t.bytes →
          m'.load q k = m.load q k := by
  rw [call_eq ht]
  generalize c.transfer.target t.device_ = d at hnew ⊢
  have hblock := Device.at_block place d t.bytes c.addr
  split_ifs with hd
  · subst hd
    obtain ⟨m', hm', hload, hkeep⟩ := Device.memcpy_eq_some (d := t.device_)
      (m := (t.device_.allocate place m t.bytes c.addr).2) hblock ht.data
    refine ⟨m', by rw [Device.copy_within, hm']; rfl, hload.trans (Device.load_allocate hnew), ?_⟩
    intro q k hq _
    rw [hkeep q k hq, Device.load_allocate hq]
  · obtain ⟨m', hm', hload, hkeep⟩ := copy_across_devices_eq_some
      (m := (d.allocate place m t.bytes c.addr).2) ht.data hblock hvector
    refine ⟨m', by rw [hm']; rfl, hload.trans (Device.load_allocate hnew), ?_⟩
    intro q k hq hqv
    rw [hkeep q k hq hqv, Device.load_allocate hq]

/-! ## Chains -/

theorem Transferred.step {s : DeviceTensor × DeviceMemory} {c : TransferCall}
    (h : Transferred place x m s) (hfresh : FreshCall place x s c) :
    ∃ s', call place s c = some s' ∧ Transferred place x m s' := by
  obtain ⟨t, m₀⟩ := s
  obtain ⟨hxnew, hnew, hxvector, hvector⟩ := hfresh
  obtain ⟨m', hcall, hload, hkeep⟩ := call_eq_some h.resident hnew hvector
  refine ⟨_, hcall, ?_⟩
  constructor
  · exact ⟨h.resident.bytes, Device.at_block place _ t.bytes c.addr⟩
  · exact h.shape_
  · exact h.dtype_
  · exact hload.trans h.bytes
  · exact (hkeep x.data x.bytes hxnew hxvector).trans h.unchanged

/-- The device that a chain of calls ends on. -/
def last_device (d : Device) (calls : List TransferCall) : Device :=
  calls.foldl (fun d c => c.transfer.target d) d

theorem device_of_call {s s' : DeviceTensor × DeviceMemory} {c : TransferCall}
    (h : call place s c = some s') : s'.1.device_ = c.transfer.target s.1.device_ := by
  obtain ⟨transfer, addr, staging⟩ := c
  cases transfer with
  | clone =>
    obtain ⟨m', -, rfl⟩ := Option.map_eq_some_iff.mp h
    rfl
  | «to» target_device =>
    simp only [call, «to»] at h
    split_ifs at h <;>
    · obtain ⟨m', -, rfl⟩ := Option.map_eq_some_iff.mp h
      rfl

theorem device_of_run {s s' : DeviceTensor × DeviceMemory} {calls : List TransferCall}
    (h : Transition.run (call place) s calls = some s') :
    s'.1.device_ = last_device s.1.device_ calls := by
  induction calls generalizing s with
  | nil =>
    cases h
    rfl
  | cons c calls ih =>
    obtain ⟨u, hu, hrest⟩ := (Transition.run_cons ..).mp h
    rw [ih hrest, device_of_call hu]
    rfl

/-- A tensor goes through every chain of transfers with its shape, its type and its bytes, stays as
it was, and no copy of the chain gets a pointer to a wrong space. -/
theorem transfers_keep_the_tensor (hx : x.Resident place) {calls : List TransferCall}
    (hfresh : Transition.Meets (call place) (FreshCall place x) (x, m) calls) :
    ∃ t m', Transition.run (call place) (x, m) calls = some (t, m') ∧
      t.device_ = last_device x.device_ calls ∧ t.shape_ = x.shape_ ∧ t.dtype_ = x.dtype_ ∧
      m'.load t.data t.bytes = m.load x.data x.bytes ∧
      m'.load x.data x.bytes = m.load x.data x.bytes := by
  have hstart : Transferred place x m (x, m) := ⟨hx, rfl, rfl, rfl, rfl⟩
  obtain ⟨s', hrun, h⟩ := Transition.exists_run_of_meets
    (fun s c (hs : Transferred place x m s) hc => hs.step hc) hstart hfresh
  exact ⟨s'.1, s'.2, hrun, device_of_run hrun, h.shape_, h.dtype_, h.bytes, h.unchanged⟩

/-- Out to a CUDA device, over to a second one, and back. -/
def roundTrip : List TransferCall :=
  [⟨.«to» (.cuda 0), 200, 300⟩, ⟨.clone, 400, 300⟩, ⟨.«to» (.cuda 1), 200, 300⟩,
    ⟨.«to» .cpu, 500, 300⟩]

theorem a_round_trip_keeps_the_tensor :
    ∃ t m',
      Transition.run (call fun n => n) (bytesOn .cpu .host, counting) roundTrip = some (t, m') ∧
      t.device_ = .cpu ∧ t.shape_ = ⟨[4]⟩ ∧ t.dtype_ = .kInt8 ∧
      m'.load t.data t.bytes = [100, 101, 102, 103] ∧
      m'.load (bytesOn .cpu .host).data 4 = [100, 101, 102, 103] :=
  transfers_keep_the_tensor (resident_bytesOn .cpu _) (by decide)

end DeviceTensor

end sci
