-- Tensors on the CPU and on CUDA devices, and the functions that copy them
-- (include/device/device.hpp, src/device/device.cpp, src/device/cuda_device.cpp,
-- src/tensor/tensor.cpp). Each device has a memory of its own. A copy whose pointers are not
-- where its direction says is undefined, and gives `none` here. All devices are available,
-- and all allocations succeed, at addresses that are given.
import Scicompute.TensorViews

namespace sci

/-! ## Memories and pointers -/

inductive Space
  | host
  | cuda (n : Nat)
  deriving DecidableEq

structure DevicePointer where
  space : Space
  address : Nat
  deriving DecidableEq

abbrev DeviceMemory := Space → Nat → UInt8

namespace DeviceMemory

/-- The bytes of a block. A null pointer has none. -/
def load (m : DeviceMemory) : Option DevicePointer → Nat → List UInt8
  | none, _ => []
  | some p, n => BlockMemory.load (m p.space) p.address n

def copy (m : DeviceMemory) (dst src : DevicePointer) (n : Nat) : DeviceMemory :=
  Function.update m dst.space fun a =>
    if dst.address ≤ a ∧ a < dst.address + n then m src.space (src.address + (a - dst.address))
    else m dst.space a

def fill (m : DeviceMemory) (dst : DevicePointer) (n : Nat) (b : UInt8) : DeviceMemory :=
  Function.update m dst.space (BlockMemory.fill (m dst.space) dst.address n b)

/-- The blocks have no byte in common. -/
def Apart (p : Option DevicePointer) (n : Nat) (q : Option DevicePointer) (k : Nat) : Prop :=
  ∀ a ∈ p, ∀ b ∈ q, a.space = b.space → BlockMemory.Apart a.address n b.address k

instance (p : Option DevicePointer) (n : Nat) (q : Option DevicePointer) (k : Nat) :
    Decidable (Apart p n q k) :=
  inferInstanceAs (Decidable (∀ a ∈ p, ∀ b ∈ q, _ → _))

/-- The pointer to a block of a space. It may be any pointer when the block is empty. -/
def At (space : Space) (p : Option DevicePointer) (n : Nat) : Prop :=
  n ≠ 0 → ∃ a, p = some ⟨space, a⟩

variable {m : DeviceMemory} {dst src : DevicePointer} {p q : Option DevicePointer} {n k : Nat}

theorem load_zero (m : DeviceMemory) (p : Option DevicePointer) : m.load p 0 = [] := by
  cases p <;> rfl

theorem load_copy (m : DeviceMemory) (dst src : DevicePointer) (n : Nat) :
    (m.copy dst src n).load (some dst) n = m.load (some src) n := by
  simp only [load, copy, Function.update_self]
  apply List.map_congr_left
  intro j hj
  have hlt := List.mem_range.mp hj
  have hin : dst.address ≤ dst.address + j ∧ dst.address + j < dst.address + n := by omega
  have hback : dst.address + j - dst.address = j := by omega
  simp only [hin, and_self, if_true, hback]

/-- A write to a block leaves the others as they were. -/
theorem load_update_of_apart {f : Nat → UInt8} (h : Apart q k (some dst) n)
    (hf : ∀ a, ¬ (dst.address ≤ a ∧ a < dst.address + n) → f a = m dst.space a) :
    load (Function.update m dst.space f) q k = m.load q k := by
  cases q with
  | none => rfl
  | some q =>
    simp only [load]
    by_cases hs : q.space = dst.space
    · have hapart := h q rfl dst rfl hs
      rw [hs, Function.update_self]
      apply BlockMemory.load_congr
      intro j hj
      unfold BlockMemory.Apart at hapart
      exact hf _ (by omega)
    · rw [Function.update_of_ne hs]

theorem load_copy_of_apart (src : DevicePointer) (h : Apart q k (some dst) n) :
    (m.copy dst src n).load q k = m.load q k :=
  load_update_of_apart h fun _ ha => if_neg ha

theorem load_fill_of_apart (b : UInt8) (h : Apart q k (some dst) n) :
    (m.fill dst n b).load q k = m.load q k :=
  load_update_of_apart h fun _ ha => BlockMemory.fill_of_outside _ b ha

end DeviceMemory

open DeviceMemory (At Apart)

/-! ## Devices -/

/-- The CPU device, and the CUDA devices by their ids. -/
inductive Device
  | cpu
  | cuda (device_id_ : Nat)
  deriving DecidableEq

namespace Device

def type : Device → DeviceType
  | cpu => .kCPU
  | cuda _ => .kCUDA

def id : Device → Int
  | cpu => -1
  | cuda device_id_ => device_id_

theorem eq_iff {d e : Device} : d.type = e.type ∧ d.id = e.id ↔ d = e := by
  cases d <;> cases e <;> simp [type, id]

/-- The memory in which a device allocates: `cudaMalloc` for the device `id` gives a pointer to the
memory `place id`. -/
def space (place : Nat → Nat) : Device → Space
  | cpu => .host
  | cuda device_id_ => .cuda (place device_id_)

/-- The pointer that `allocate(bytes)` returns. -/
def block (place : Nat → Nat) (d : Device) (bytes addr : Nat) : Option DevicePointer :=
  if bytes = 0 then none else some ⟨d.space place, addr⟩

/-- `CPUDevice::allocate` sets the bytes to 0. -/
def allocate (place : Nat → Nat) (d : Device) (m : DeviceMemory) (bytes addr : Nat) :
    Option DevicePointer × DeviceMemory :=
  match d.block place bytes addr with
  | none => (none, m)
  | some p =>
    match d with
    | cpu => (some p, m.fill p bytes 0)
    | cuda _ => (some p, m)

/-- `memcpy` or `cudaMemcpy` to one space from another. The CUDA devices do nothing when a pointer
is null. -/
def memcpy (d : Device) (m : DeviceMemory) (toSpace fromSpace : Space)
    (dst src : Option DevicePointer) (bytes : Nat) : Option DeviceMemory :=
  if bytes = 0 then some m
  else
    match d, dst, src with
    | _, some dst, some src =>
      if dst.space = toSpace ∧ src.space = fromSpace then some (m.copy dst src bytes) else none
    | cpu, _, _ => none
    | cuda _, _, _ => some m

def copy_to_device (place : Nat → Nat) (d : Device) (m : DeviceMemory)
    (dst src : Option DevicePointer) (bytes : Nat) : Option DeviceMemory :=
  d.memcpy m (d.space place) .host dst src bytes

def copy_to_host (place : Nat → Nat) (d : Device) (m : DeviceMemory)
    (dst src : Option DevicePointer) (bytes : Nat) : Option DeviceMemory :=
  d.memcpy m .host (d.space place) dst src bytes

def copy_within (place : Nat → Nat) (d : Device) (m : DeviceMemory) (dst src : Option DevicePointer)
    (bytes : Nat) : Option DeviceMemory :=
  d.memcpy m (d.space place) (d.space place) dst src bytes

variable {place : Nat → Nat} {d : Device} {m : DeviceMemory} {bytes addr : Nat}

theorem at_block (place : Nat → Nat) (d : Device) (bytes addr : Nat) :
    At (d.space place) (d.block place bytes addr) bytes := by
  intro hn
  exact ⟨addr, if_neg hn⟩

theorem allocate_fst (place : Nat → Nat) (d : Device) (m : DeviceMemory) (bytes addr : Nat) :
    (d.allocate place m bytes addr).1 = d.block place bytes addr := by
  unfold allocate
  cases d.block place bytes addr with
  | none => rfl
  | some p => cases d <;> rfl

theorem load_allocate {q : Option DevicePointer} {k : Nat}
    (h : Apart q k (d.block place bytes addr) bytes) :
    (d.allocate place m bytes addr).2.load q k = m.load q k := by
  unfold allocate
  cases hb : d.block place bytes addr with
  | none => rfl
  | some p =>
    rw [hb] at h
    cases d with
    | cpu => exact DeviceMemory.load_fill_of_apart 0 h
    | cuda device_id_ => rfl

/-- A copy between blocks of the spaces that it is for. -/
theorem memcpy_eq_some {toSpace fromSpace : Space} {dst src : Option DevicePointer}
    (hdst : At toSpace dst bytes) (hsrc : At fromSpace src bytes) :
    ∃ m', d.memcpy m toSpace fromSpace dst src bytes = some m' ∧
      m'.load dst bytes = m.load src bytes ∧
      ∀ q k, Apart q k dst bytes → m'.load q k = m.load q k := by
  unfold memcpy
  by_cases hn : bytes = 0
  · subst hn
    rw [if_pos rfl]
    exact ⟨m, rfl, by rw [DeviceMemory.load_zero, DeviceMemory.load_zero], fun _ _ _ => rfl⟩
  · obtain ⟨a, rfl⟩ := hdst hn
    obtain ⟨b, rfl⟩ := hsrc hn
    rw [if_neg hn]
    refine ⟨m.copy ⟨toSpace, a⟩ ⟨fromSpace, b⟩ bytes, ?_, DeviceMemory.load_copy m _ _ bytes,
      fun q k hq => DeviceMemory.load_copy_of_apart _ hq⟩
    simp

/-- A copy of bytes that are in another space. -/
theorem memcpy_eq_none {toSpace fromSpace space : Space} {dst src : Option DevicePointer}
    (hn : bytes ≠ 0) (hdst : At toSpace dst bytes) (hsrc : At space src bytes)
    (hne : space ≠ fromSpace) : d.memcpy m toSpace fromSpace dst src bytes = none := by
  obtain ⟨a, rfl⟩ := hdst hn
  obtain ⟨b, rfl⟩ := hsrc hn
  unfold memcpy
  simp [hn, hne]

/-- A new block gets the bytes of a source by `copy_to_device` exactly when the source is on the
host, or empty. -/
theorem copy_to_device_new_iff {space : Space} {src : Option DevicePointer}
    (hsrc : At space src bytes)
    (hfresh : Apart src bytes (d.block place bytes addr) bytes) :
    (∃ m', d.copy_to_device place (d.allocate place m bytes addr).2 (d.block place bytes addr) src
        bytes = some m' ∧ m'.load (d.block place bytes addr) bytes = m.load src bytes) ↔
      space = .host ∨ bytes = 0 := by
  have hdst := at_block place d bytes addr
  unfold copy_to_device
  constructor
  · rintro ⟨m', hsome, -⟩
    by_contra hnot
    rw [not_or] at hnot
    rw [memcpy_eq_none hnot.2 hdst hsrc hnot.1] at hsome
    cases hsome
  · intro hright
    have hhost : At .host src bytes := by
      rcases hright with rfl | hn
      · exact hsrc
      · exact fun h => absurd hn h
    obtain ⟨m', hm', hload, -⟩ := memcpy_eq_some (d := d)
      (m := (d.allocate place m bytes addr).2) hdst hhost
    exact ⟨m', hm', hload.trans (load_allocate hfresh)⟩

theorem space_eq_host_iff : d.space place = .host ↔ d = cpu := by
  cases d <;> simp [space]

end Device

/-- `DeviceManager::get_device`: no device is of the type `kCPUPinned`. -/
def get_device : DeviceType → Nat → Option Device
  | .kCPU, _ => some .cpu
  | .kCUDA, id => some (.cuda id)
  | .kCPUPinned, _ => none

/-! ## Tensors -/

/-- `data` and `bytes` are those of `buffer_`. -/
structure DeviceTensor where
  shape_ : TensorShape
  dtype_ : DType
  layout_ : Layout
  device_ : Device
  data : Option DevicePointer
  bytes : Nat
  deriving DecidableEq

namespace DeviceTensor

/-- `Tensor(shape, dtype, device)`. -/
def make (place : Nat → Nat) (m : DeviceMemory) (shape : TensorShape) (dtype : DType)
    (device : Device) (addr : Nat) : DeviceTensor × DeviceMemory :=
  let bytes := shape.num_elements * kDTypeSize dtype
  let r := device.allocate place m bytes addr
  (⟨shape, dtype, .kContiguous, device, r.1, bytes⟩, r.2)

/-- `Tensor(const Tensor&)`. -/
def copy_construct (place : Nat → Nat) (m : DeviceMemory) (other : DeviceTensor) (addr : Nat) :
    Option (DeviceTensor × DeviceMemory) :=
  match other.data with
  | none => some ({ other with data := none, bytes := 0 }, m)
  | some src =>
    let r := other.device_.allocate place m other.bytes addr
    (other.device_.copy_to_device place r.2 r.1 (some src) other.bytes).map fun m' =>
      ({ other with data := r.1 }, m')

/-- `operator=(const Tensor&)`: the tensor gets the members of `tmp`. `self` says that `other` is
the tensor itself. -/
def copy_assign (place : Nat → Nat) (m : DeviceMemory) (self : Bool) (other : DeviceTensor)
    (addr : Nat) : Option (DeviceTensor × DeviceMemory) :=
  if self then some (other, m) else copy_construct place m other addr

/-- `TensorView::clone`, of a view of this tensor. -/
def clone_view (place : Nat → Nat) (m : DeviceMemory) (t : DeviceTensor) (v : TensorView)
    (addr : Nat) : Option (DeviceTensor × DeviceMemory) :=
  match get_device v.device_ 0 with
  | none => none
  | some device =>
    let r := make place m v.shape_ v.dtype_ device addr
    (device.copy_to_device place r.2 r.1.data (some ⟨t.device_.space place, v.data_⟩)
      v.num_bytes).map fun m' => (r.1, m')

/-- The tensor as its views see it. -/
def viewed (t : DeviceTensor) : Tensor :=
  ⟨t.shape_, t.dtype_, t.layout_, t.device_.type, (t.data.map DevicePointer.address).getD 0⟩

/-- The buffer holds the elements of the tensor, on its device. -/
structure Resident (place : Nat → Nat) (t : DeviceTensor) : Prop where
  bytes : t.bytes = t.shape_.num_elements * kDTypeSize t.dtype_
  data : At (t.device_.space place) t.data t.bytes

/-- The view has its bytes in the buffer of the tensor. -/
structure HasView (t : DeviceTensor) (v : TensorView) : Prop where
  device : v.device_ = t.device_.type
  low : t.viewed.data ≤ v.data_
  high : v.data_ + v.num_bytes ≤ t.viewed.data + t.bytes

variable {place : Nat → Nat} {m : DeviceMemory} {t : DeviceTensor}

/-- The calls of a tensor return views that have their bytes in its buffer. -/
theorem hasView_call (ht : t.Resident place) (c : ViewCall) (hc : c.Allowed t.viewed) :
    t.HasView (t.viewed.call c) := by
  obtain ⟨hlow, hhigh⟩ := t.viewed.call_in_bounds c hc
  refine ⟨by cases c <;> rfl, hlow, ?_⟩
  rw [ht.bytes]
  exact hhigh

/-! ## Deep copies -/

/-- The functions that copy a tensor, or a view of it. -/
inductive DeepCopy
  | copy_construct
  | copy_assign (self : Bool)
  | clone_view (v : TensorView)

/-- The copy of `t` that a function makes, with its new block at `addr`. -/
def copied (place : Nat → Nat) (m : DeviceMemory) (t : DeviceTensor) (addr : Nat) :
    DeepCopy → Option (DeviceTensor × DeviceMemory)
  | .copy_construct => copy_construct place m t addr
  | .copy_assign self => copy_assign place m self t addr
  | .clone_view v => clone_view place m t v addr

/-- The pointer to what is copied, and the bytes. -/
def source (place : Nat → Nat) (t : DeviceTensor) : DeepCopy → Option DevicePointer × Nat
  | .clone_view v => (some ⟨t.device_.space place, v.data_⟩, v.num_bytes)
  | _ => (t.data, t.bytes)

/-- The copy is made, on the device of the tensor, with the bytes of the source. -/
def IsCopied (place : Nat → Nat) (m : DeviceMemory) (t : DeviceTensor) (addr : Nat) (c : DeepCopy) :
    Prop :=
  ∃ t' m', t.copied place m addr c = some (t', m') ∧ t'.device_ = t.device_ ∧
    t'.Resident place ∧ t'.bytes = (t.source place c).2 ∧
    m'.load t'.data t'.bytes = m.load (t.source place c).1 (t.source place c).2

/-- The condition on a copy: the tensor is on the CPU, or no bytes are copied, and then a clone of a
view is one on the first CUDA device; or the tensor is assigned to itself. -/
def CopiesRight (t : DeviceTensor) : DeepCopy → Prop
  | .copy_construct => t.device_ = .cpu ∨ t.bytes = 0
  | .copy_assign self => self = true ∨ t.device_ = .cpu ∨ t.bytes = 0
  | .clone_view v => t.device_ = .cpu ∨ (t.device_ = .cuda 0 ∧ v.num_bytes = 0)

theorem resident_make {m : DeviceMemory} {shape : TensorShape} {dtype : DType} {device : Device}
    {addr : Nat} : (make place m shape dtype device addr).1.Resident place where
  bytes := rfl
  data := by
    simp only [make, Device.allocate_fst]
    exact Device.at_block place device _ addr

/-- A copy constructor needs the bytes on the host. -/
theorem isCopied_construct_iff (ht : t.Resident place) {addr : Nat}
    (hfresh : Apart t.data t.bytes (t.device_.block place t.bytes addr) t.bytes) :
    IsCopied place m t addr .copy_construct ↔ t.CopiesRight .copy_construct := by
  have hiff := Device.copy_to_device_new_iff (m := m) ht.data hfresh
  rw [Device.space_eq_host_iff] at hiff
  unfold CopiesRight
  rw [← hiff]
  cases hd : t.data with
  | none =>
    have hn : t.bytes = 0 := by
      by_contra hn
      obtain ⟨a, ha⟩ := ht.data hn
      rw [hd] at ha
      cases ha
    simp only [hd] at hiff
    have hright := hiff.mpr (Or.inr hn)
    simp only [hright, iff_true]
    refine ⟨{ t with data := none, bytes := 0 }, m, ?_, rfl, ⟨hn ▸ ht.bytes, ?_⟩, hn.symm, ?_⟩
    · simp [copied, copy_construct, hd]
    · exact fun h => absurd rfl h
    · simp only [source, hn, DeviceMemory.load_zero]
  | some src =>
    have hcopied : t.copied place m addr .copy_construct =
        (t.device_.copy_to_device place (t.device_.allocate place m t.bytes addr).2
          (t.device_.block place t.bytes addr) (some src) t.bytes).map fun m' =>
            ({ t with data := t.device_.block place t.bytes addr }, m') := by
      simp [copied, copy_construct, hd, Device.allocate_fst]
    constructor
    · rintro ⟨t', m', hsome, -, -, -, hload⟩
      rw [hcopied, Option.map_eq_some_iff] at hsome
      obtain ⟨m'', hm'', he⟩ := hsome
      cases he
      exact ⟨m', hm'', by rw [← hd]; exact hload⟩
    · rintro ⟨m', hm', hload⟩
      refine ⟨{ t with data := t.device_.block place t.bytes addr }, m', ?_, rfl, ⟨ht.bytes, ?_⟩,
        rfl, ?_⟩
      · rw [hcopied, hm']
        rfl
      · exact Device.at_block place t.device_ t.bytes addr
      · rw [← hd] at hload
        exact hload

/-- A clone of a view needs the bytes on the host, and is on the first CUDA device or the CPU. -/
theorem isCopied_clone_view_iff {v : TensorView} (hv : t.HasView v) {addr : Nat}
    (hfresh : ∀ d, get_device v.device_ 0 = some d →
      Apart (some ⟨t.device_.space place, v.data_⟩) v.num_bytes (d.block place v.num_bytes addr)
        v.num_bytes) :
    IsCopied place m t addr (.clone_view v) ↔ t.CopiesRight (.clone_view v) := by
  have hsource : At (t.device_.space place) (some ⟨t.device_.space place, v.data_⟩) v.num_bytes :=
    fun _ => ⟨v.data_, rfl⟩
  have hdevice : ∃ d, get_device v.device_ 0 = some d ∧
      (d = t.device_ ↔ t.device_ = .cpu ∨ t.device_ = .cuda 0) := by
    rw [hv.device]
    cases t.device_ with
    | cpu => exact ⟨.cpu, rfl, by simp⟩
    | cuda device_id_ => exact ⟨.cuda 0, rfl, by simp [eq_comm]⟩
  obtain ⟨d, hd, hsame⟩ := hdevice
  have hiff := Device.copy_to_device_new_iff (m := m) hsource (hfresh d hd)
  rw [Device.space_eq_host_iff] at hiff
  have hcopied : t.copied place m addr (.clone_view v) =
      (d.copy_to_device place (d.allocate place m v.num_bytes addr).2
        (d.block place v.num_bytes addr) (some ⟨t.device_.space place, v.data_⟩)
        v.num_bytes).map fun m' => ((make place m v.shape_ v.dtype_ d addr).1, m') := by
    simp only [copied, clone_view, hd, make, Device.allocate_fst]
    rfl
  have hright : t.CopiesRight (.clone_view v) ↔
      (t.device_ = .cpu ∨ v.num_bytes = 0) ∧ d = t.device_ := by
    unfold CopiesRight
    rw [hsame]
    cases t.device_ <;> simp [and_comm]
  rw [hright, ← hiff]
  constructor
  · rintro ⟨t', m', hsome, hdev, -, -, hload⟩
    rw [hcopied, Option.map_eq_some_iff] at hsome
    obtain ⟨m'', hm'', he⟩ := hsome
    cases he
    refine ⟨⟨m', hm'', ?_⟩, hdev⟩
    change m'.load (d.allocate place m v.num_bytes addr).1 v.num_bytes = _ at hload
    rw [Device.allocate_fst] at hload
    exact hload
  · rintro ⟨⟨m', hm', hload⟩, hdev⟩
    refine ⟨_, m', by rw [hcopied, hm']; rfl, hdev, resident_make, rfl, ?_⟩
    simp only [make, Device.allocate_fst]
    exact hload

/-- The new block of a copy, and its bytes. -/
def newBlock (place : Nat → Nat) (t : DeviceTensor) (addr : Nat) :
    DeepCopy → Option DevicePointer × Nat
  | .clone_view v =>
    ((get_device v.device_ 0).bind (Device.block place · v.num_bytes addr), v.num_bytes)
  | _ => (t.device_.block place t.bytes addr, t.bytes)

/-- What is copied is the tensor, or a view of it. -/
def DeepCopy.Of (t : DeviceTensor) : DeepCopy → Prop
  | .clone_view v => t.HasView v
  | _ => True

/-- A block that is apart from the tensor is apart from its views. -/
theorem apart_view (ht : t.Resident place) {v : TensorView} (hv : t.HasView v) {d : Device}
    {addr : Nat} (hfresh : Apart t.data t.bytes (d.block place v.num_bytes addr) v.num_bytes) :
    Apart (some ⟨t.device_.space place, v.data_⟩) v.num_bytes (d.block place v.num_bytes addr)
      v.num_bytes := by
  intro p hp b hb hs
  cases Option.mem_some.mp hp
  by_cases hn : v.num_bytes = 0
  · unfold Device.block at hb
    rw [if_pos hn] at hb
    cases hb
  · obtain ⟨hdevice, hlow, hhigh⟩ := hv
    by_cases hbytes : t.bytes = 0
    · omega
    · obtain ⟨a, ha⟩ := ht.data hbytes
      have hviewed : t.viewed.data = a := by simp [viewed, ha]
      have hapart : BlockMemory.Apart a t.bytes b.address v.num_bytes := hfresh _ ha b hb hs
      have hinside : a ≤ v.data_ ∧ v.data_ + v.num_bytes ≤ a + t.bytes := by omega
      exact hapart.mono hinside.1 hinside.2

/-- A deep copy of a tensor is made on its device, with its bytes, exactly when the tensor is on the
CPU, or no bytes are copied (and a clone of a view is one on the first CUDA device), or the tensor
is assigned to itself. -/
theorem deep_copies_are_right_iff (ht : t.Resident place) (c : DeepCopy) {addr : Nat} (hc : c.Of t)
    (hfresh : Apart t.data t.bytes (t.newBlock place addr c).1 (t.newBlock place addr c).2) :
    t.IsCopied place m addr c ↔ t.CopiesRight c := by
  cases c with
  | copy_construct => exact isCopied_construct_iff ht hfresh
  | copy_assign self =>
    cases self with
    | true =>
      simp only [CopiesRight, true_or, iff_true]
      exact ⟨t, m, rfl, rfl, ht, rfl, rfl⟩
    | false =>
      simp only [CopiesRight, Bool.false_eq_true, false_or]
      exact isCopied_construct_iff ht hfresh
  | clone_view v =>
    apply isCopied_clone_view_iff hc
    intro d hd
    simp only [newBlock, hd, Option.bind_some] at hfresh
    exact apart_view ht hc hfresh

/-- Four bytes on the CPU, and four on a CUDA device. -/
def bytesOn (d : Device) (space : Space) : DeviceTensor :=
  ⟨⟨[4]⟩, .kInt8, .kContiguous, d, some ⟨space, 100⟩, 4⟩

theorem resident_bytesOn (d : Device) (place : Nat → Nat) :
    (bytesOn d (d.space place)).Resident place :=
  ⟨rfl, fun _ => ⟨100, rfl⟩⟩

/-- Every byte is its address. -/
def counting : DeviceMemory := fun _ a => UInt8.ofNat a

/-- The clone of the last two bytes. -/
def cloneOfSlice (t : DeviceTensor) : DeepCopy := .clone_view (t.viewed.call (.slice 2 4))

theorem host_bytes_are_copied :
    (bytesOn .cpu .host).IsCopied (fun _ => 0) counting 200 .copy_construct ∧
      (bytesOn .cpu .host).IsCopied (fun _ => 0) counting 200 (cloneOfSlice (bytesOn .cpu .host)) := by
  have ht : (bytesOn .cpu .host).Resident fun _ => 0 := resident_bytesOn .cpu fun _ => 0
  constructor
  · exact (deep_copies_are_right_iff ht .copy_construct trivial (by decide)).mpr (Or.inl rfl)
  · have hview := hasView_call ht (.slice 2 4) (by decide)
    exact (deep_copies_are_right_iff ht (cloneOfSlice _) hview (by decide)).mpr (Or.inl rfl)

/-- `cudaMemcpy` gets the device's pointer as one to the host, and a clone of a view on the second
CUDA device is one on the first. -/
theorem device_bytes_are_not_copied :
    (bytesOn (.cuda 0) (.cuda 0)).copied (fun n => n) counting 200 .copy_construct = none ∧
    (bytesOn (.cuda 0) (.cuda 0)).copied (fun n => n) counting 200 (.copy_assign false) = none ∧
    (bytesOn (.cuda 1) (.cuda 1)).copied (fun n => n) counting 200
      (.clone_view (bytesOn (.cuda 1) (.cuda 1)).viewed.view) = none := by
  refine ⟨?_, ?_, ?_⟩ <;> rfl

end DeviceTensor

end sci
