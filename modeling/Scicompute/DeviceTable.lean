-- The devices of a `DeviceManager` (include/device/device.hpp, src/device/device.cpp,
-- 70-201). The default device is kept beside the table, and is set to whatever a lookup
-- gives. No callback is registered here: `NotifyDeviceEvent` has nobody to call.
import Mathlib.Data.List.AList
import Scicompute.Transition
import Scicompute.Tensor

open Transition

namespace sci.DeviceManager

/-- What `type()` and `id()` of each device give. -/
structure DeviceInfo (D : Type*) where
  type : D → DeviceType
  id : D → Int

/-- The members for devices. A `DeviceId` is a number below `2^32`. -/
structure Devices (D : Type*) where
  next_device_id_ : Nat
  cpu_device : D
  default_device : Option D
  default_type_ : DeviceType
  default_id_ : Int
  devices_ : AList (fun _ : Nat => D)

namespace Devices

variable {D : Type*}

/-- The devices of the table, in the order of its entries. -/
def all_devices (m : Devices D) : List D := m.devices_.entries.map Sigma.snd

/-- The constructor. -/
def start (cpu : D) : Devices D where
  next_device_id_ := 2
  cpu_device := cpu
  default_device := some cpu
  default_type_ := .kCPU
  default_id_ := 0
  devices_ := AList.singleton 1 cpu

/-- `order` is the order in which the loop meets the devices of the table. -/
def find_device (info : DeviceInfo D) (order : List D) (type : DeviceType) (id : Int) : Option D :=
  order.find? fun device => decide (info.type device = type) && decide (info.id device = id)

def num_devices (info : DeviceInfo D) (m : Devices D) (type : DeviceType) : Nat :=
  m.all_devices.countP fun device => decide (info.type device = type)

/-- The id that is handed out is `m.next_device_id_`, and 0 for a null pointer. -/
def RegisterDevice (m : Devices D) : Option D → Devices D
  | none => m
  | some device =>
    { m with next_device_id_ := (m.next_device_id_ + 1) % 2 ^ 32
             devices_ := m.devices_.insert m.next_device_id_ device }

/-- The registrations of a scan. -/
def RegisterAll (m : Devices D) (devices : List D) : Devices D :=
  devices.foldl (fun m device => m.RegisterDevice (some device)) m

/-- `created` are the devices that `CudaDevice::Create(0)`, `CudaDevice::Create(1)`, ... give
until one is null; it is empty without `SCI_USE_CUDA`. -/
def ScanDevices (info : DeviceInfo D) (m : Devices D) (created : List D) : Devices D :=
  if m.num_devices info .kCUDA = 0 then m.RegisterAll (created.take 64) else m

/-- What a lookup meets: the order of its two loops, and the devices of a scan. -/
structure Lookup (D : Type*) where
  before : List D
  created : List D
  after : List D

def get_device (info : DeviceInfo D) (m : Devices D) (type : DeviceType) (id : Int)
    (l : Lookup D) : Option D × Devices D :=
  if type = .kCPU then (some m.cpu_device, m)
  else
    match find_device info l.before type id with
    | some device => (some device, m)
    | none => (find_device info l.after type id, m.ScanDevices info l.created)

def set_default_device (info : DeviceInfo D) (m : Devices D) (type : DeviceType) (id : Int)
    (l : Lookup D) : Devices D :=
  let r := m.get_device info type id l
  { r.2 with default_device := r.1, default_type_ := type, default_id_ := id }

/-- The loops of a lookup meet the devices of the table, each once. -/
def Meets (info : DeviceInfo D) (m : Devices D) (l : Lookup D) : Prop :=
  l.before.Perm m.all_devices ∧ l.after.Perm (m.ScanDevices info l.created).all_devices

instance [DecidableEq D] (info : DeviceInfo D) (m : Devices D) (l : Lookup D) :
    Decidable (m.Meets info l) :=
  inferInstanceAs (Decidable (_ ∧ _))

section
variable [DecidableEq D]

def UnregisterDevice (m : Devices D) (id : Nat) : Bool × Devices D :=
  match m.devices_.lookup id with
  | none => (false, m)
  | some device =>
    if device = m.cpu_device then (false, m)
    else
      let m := { m with devices_ := m.devices_.erase id }
      if m.default_device = some device then
        (true, { m with default_device := some m.cpu_device, default_type_ := .kCPU,
                        default_id_ := 0 })
      else (true, m)

inductive Call (D : Type*)
  | RegisterDevice (device : Option D)
  | UnregisterDevice (id : Nat)
  | set_default_device (type : DeviceType) (id : Int) (l : Lookup D)
  | get_device (type : DeviceType) (id : Int) (l : Lookup D)

def call (info : DeviceInfo D) (m : Devices D) : Call D → Option (Devices D)
  | .RegisterDevice device => some (m.RegisterDevice device)
  | .UnregisterDevice id => some (m.UnregisterDevice id).2
  | .set_default_device type id l =>
    if m.Meets info l then some (m.set_default_device info type id l) else none
  | .get_device type id l =>
    if m.Meets info l then some (m.get_device info type id l).2 else none

end

/-! ## What the calls promise -/

/-- There is a device of this type and id in the list. -/
def Lists (info : DeviceInfo D) (devices : List D) (type : DeviceType) (id : Int) : Prop :=
  ∃ device ∈ devices, info.type device = type ∧ info.id device = id

/-- The type and id name a device: the CPU device, by its id or by the id 0 that `default_id_` has
for it, a device of the table, or one of a scan, which there is while the table has no CUDA
device. -/
def Available (info : DeviceInfo D) (m : Devices D) (type : DeviceType) (id : Int)
    (created : List D) : Prop :=
  type = .kCPU ∧ (id = info.id m.cpu_device ∨ id = 0) ∨ Lists info m.all_devices type id ∨
    m.num_devices info .kCUDA = 0 ∧ Lists info (created.take 64) type id

/-- The default device is the CPU device or a registered one. -/
def DefaultAvailable (m : Devices D) : Prop :=
  ∃ device, m.default_device = some device ∧ (device = m.cpu_device ∨ device ∈ m.all_devices)

/-- A `set_default_device` that names no available device leaves the default device as it is. -/
def LeavesDefault (info : DeviceInfo D) (m : Devices D) : Call D → Prop
  | .set_default_device type id l => ¬ m.Available info type id l.created →
      (m.set_default_device info type id l).default_device = m.default_device
  | _ => True

/-- The id that is handed out next is not the last one of the default device, unless that is the
CPU device, or the device that is registered. -/
def Spares (m : Devices D) (device : D) : Prop :=
  ∀ e, m.default_device = some e →
    e = m.cpu_device ∨ e = device ∨
      ∃ x ∈ m.devices_.entries, x.1 ≠ m.next_device_id_ ∧ x.2 = e

def SparesAll : Devices D → List D → Prop
  | _, [] => True
  | m, device :: l => m.Spares device ∧ SparesAll (m.RegisterDevice (some device)) l

/-- The condition on a call: a device that is made the default is available, or the default is the
CPU device and stays it, and a registration, also in a scan, spares the default device. -/
def Keeps (info : DeviceInfo D) (m : Devices D) : Call D → Prop
  | .RegisterDevice device => ∀ d, device = some d → m.Spares d
  | .UnregisterDevice _ => True
  | .set_default_device type id l => m.Available info type id l.created ∨
      type = .kCPU ∧ m.default_device = some m.cpu_device
  | .get_device type id l => type ≠ .kCPU → ¬ Lists info m.all_devices type id →
      m.num_devices info .kCUDA = 0 → m.SparesAll (l.created.take 64)

section
variable [DecidableEq D]

instance (m : Devices D) : Decidable m.DefaultAvailable :=
  decidable_of_iff
    (m.default_device.any fun d => decide (d = m.cpu_device ∨ d ∈ m.all_devices))
    (by unfold DefaultAvailable; cases m.default_device <;> simp)

instance (info : DeviceInfo D) (devices : List D) (type : DeviceType) (id : Int) :
    Decidable (Lists info devices type id) :=
  inferInstanceAs (Decidable (∃ _ ∈ _, _))

instance (info : DeviceInfo D) (m : Devices D) (type : DeviceType) (id : Int) (created : List D) :
    Decidable (m.Available info type id created) :=
  inferInstanceAs (Decidable (_ ∨ _))

instance (m : Devices D) (device : D) : Decidable (m.Spares device) :=
  decidable_of_iff
    (m.default_device.all fun e => decide (e = m.cpu_device ∨ e = device ∨
      ∃ x ∈ m.devices_.entries, x.1 ≠ m.next_device_id_ ∧ x.2 = e))
    (by unfold Spares; cases m.default_device <;> simp)

instance decidableSparesAll : ∀ (m : Devices D) (l : List D), Decidable (m.SparesAll l)
  | _, [] => isTrue trivial
  | m, device :: l =>
    have := decidableSparesAll (m.RegisterDevice (some device)) l
    inferInstanceAs (Decidable (_ ∧ _))

instance (info : DeviceInfo D) (m : Devices D) : ∀ c, Decidable (m.Keeps info c)
  | .RegisterDevice device =>
    decidable_of_iff (device.all fun d => decide (m.Spares d))
      (by unfold Keeps; cases device <;> simp)
  | .UnregisterDevice _ => isTrue trivial
  | .set_default_device _ _ _ => inferInstanceAs (Decidable (_ ∨ _))
  | .get_device _ _ _ => inferInstanceAs (Decidable (_ → _ → _ → _))

end

variable {info : DeviceInfo D} {m : Devices D} {type : DeviceType} {id : Int} {l : Lookup D}

/-! ## The table -/

theorem mem_all_devices {device : D} :
    device ∈ m.all_devices ↔ ∃ id, m.devices_.lookup id = some device := by
  unfold all_devices
  rw [List.mem_map]
  constructor
  · rintro ⟨⟨id, d⟩, he, rfl⟩
    exact ⟨id, AList.mem_lookup_iff.mpr he⟩
  · rintro ⟨id, hid⟩
    exact ⟨⟨id, device⟩, AList.mem_lookup_iff.mp hid, rfl⟩

theorem mem_register {device d : D} (h : d ∈ (m.RegisterDevice (some device)).all_devices) :
    d ∈ m.all_devices ∨ d = device := by
  obtain ⟨k, hk⟩ := mem_all_devices.mp h
  by_cases hnext : k = m.next_device_id_
  · subst hnext
    rw [RegisterDevice, AList.lookup_insert] at hk
    exact Or.inr (Option.some.inj hk).symm
  · rw [RegisterDevice, AList.lookup_insert_ne hnext] at hk
    exact Or.inl (mem_all_devices.mpr ⟨k, hk⟩)

theorem mem_registerAll {devices : List D} {d : D} (h : d ∈ (m.RegisterAll devices).all_devices) :
    d ∈ m.all_devices ∨ d ∈ devices := by
  induction devices generalizing m with
  | nil => exact Or.inl h
  | cons device devices ih =>
    rcases ih h with hd | hd
    · rcases mem_register hd with hd | rfl
      · exact Or.inl hd
      · exact Or.inr (List.mem_cons_self ..)
    · exact Or.inr (List.mem_cons_of_mem _ hd)

/-- An id keeps its device through registrations that do not reach it. -/
theorem lookup_registerAll {k : Nat} {devices : List D}
    (h : ∀ i < devices.length, (m.next_device_id_ + i) % 2 ^ 32 ≠ k % 2 ^ 32) :
    (m.RegisterAll devices).devices_.lookup k = m.devices_.lookup k := by
  induction devices generalizing m with
  | nil => rfl
  | cons device devices ih =>
    have hk : k ≠ m.next_device_id_ := by
      rintro rfl
      exact h 0 (Nat.zero_lt_succ _) rfl
    have hrest := ih (m := m.RegisterDevice (some device)) fun i hi => by
      have hnext := h (i + 1) (Nat.succ_lt_succ hi)
      simp only [RegisterDevice]
      omega
    exact hrest.trans (AList.lookup_insert_ne hk)

/-- A scan's devices get different ids, so that all of them are in the table after it. -/
theorem mem_registerAll_of_mem {devices : List D} (hlen : devices.length ≤ 2 ^ 32) {d : D}
    (h : d ∈ devices) : d ∈ (m.RegisterAll devices).all_devices := by
  obtain ⟨before, after, rfl⟩ := List.append_of_mem h
  have hsplit : m.RegisterAll (before ++ d :: after) =
      ((m.RegisterAll before).RegisterDevice (some d)).RegisterAll after := by
    unfold RegisterAll
    rw [List.foldl_append, List.foldl_cons]
  rw [hsplit]
  refine mem_all_devices.mpr ⟨(m.RegisterAll before).next_device_id_, ?_⟩
  rw [lookup_registerAll]
  · exact AList.lookup_insert _
  · intro i hi
    rw [List.length_append, List.length_cons] at hlen
    simp only [RegisterDevice]
    omega

/-- What is in the table after a scan. -/
theorem lists_scan_iff {created : List D} :
    Lists info m.all_devices type id ∨ Lists info (m.ScanDevices info created).all_devices type id ↔
      Lists info m.all_devices type id ∨
        m.num_devices info .kCUDA = 0 ∧ Lists info (created.take 64) type id := by
  unfold ScanDevices
  split_ifs with hnone
  · constructor
    · rintro (hm | ⟨d, hd, hsame⟩)
      · exact Or.inl hm
      · rcases mem_registerAll hd with hd | hd
        · exact Or.inl ⟨d, hd, hsame⟩
        · exact Or.inr ⟨hnone, d, hd, hsame⟩
    · rintro (hm | ⟨-, d, hd, hsame⟩)
      · exact Or.inl hm
      · have hlen : (created.take 64).length ≤ 2 ^ 32 :=
          (List.length_take_le ..).trans (by norm_num)
        exact Or.inr ⟨d, mem_registerAll_of_mem hlen hd, hsame⟩
  · simp [hnone]

/-! ## Registrations and lookups -/

theorem DefaultAvailable.register (h : m.DefaultAvailable) {device : D} (hs : m.Spares device) :
    (m.RegisterDevice (some device)).DefaultAvailable := by
  obtain ⟨e, he, -⟩ := h
  refine ⟨e, he, ?_⟩
  rcases hs e he with rfl | rfl | ⟨⟨id, d⟩, hx, hid, rfl⟩
  · exact Or.inl rfl
  · exact Or.inr (mem_all_devices.mpr ⟨m.next_device_id_, AList.lookup_insert m.devices_⟩)
  · refine Or.inr (mem_all_devices.mpr ⟨id, ?_⟩)
    exact (AList.lookup_insert_ne hid).trans (AList.mem_lookup_iff.mpr hx)

/-- The condition on a registration is exact. -/
theorem defaultAvailable_register_iff (h : m.DefaultAvailable) (device : D) :
    (m.RegisterDevice (some device)).DefaultAvailable ↔ m.Spares device := by
  refine ⟨?_, h.register⟩
  rintro ⟨e, he, hreg⟩ e' he'
  have hee : e' = e := Option.some.inj (he'.symm.trans he)
  subst hee
  rcases hreg with hcpu | hmem
  · exact Or.inl hcpu
  · obtain ⟨id, hid⟩ := mem_all_devices.mp hmem
    simp only [RegisterDevice] at hid
    by_cases hn : id = m.next_device_id_
    · subst hn
      rw [AList.lookup_insert, Option.some.injEq] at hid
      exact Or.inr (Or.inl hid.symm)
    · rw [AList.lookup_insert_ne hn] at hid
      exact Or.inr (Or.inr ⟨⟨id, e'⟩, AList.mem_lookup_iff.mp hid, hn, rfl⟩)

theorem DefaultAvailable.registerAll (h : m.DefaultAvailable) {devices : List D}
    (hs : m.SparesAll devices) : (m.RegisterAll devices).DefaultAvailable := by
  induction devices generalizing m with
  | nil => exact h
  | cons d l ih => exact ih (h.register hs.1) hs.2

theorem DefaultAvailable.scan (h : m.DefaultAvailable) {created : List D}
    (hs : m.num_devices info .kCUDA = 0 → m.SparesAll (created.take 64)) :
    (m.ScanDevices info created).DefaultAvailable := by
  unfold ScanDevices
  split
  · rename_i hnone
    exact h.registerAll (hs hnone)
  · exact h

theorem find_device_eq_none_iff {order devices : List D} (h : order.Perm devices) :
    find_device info order type id = none ↔ ¬ Lists info devices type id := by
  unfold find_device Lists
  simp [List.find?_eq_none, h.mem_iff]

/-- A lookup finds the CPU device for its type, and otherwise what the table or a scan has. -/
theorem getDevice_ne_none_iff (hl : m.Meets info l) :
    (m.get_device info type id l).1 ≠ none ↔ type = .kCPU ∨ Lists info m.all_devices type id ∨
      m.num_devices info .kCUDA = 0 ∧ Lists info (l.created.take 64) type id := by
  rw [← lists_scan_iff]
  unfold get_device
  by_cases hcpu : type = .kCPU
  · simp [hcpu]
  · have hbefore : find_device info l.before type id = none ↔ _ := find_device_eq_none_iff hl.1
    have hafter : find_device info l.after type id = none ↔ _ := find_device_eq_none_iff hl.2
    rw [if_neg hcpu]
    cases hf : find_device info l.before type id with
    | some device =>
      have hlists : Lists info m.all_devices type id := by
        by_contra hnot
        rw [hbefore.mpr hnot] at hf
        cases hf
      simp [hlists]
    | none =>
      simp [hcpu, hbefore.mp hf, hafter]

theorem DefaultAvailable.getDevice (h : m.DefaultAvailable) (hl : m.Meets info l)
    (hs : m.Keeps info (.get_device type id l)) :
    (m.get_device info type id l).2.DefaultAvailable := by
  unfold get_device
  split
  · exact h
  · rename_i hcpu
    cases hf : find_device info l.before type id with
    | some device => exact h
    | none => exact h.scan (hs hcpu ((find_device_eq_none_iff hl.1).mp hf))

/-- A device that a lookup finds is the CPU device or registered. -/
theorem available_of_getDevice {device : D} (hl : m.Meets info l)
    (hd : (m.get_device info type id l).1 = some device) :
    device = (m.get_device info type id l).2.cpu_device ∨
      device ∈ (m.get_device info type id l).2.all_devices := by
  unfold get_device at hd ⊢
  by_cases hcpu : type = .kCPU
  · rw [if_pos hcpu] at hd ⊢
    exact Or.inl (Option.some.inj hd).symm
  · rw [if_neg hcpu] at hd ⊢
    cases hf : find_device info l.before type id with
    | some d =>
      rw [hf] at hd
      cases hd
      exact Or.inr (hl.1.mem_iff.mp (List.mem_of_find?_eq_some hf))
    | none =>
      rw [hf] at hd
      exact Or.inr (hl.2.mem_iff.mp (List.mem_of_find?_eq_some hd))

/-! ## The default device -/

theorem defaultAvailable_setDefault_iff (hl : m.Meets info l) :
    (m.set_default_device info type id l).DefaultAvailable ↔
      (m.get_device info type id l).1 ≠ none := by
  unfold set_default_device
  constructor
  · rintro ⟨device, hd, -⟩ hnone
    simp [hnone] at hd
  · intro hsome
    obtain ⟨device, hd⟩ := Option.ne_none_iff_exists'.mp hsome
    exact ⟨device, hd, available_of_getDevice hl hd⟩

theorem default_set_cpu : (m.set_default_device info .kCPU id l).default_device =
    some m.cpu_device := by
  unfold set_default_device get_device
  rw [if_pos rfl]

theorem leavesDefault_of_keeps (m : Devices D) (c : Call D) (hok : m.Keeps info c) :
    m.LeavesDefault info c := by
  cases c with
  | RegisterDevice _ => trivial
  | UnregisterDevice _ => trivial
  | get_device _ _ _ => trivial
  | set_default_device type id l =>
    intro hnot
    rcases hok with hnamed | ⟨rfl, hdefault⟩
    · exact absurd hnamed hnot
    · exact default_set_cpu.trans hdefault.symm

/-- The condition on `set_default_device` is exact. -/
theorem setDefault_iff (hl : m.Meets info l) :
    (m.set_default_device info type id l).DefaultAvailable ∧
        m.LeavesDefault info (.set_default_device type id l) ↔
      m.Keeps info (.set_default_device type id l) := by
  rw [defaultAvailable_setDefault_iff hl, getDevice_ne_none_iff hl]
  constructor
  · rintro ⟨hcpu | hlists, hleaves⟩
    · subst hcpu
      by_cases hnamed : m.Available info .kCPU id l.created
      · exact Or.inl hnamed
      · exact Or.inr ⟨rfl, (hleaves hnamed).symm.trans default_set_cpu⟩
    · exact Or.inl (Or.inr hlists)
  · intro hok
    refine ⟨?_, leavesDefault_of_keeps m _ hok⟩
    rcases hok with (⟨hcpu, -⟩ | hlists) | ⟨hcpu, -⟩
    · exact Or.inl hcpu
    · exact Or.inr hlists
    · exact Or.inl hcpu

section
variable [DecidableEq D]

theorem DefaultAvailable.unregister (h : m.DefaultAvailable) (id : Nat) :
    (m.UnregisterDevice id).2.DefaultAvailable := by
  obtain ⟨e, he, hreg⟩ := h
  unfold UnregisterDevice
  cases hl : m.devices_.lookup id with
  | none => exact ⟨e, he, hreg⟩
  | some device =>
    simp only
    split_ifs with hcpu hdef
    · exact ⟨e, he, hreg⟩
    · exact ⟨m.cpu_device, rfl, Or.inl rfl⟩
    · refine ⟨e, he, hreg.imp_right ?_⟩
      intro hmem
      obtain ⟨k, hk⟩ := mem_all_devices.mp hmem
      refine mem_all_devices.mpr ⟨k, ?_⟩
      have hne : k ≠ id := by
        rintro rfl
        rw [hk] at hl
        exact hdef (by rw [he, hl])
      rw [← hk]
      exact AList.lookup_erase_ne hne

theorem DefaultAvailable.call {t : Devices D} (h : m.DefaultAvailable) (c : Call D)
    (hok : m.Keeps info c) (ht : m.call info c = some t) : t.DefaultAvailable := by
  cases c with
  | RegisterDevice device =>
    cases ht
    cases device with
    | none => exact h
    | some d => exact h.register (hok d rfl)
  | UnregisterDevice id =>
    cases ht
    exact h.unregister id
  | set_default_device type id l =>
    simp only [Devices.call] at ht
    split_ifs at ht with hl
    cases ht
    exact ((setDefault_iff hl).mpr hok).1
  | get_device type id l =>
    simp only [Devices.call] at ht
    split_ifs at ht with hl
    cases ht
    exact h.getDevice hl hok

/-- In every state that the calls lead to, as long as they meet the condition, the default device is
the CPU device or a registered one, and no `set_default_device` that names no available device has
changed it. -/
theorem default_device_is_available_while_calls_keep_it {cpu : D} {calls : List (Call D)}
    {m : Devices D} (hm : Transition.Meets (call info) (Keeps info) (start cpu) calls)
    (hr : run (call info) (start cpu) calls = some m) :
    m.DefaultAvailable ∧
      Transition.Meets (call info) (LeavesDefault info) (start cpu) calls :=
  ⟨invariant_of_meets (fun _ c _ h hok ht => h.call c hok ht) ⟨cpu, rfl, Or.inl rfl⟩ hm hr,
    hm.mono leavesDefault_of_keeps⟩

end

/-- A device is its type and its id. -/
def pairs : DeviceInfo (DeviceType × Int) := ⟨Prod.fst, Prod.snd⟩

/-- A device that is not there is named while the CPU device is the default. Another one is found by
a scan, made the default, and removed again. -/
def hotPlug : List (Call (DeviceType × Int)) :=
  let cpu := (DeviceType.kCPU, -1)
  let gpu := (DeviceType.kCUDA, 0)
  [.set_default_device .kCPU 7 ⟨[cpu], [], [cpu]⟩,
    .get_device .kCUDA 1 ⟨[cpu], [gpu], [gpu, cpu]⟩,
    .set_default_device .kCUDA 0 ⟨[gpu, cpu], [], [cpu, gpu]⟩, .RegisterDevice none,
    .RegisterDevice (some (.kCUDA, 1)), .UnregisterDevice 2, .UnregisterDevice 1]

theorem default_device_is_available_after_hot_plug :
    ∃ m, run (call pairs) (start (DeviceType.kCPU, -1)) hotPlug = some m ∧
      m.next_device_id_ = 4 ∧ m.DefaultAvailable ∧ Transition.Meets (call pairs)
        (LeavesDefault pairs) (start (DeviceType.kCPU, -1)) hotPlug := by
  have hr : ∃ m, run (call pairs) (start (DeviceType.kCPU, -1)) hotPlug = some m ∧
      m.next_device_id_ = 4 := exists_of_any (by decide +kernel)
  obtain ⟨m, hr, hid⟩ := hr
  exact ⟨m, hr, hid, default_device_is_available_while_calls_keep_it (by decide +kernel) hr⟩

/-- There is no CUDA device. -/
theorem default_device_is_null :
    ∃ m, run (call pairs) (start (DeviceType.kCPU, -1))
      [.set_default_device .kCUDA 7 ⟨[(.kCPU, -1)], [], [(.kCPU, -1)]⟩] = some m ∧
      (m.default_device = none ∧ ¬ m.DefaultAvailable) :=
  exists_of_any (by decide +kernel)

end Devices

end sci.DeviceManager
