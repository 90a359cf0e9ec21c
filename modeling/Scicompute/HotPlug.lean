-- Hot removal (src/device/device.cpp, 83-103, 115-201): a lookup that misses scans for devices, and the
-- scan registers devices again that were removed.
import Scicompute.DeviceTable

open Transition

namespace sci.DeviceManager

/-- A device that `UnregisterDevice` has removed, and the devices that were left. -/
structure Removal (D : Type*) where
  device : D
  left : List D

/-- A call of `get_device`, with what was known before it: the removals since the last explicit
registration or scan, and whether there had been a scan. -/
structure LookupCall (D : Type*) where
  removals : List (Removal D)
  scanned : Bool
  type : DeviceType
  id : Int
  device : Option D
  before : Devices D
  after : Devices D

structure HotPlug (D : Type*) where
  manager : Devices D
  scanned : Bool
  removals : List (Removal D)
  answers : List (LookupCall D)

namespace HotPlug

open Devices

variable {D : Type*}

/-- `created` is what `CudaDevice::Create` gives, as in `ScanDevices`. -/
inductive Call (D : Type*)
  | RegisterDevice (device : Option D)
  | UnregisterDevice (id : Nat)
  | get_device (type : DeviceType) (id : Int) (l : Lookup D)
  | ScanDevices (created : List D)
  | num_devices (type : DeviceType)

def start (cpu : D) : HotPlug D := ⟨.start cpu, false, [], []⟩

/-- The devices of a scan are the CUDA devices 0, 1, ..., up to the first that is not available. -/
def Probed (info : DeviceInfo D) (created : List D) : Prop :=
  created.map (fun device => (info.type device, info.id device)) =
    (List.range created.length).map fun i => (DeviceType.kCUDA, (i : Int))

instance (info : DeviceInfo D) (created : List D) : Decidable (Probed info created) :=
  inferInstanceAs (Decidable (_ = _))

/-- The lookup does not find the device and scans. -/
def Misses (info : DeviceInfo D) (type : DeviceType) (id : Int) (l : Lookup D) : Prop :=
  type ≠ .kCPU ∧ find_device info l.before type id = none

instance [DecidableEq D] (info : DeviceInfo D) (type : DeviceType) (id : Int) (l : Lookup D) :
    Decidable (Misses info type id l) :=
  inferInstanceAs (Decidable (_ ∧ _))

/-- The removal of a call `UnregisterDevice(id)`, where it removes a device. -/
def removal [DecidableEq D] (m : Devices D) (id : Nat) : Option (Removal D) :=
  if (m.UnregisterDevice id).1 then
    (m.devices_.lookup id).map fun device => ⟨device, (m.UnregisterDevice id).2.all_devices⟩
  else none

def step [DecidableEq D] (info : DeviceInfo D) (s : HotPlug D) : Call D → Option (HotPlug D)
  | .RegisterDevice device =>
    some { s with manager := s.manager.RegisterDevice device, removals := [] }
  | .UnregisterDevice id =>
    some { s with manager := (s.manager.UnregisterDevice id).2
                  removals := s.removals ++ (removal s.manager id).toList }
  | .get_device type id l =>
    if s.manager.Meets info l ∧ Probed info l.created then
      let r := s.manager.get_device info type id l
      some { s with
        manager := r.2
        scanned := s.scanned || decide (Misses info type id l)
        answers := s.answers ++ [⟨s.removals, s.scanned, type, id, r.1, s.manager, r.2⟩] }
    else none
  | .ScanDevices created =>
    if Probed info created then
      some { s with manager := s.manager.ScanDevices info created, scanned := true, removals := [] }
    else none
  | .num_devices _ => some s

/-! ## The property -/

/-- The devices have the same type and the same id. -/
def Same (info : DeviceInfo D) (d e : D) : Prop := info.type d = info.type e ∧ info.id d = info.id e

/-- A lookup for a removed device gives nothing but the CPU device and those that were left behind the
removal, and behind the first scan the table is as it was. -/
structure Sticks (info : DeviceInfo D) (x : LookupCall D) : Prop where
  removed : ∀ r ∈ x.removals, info.type r.device = x.type → info.id r.device = x.id →
    ∀ d ∈ x.device, d = x.before.cpu_device ∨ d ∈ r.left
  table : x.scanned = true → x.after.devices_ = x.before.devices_

/-- All lookups were such. -/
def RemovalsStick (info : DeviceInfo D) (s : HotPlug D) : Prop := ∀ x ∈ s.answers, Sticks info x

/-- The condition on a call: a lookup that finds nothing while no CUDA device is registered, and one is
available, is before the first scan, and no device that it scans was removed. -/
def SparesRemoved (info : DeviceInfo D) (s : HotPlug D) : Call D → Prop
  | .get_device type id l => Misses info type id l → s.manager.num_devices info .kCUDA = 0 →
      l.created ≠ [] → s.scanned = false ∧
        ∀ r ∈ s.removals, ∀ d ∈ l.created.take 64, ¬ Same info d r.device
  | _ => True

instance (info : DeviceInfo D) (d e : D) : Decidable (Same info d e) :=
  inferInstanceAs (Decidable (_ ∧ _))

section
variable [DecidableEq D]

instance (info : DeviceInfo D) (x : LookupCall D) : Decidable (Sticks info x) :=
  decidable_of_iff
    ((∀ r ∈ x.removals, info.type r.device = x.type → info.id r.device = x.id →
      x.device.all fun d => decide (d = x.before.cpu_device ∨ d ∈ r.left)) ∧
      (x.scanned = true → x.after.devices_ = x.before.devices_))
    (by
      simp only [Option.all_eq_true, decide_eq_true_eq]
      exact ⟨fun h => ⟨h.1, h.2⟩, fun h => ⟨h.removed, h.table⟩⟩)

instance (info : DeviceInfo D) (s : HotPlug D) : Decidable (s.RemovalsStick info) :=
  inferInstanceAs (Decidable (∀ _ ∈ _, _))

instance (info : DeviceInfo D) (s : HotPlug D) : ∀ c, Decidable (s.SparesRemoved info c)
  | .get_device _ _ _ => inferInstanceAs (Decidable (_ → _ → _ → _ ∧ _))
  | .RegisterDevice _ => isTrue trivial
  | .UnregisterDevice _ => isTrue trivial
  | .ScanDevices _ => isTrue trivial
  | .num_devices _ => isTrue trivial

end

/-- What is registered and was removed, was left behind its removal. -/
structure Inv (info : DeviceInfo D) (s : HotPlug D) : Prop where
  left : ∀ r ∈ s.removals, ∀ d ∈ s.manager.all_devices, Same info d r.device → d ∈ r.left
  sticks : s.RemovalsStick info

/-! ## The table -/

variable {info : DeviceInfo D} {m : Devices D} {s t : HotPlug D} {type : DeviceType} {id : Int}
  {l : Lookup D}

theorem cpu_registerAll (m : Devices D) (devices : List D) :
    (m.RegisterAll devices).cpu_device = m.cpu_device := by
  induction devices generalizing m with
  | nil => rfl
  | cons device devices ih => exact ih (m.RegisterDevice (some device))

theorem cpu_scan (m : Devices D) (created : List D) :
    (m.ScanDevices info created).cpu_device = m.cpu_device := by
  unfold ScanDevices
  split_ifs
  · exact cpu_registerAll m _
  · rfl

/-- What a lookup does to the table. -/
theorem get_device_snd : (m.get_device info type id l).2 =
    if type ≠ .kCPU ∧ find_device info l.before type id = none then m.ScanDevices info l.created
    else m := by
  unfold Devices.get_device
  by_cases hcpu : type = .kCPU
  · rw [if_pos hcpu, if_neg fun h => h.1 hcpu]
  · rw [if_neg hcpu]
    cases hf : find_device info l.before type id with
    | some device => rw [if_neg fun h => nomatch h.2]
    | none => rw [if_pos ⟨hcpu, rfl⟩]

theorem find_device_same {order : List D} {d : D} (h : find_device info order type id = some d) :
    info.type d = type ∧ info.id d = id := by
  have hfound := List.find?_some h
  rw [Bool.and_eq_true, decide_eq_true_eq, decide_eq_true_eq] at hfound
  exact hfound

/-- A lookup gives the CPU device, or one with the type and the id. -/
theorem same_of_get_device {d : D} (h : (m.get_device info type id l).1 = some d) :
    d = m.cpu_device ∨ info.type d = type ∧ info.id d = id := by
  unfold Devices.get_device at h
  split_ifs at h with hcpu
  · exact Or.inl (Option.some.inj h).symm
  · cases hf : find_device info l.before type id with
    | some device =>
      rw [hf] at h
      cases h
      exact Or.inr (find_device_same hf)
    | none =>
      rw [hf] at h
      exact Or.inr (find_device_same h)

/-- A lookup that keeps the condition adds no removed device. -/
theorem mem_get_device [DecidableEq D] (hok : s.SparesRemoved info (.get_device type id l))
    {r : Removal D} (hr : r ∈ s.removals) {d : D}
    (hd : d ∈ (s.manager.get_device info type id l).2.all_devices) (hsame : Same info d r.device) :
    d ∈ s.manager.all_devices := by
  rw [get_device_snd] at hd
  split_ifs at hd with hmiss
  · unfold ScanDevices at hd
    split_ifs at hd with hnone
    · rcases mem_registerAll hd with hd | hd
      · exact hd
      · have hcreated : l.created ≠ [] := by
          intro hnil
          rw [hnil] at hd
          cases hd
        exact absurd hsame ((hok hmiss hnone hcreated).2 r hr d hd)
    · exact hd
  · exact hd

/-- A scan that finds devices changes the table. -/
theorem changes_of_scan (hprobed : Probed info l.created) (hmiss : Misses info type id l)
    (hnone : m.num_devices info .kCUDA = 0) (hcreated : l.created ≠ []) :
    (m.get_device info type id l).2.devices_ ≠ m.devices_ := by
  have htake : l.created.take 64 ≠ [] := by
    intro hnil
    rcases List.take_eq_nil_iff.mp hnil with h | h
    · cases h
    · exact hcreated h
  obtain ⟨devices, d, hsplit⟩ := List.eq_nil_or_concat _ |>.resolve_left htake
  have hd : d ∈ l.created := List.mem_of_mem_take (hsplit ▸ (by simp : d ∈ devices.concat d))
  have hcuda : info.type d = .kCUDA := by
    have hmem : (info.type d, info.id d) ∈
        (List.range l.created.length).map fun i => (DeviceType.kCUDA, (i : Int)) :=
      hprobed ▸ List.mem_map_of_mem hd
    obtain ⟨i, -, heq⟩ := List.mem_map.mp hmem
    exact (Prod.mk.inj heq).1.symm
  intro hsame
  -- the device that was registered last is in the table
  have hin : d ∈ (m.get_device info type id l).2.all_devices := by
    rw [get_device_snd, if_pos ⟨hmiss.1, hmiss.2⟩, ScanDevices, if_pos hnone, hsplit, RegisterAll,
      List.concat_eq_append, List.foldl_append]
    exact mem_all_devices.mpr ⟨_, AList.lookup_insert _⟩
  unfold all_devices at hin
  rw [hsame] at hin
  have hcount : 0 < m.num_devices info .kCUDA :=
    List.countP_pos_iff.mpr ⟨d, hin, decide_eq_true hcuda⟩
  omega

/-- A lookup leaves the table as it is unless it scans and finds devices. -/
theorem table_get_device_iff (hprobed : Probed info l.created) :
    (m.get_device info type id l).2.devices_ = m.devices_ ↔
      (Misses info type id l → m.num_devices info .kCUDA = 0 → l.created = []) := by
  constructor
  · intro hsame hmiss hnone
    by_contra hcreated
    exact changes_of_scan hprobed hmiss hnone hcreated hsame
  · intro h
    rw [get_device_snd]
    split_ifs with hmiss
    · unfold ScanDevices
      split_ifs with hnone
      · rw [h hmiss hnone]
        rfl
      · rfl
    · rfl

section
variable [DecidableEq D]

theorem unregister_eq (m : Devices D) (id : Nat) :
    (m.UnregisterDevice id).2.all_devices = m.all_devices ∨
      (m.UnregisterDevice id).2.devices_ = m.devices_.erase id := by
  unfold UnregisterDevice
  cases hl : m.devices_.lookup id with
  | none => exact Or.inl rfl
  | some device =>
    dsimp only
    split_ifs
    · exact Or.inl rfl
    · exact Or.inr rfl
    · exact Or.inr rfl

theorem mem_unregister {n : Nat} {d : D} (h : d ∈ (m.UnregisterDevice n).2.all_devices) :
    d ∈ m.all_devices := by
  rcases unregister_eq m n with hsame | herase
  · rwa [← hsame]
  · obtain ⟨k, hk⟩ := mem_all_devices.mp h
    rw [herase] at hk
    by_cases hkn : k = n
    · rw [hkn, AList.lookup_erase] at hk
      cases hk
    · rw [AList.lookup_erase_ne hkn] at hk
      exact mem_all_devices.mpr ⟨k, hk⟩

theorem mem_removal {n : Nat} {r : Removal D} (h : removal m n = some r) :
    r.left = (m.UnregisterDevice n).2.all_devices := by
  unfold removal at h
  split_ifs at h
  obtain ⟨device, -, rfl⟩ := Option.map_eq_some_iff.mp h
  rfl

/-! ## Runs -/

omit [DecidableEq D] in
theorem inv_start (cpu : D) : (start cpu).Inv info where
  left _ hr := absurd hr List.not_mem_nil
  sticks _ hx := absurd hx List.not_mem_nil

theorem Inv.sticks_of_get_device (h : s.Inv info) (hl : s.manager.Meets info l)
    (hprobed : Probed info l.created) (hok : s.SparesRemoved info (.get_device type id l)) :
    Sticks info ⟨s.removals, s.scanned, type, id, (s.manager.get_device info type id l).1,
      s.manager, (s.manager.get_device info type id l).2⟩ where
  removed r hr htype hid d hd := by
    have hcpu : (s.manager.get_device info type id l).2.cpu_device = s.manager.cpu_device := by
      rw [get_device_snd]
      split_ifs
      · exact cpu_scan _ _
      · rfl
    rcases available_of_getDevice hl hd with hd' | hd'
    · exact Or.inl (hd'.trans hcpu)
    · rcases same_of_get_device hd with hd'' | hsame
      · exact Or.inl hd''
      · have hsame' : Same info d r.device := ⟨hsame.1.trans htype.symm, hsame.2.trans hid.symm⟩
        exact Or.inr (h.left r hr d (mem_get_device hok hr hd' hsame') hsame')
  table hscanned := by
    rw [table_get_device_iff hprobed]
    intro hmiss hnone
    by_contra hcreated
    rw [(hok hmiss hnone hcreated).1] at hscanned
    cases hscanned

theorem Inv.step {c : Call D} (h : s.Inv info) (hok : s.SparesRemoved info c)
    (hs : s.step info c = some t) : t.Inv info := by
  cases c with
  | RegisterDevice device =>
    cases hs
    exact ⟨nofun, h.sticks⟩
  | UnregisterDevice n =>
    cases hs
    refine ⟨fun r hr d hd hsame => ?_, h.sticks⟩
    rcases List.mem_append.mp hr with hr | hr
    · exact h.left r hr d (mem_unregister hd) hsame
    · rw [mem_removal (Option.mem_toList.mp hr)]
      exact hd
  | get_device type id l =>
    rw [HotPlug.step] at hs
    split_ifs at hs with hl
    cases hs
    refine ⟨fun r hr d hd hsame => h.left r hr d (mem_get_device hok hr hd hsame) hsame, ?_⟩
    intro x hx
    rcases List.mem_append.mp hx with hx | hx
    · exact h.sticks x hx
    · rw [List.mem_singleton.mp hx]
      exact h.sticks_of_get_device hl.1 hl.2 hok
  | ScanDevices created =>
    rw [HotPlug.step] at hs
    split_ifs at hs
    cases hs
    exact ⟨nofun, h.sticks⟩
  | num_devices type =>
    cases hs
    exact h

/-- In every state that the calls lead to, as long as lookups spare the devices that were removed,
removals have stuck, and no lookup behind a scan has changed the table. -/
theorem removals_stick_while_lookups_spare_them {cpu : D} {calls : List (Call D)}
    (hm : Transition.Meets (step info) (SparesRemoved info) (start cpu) calls)
    (hr : run (step info) (start cpu) calls = some s) : s.RemovalsStick info :=
  (invariant_of_meets (fun _ _ _ h hok hs => h.step hok hs) (inv_start cpu) hm hr).sticks

/-- An object has a number beside its type and its id. -/
def numbered : DeviceInfo (DeviceType × Int × Nat) := ⟨Prod.fst, fun device => device.2.1⟩

/-- A device is found by a lookup, removed, and found again by an explicit scan. -/
def explicitScan : List (Call (DeviceType × Int × Nat)) :=
  let cpu := (DeviceType.kCPU, -1, 0)
  let gpu := (DeviceType.kCUDA, 0, 1)
  let scanned := (DeviceType.kCUDA, 0, 2)
  [.get_device .kCUDA 0 ⟨[cpu], [gpu], [cpu, gpu]⟩, .UnregisterDevice 2, .num_devices .kCUDA,
    .ScanDevices [scanned], .get_device .kCUDA 0 ⟨[cpu, scanned], [], [cpu, scanned]⟩]

theorem an_explicit_scan_is_no_lookup :
    ∃ s, run (step numbered) (start (DeviceType.kCPU, -1, 0)) explicitScan = some s ∧
      s.answers.length = 2 ∧ s.RemovalsStick numbered := by
  have hr : ∃ s, run (step numbered) (start (DeviceType.kCPU, -1, 0)) explicitScan = some s ∧
      s.answers.length = 2 := exists_of_any (by decide +kernel)
  obtain ⟨s, hr, hlength⟩ := hr
  exact ⟨s, hr, hlength, removals_stick_while_lookups_spare_them (by decide +kernel) hr⟩

/-- A device is found by a lookup, removed, and comes back with the next lookup. -/
theorem a_removed_device_comes_back :
    ∃ s, run (step numbered) (start (DeviceType.kCPU, -1, 0))
      [.get_device .kCUDA 0 ⟨[(.kCPU, -1, 0)], [(.kCUDA, 0, 1)], [(.kCPU, -1, 0), (.kCUDA, 0, 1)]⟩,
        .UnregisterDevice 2,
        .get_device .kCUDA 0 ⟨[(.kCPU, -1, 0)], [(.kCUDA, 0, 2)],
          [(.kCPU, -1, 0), (.kCUDA, 0, 2)]⟩] = some s ∧ ¬ s.RemovalsStick numbered :=
  exists_of_any (by decide +kernel)

/-- Without CUDA a scan creates nothing. -/
theorem removals_stick_without_cuda {cpu : D} {calls : List (Call D)}
    (hcalls : ∀ type id l, Call.get_device type id l ∈ calls → l.created = [])
    (hr : run (step info) (start cpu) calls = some s) : s.RemovalsStick info := by
  refine removals_stick_while_lookups_spare_them ?_ hr
  have hok : ∀ c ∈ calls, ∀ type id l, c = .get_device type id l → l.created = [] := by
    rintro c hc type id l rfl
    exact hcalls type id l hc
  refine (meets_of_forall hok _).mono fun s c hc => ?_
  cases c with
  | get_device type id l => exact fun _ _ hcreated => absurd (hc type id l rfl) hcreated
  | _ => trivial

end

end HotPlug

end sci.DeviceManager
