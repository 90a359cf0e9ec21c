-- The whole `DeviceManager` (include/device/device.hpp, 15-27 and 106-151, and
-- src/device/device.cpp, 71-207): the table of devices, the callbacks, and the events that the
-- callbacks get. The table is the registry of the devices that were added and not removed, and
-- every callback can tell from its events what the table is.
import Scicompute.ChangeFeed
import Scicompute.DeviceCallbacks
import Scicompute.DeviceTable

open Transition
open ChangeFeed (Change Observer UpToDate)

namespace sci

/-- No event is sent but these two. -/
inductive DeviceEvent
  | kDeviceAdded
  | kDeviceRemoved

def DeviceEvent.change {D : Type*} (device : D) : DeviceEvent → Change D
  | .kDeviceAdded => .added device
  | .kDeviceRemoved => .removed device

namespace DeviceManager

open Devices

/-- What a call returns. -/
inductive Reply (D : Type*)
  | id (id : Nat)
  | ok (b : Bool)
  | device (device : Option D)
  | done
  deriving DecidableEq

/-- A manager in use. A callback is an observer that took `all_devices()` when it was added, and
the callbacks do not call the manager. -/
structure Manager (D : Type*) where
  devices : Devices D
  callbacks : DeviceManager (Observer D)

inductive ManagerCall (D : Type*)
  | RegisterDevice (device : Option D)
  | UnregisterDevice (id : Nat)
  | GetDevice (id : Nat)
  | get_device (type : DeviceType) (id : Int) (l : Lookup D)
  | set_default_device (type : DeviceType) (id : Int) (l : Lookup D)
  | ScanDevices (created : List D)
  | AddCallback
  | RemoveCallback (callback_id : Nat)

namespace Manager

variable {D : Type*} [DecidableEq D]

def start (cpu : D) : Manager D := ⟨.start cpu, .start⟩

def NotifyDeviceEvent (s : Manager D) (event : DeviceEvent) (device : D) : Manager D :=
  { s with callbacks :=
      { s.callbacks with callbacks_ :=
          s.callbacks.callbacks_.map fun x => (x.1, x.2.tell (event.change device)) } }

def RegisterDevice (s : Manager D) : Option D → Nat × Manager D
  | none => (0, s)
  | some device =>
    (s.devices.next_device_id_,
      { s with devices := s.devices.RegisterDevice (some device) }.NotifyDeviceEvent
        .kDeviceAdded device)

/-- The default device is still the removed one when the callbacks are called. -/
def UnregisterDevice (s : Manager D) (id : Nat) : Bool × Manager D :=
  match s.devices.devices_.lookup id with
  | none => (false, s)
  | some device =>
    if device = s.devices.cpu_device then (false, s)
    else
      let s := { s with devices := { s.devices with devices_ := s.devices.devices_.erase id } }
      let s := s.NotifyDeviceEvent .kDeviceRemoved device
      if s.devices.default_device = some device then
        (true, { s with devices :=
          { s.devices with default_device := some s.devices.cpu_device, default_type_ := .kCPU,
                           default_id_ := 0 } })
      else (true, s)

def RegisterAll (s : Manager D) (devices : List D) : Manager D :=
  devices.foldl (fun s device => (s.RegisterDevice (some device)).2) s

def ScanDevices (info : DeviceInfo D) (s : Manager D) (created : List D) : Manager D :=
  if s.devices.num_devices info .kCUDA = 0 then s.RegisterAll (created.take 64) else s

def get_device (info : DeviceInfo D) (s : Manager D) (type : DeviceType) (id : Int)
    (l : Lookup D) : Option D × Manager D :=
  if type = .kCPU then (some s.devices.cpu_device, s)
  else
    match find_device info l.before type id with
    | some device => (some device, s)
    | none => (find_device info l.after type id, s.ScanDevices info l.created)

def set_default_device (info : DeviceInfo D) (s : Manager D) (type : DeviceType) (id : Int)
    (l : Lookup D) : Manager D :=
  let r := s.get_device info type id l
  { r.2 with devices :=
      { r.2.devices with default_device := r.1, default_type_ := type, default_id_ := id } }

/-- `none` stands for an erase past the end of `callbacks_`, and for a lookup that does not meet
the devices of the table. -/
def call (info : DeviceInfo D) (s : Manager D) : ManagerCall D → Option (Reply D × Manager D)
  | .RegisterDevice device => some (.id (s.RegisterDevice device).1, (s.RegisterDevice device).2)
  | .UnregisterDevice id => some (.ok (s.UnregisterDevice id).1, (s.UnregisterDevice id).2)
  | .GetDevice id => some (.device (s.devices.devices_.lookup id), s)
  | .get_device type id l =>
    if s.devices.Meets info l then some (.done, (s.get_device info type id l).2) else none
  | .set_default_device type id l =>
    if s.devices.Meets info l then some (.done, s.set_default_device info type id l) else none
  | .ScanDevices created => some (.done, s.ScanDevices info created)
  | .AddCallback =>
    let r := s.callbacks.AddCallback ⟨s.devices.all_devices, []⟩
    some (.done, { s with callbacks := r.2 })
  | .RemoveCallback callback_id =>
    (s.callbacks.RemoveCallback callback_id).map fun r => (.done, { s with callbacks := r.2 })

/-- A call of a session, which keeps the replies. -/
def step (info : DeviceInfo D) (s : Manager D × List (Reply D)) (c : ManagerCall D) :
    Option (Manager D × List (Reply D)) :=
  (s.1.call info c).map fun r => (r.2, s.2 ++ [r.1])

/-! ## The registry -/

/-- How many devices a call registers at most. -/
def registrations : ManagerCall D → Nat
  | .RegisterDevice device => device.toList.length
  | .get_device _ _ l | .set_default_device _ _ l => (l.created.take 64).length
  | .ScanDevices created => (created.take 64).length
  | _ => 0

end Manager

section
variable {D : Type*} [DecidableEq D]

def registerAll (r : Registry D) (devices : List D) : Registry D := devices.foldl Registry.add r

/-- A scan registers devices where there is no CUDA device. -/
def scan (info : DeviceInfo D) (r : Registry D) (created : List D) : Registry D :=
  if ∀ x ∈ r.live, info.type x.2 ≠ .kCUDA then registerAll r (created.take 64) else r

/-- A lookup scans where there is no device of the type with the id. -/
def lookup (info : DeviceInfo D) (r : Registry D) (type : DeviceType) (id : Int)
    (created : List D) : Registry D :=
  if type ≠ .kCPU ∧ ∀ x ∈ r.live, ¬ (info.type x.2 = type ∧ info.id x.2 = id) then
    scan info r created
  else r

/-- What the calls do to the devices that were added and not removed. The numbers are the ids, and
the CPU device has number 1. -/
def registryReply (info : DeviceInfo D) (cpu : D) (r : Registry D) :
    ManagerCall D → Reply D × Registry D
  | .RegisterDevice none => (.id 0, r)
  | .RegisterDevice (some device) => (.id (r.added + 1), r.add device)
  | .UnregisterDevice id =>
    if r.holds id ∧ r.find id ≠ some cpu then (.ok true, r.remove id) else (.ok false, r)
  | .GetDevice id => (.device (r.find id), r)
  | .get_device type id l => (.done, lookup info r type id l.created)
  | .set_default_device type id l => (.done, lookup info r type id l.created)
  | .ScanDevices created => (.done, scan info r created)
  | .AddCallback | .RemoveCallback _ => (.done, r)

def registryReplies (info : DeviceInfo D) (cpu : D) (s : Registry D × List (Reply D))
    (c : ManagerCall D) : Option (Registry D × List (Reply D)) :=
  some ((registryReply info cpu s.1 c).2, s.2 ++ [(registryReply info cpu s.1 c).1])

end

namespace Manager

variable {D : Type*} [DecidableEq D] {info : DeviceInfo D} {cpu : D} {s s' : Manager D}
  {r : Registry D} {c : ManagerCall D} {id : Nat} {reply : Reply D} {device : D}

/-- The table has the devices of the registry, and every callback knows them. -/
structure Represents (cpu : D) (s : Manager D) (r : Registry D) : Prop where
  cpu_device : s.devices.cpu_device = cpu
  next : s.devices.next_device_id_ = r.added + 1
  table : ∀ id device, s.devices.devices_.lookup id = some device ↔ (id, device) ∈ r.live
  upToDate : ∀ x ∈ s.callbacks.callbacks_, UpToDate (s.devices.all_devices : Multiset D) x.2

theorem represents_start (cpu : D) : Represents cpu (start cpu) (Registry.empty.add cpu) := by
  refine ⟨rfl, rfl, ?_, ?_⟩
  · intro id device
    rw [Registry.mem_add]
    change AList.lookup id (AList.singleton 1 cpu : AList fun _ : Nat => D) = some device ↔ _
    rw [← AList.insert_empty]
    by_cases hid : id = 1
    · subst hid
      rw [AList.lookup_insert]
      simp [Registry.empty, eq_comm]
    · rw [AList.lookup_insert_ne hid]
      simp [Registry.empty, hid]
  · intro x hx
    exact absurd hx List.not_mem_nil

/-- The entries of the table and of the registry are the same. -/
theorem Represents.perm (h : Represents cpu s r) :
    s.devices.all_devices.Perm (r.live.map Prod.snd) := by
  have hentries : (s.devices.devices_.entries.map fun e => (e.1, e.2)).Perm r.live := by
    rw [List.perm_ext_iff_of_nodup]
    · rintro ⟨id, device⟩
      rw [← h.table, ← Option.mem_def, AList.mem_lookup_iff, List.mem_map]
      constructor
      · rintro ⟨⟨id', device'⟩, hmem, heq⟩
        cases heq
        exact hmem
      · intro hmem
        exact ⟨_, hmem, rfl⟩
    · apply s.devices.devices_.nodupKeys.nodup.map
      rintro ⟨id, device⟩ ⟨id', device'⟩ heq
      cases heq
      rfl
    · exact r.nodup.of_map
  have hdevices := hentries.map Prod.snd
  rw [List.map_map] at hdevices
  exact hdevices

theorem Represents.mem_iff (h : Represents cpu s r) :
    device ∈ s.devices.all_devices ↔ ∃ x ∈ r.live, x.2 = device := by
  rw [h.perm.mem_iff, List.mem_map]

/-! ## The events -/

theorem upToDate_notify {items items' : Multiset D} {event : DeviceEvent}
    (h : ∀ x ∈ s.callbacks.callbacks_, UpToDate items x.2)
    (happly : ChangeFeed.apply items (event.change device) = some items') :
    ∀ x ∈ (s.NotifyDeviceEvent event device).callbacks.callbacks_, UpToDate items' x.2 := by
  intro x hx
  obtain ⟨y, hy, rfl⟩ := List.mem_map.mp hx
  exact (h y hy).tell happly

/-- The device of a registration gets the next number. -/
theorem Represents.register (h : Represents cpu s r) (device : D)
    (hnext : r.added + 2 < 2 ^ 32) :
    (s.RegisterDevice (some device)).1 = r.added + 1 ∧
      Represents cpu (s.RegisterDevice (some device)).2 (r.add device) := by
  have hfresh : s.devices.next_device_id_ ∉ s.devices.devices_ := by
    rw [← AList.lookup_eq_none, Option.eq_none_iff_forall_ne_some]
    intro d hd
    have hrange := r.range _ (List.mem_map_of_mem ((h.table _ d).mp hd))
    have hid := h.next
    omega
  refine ⟨h.next, h.cpu_device, ?_, ?_, ?_⟩
  · change (s.devices.next_device_id_ + 1) % 2 ^ 32 = r.added + 1 + 1
    rw [h.next, Nat.mod_eq_of_lt hnext]
  · intro id d
    rw [Registry.mem_add, ← h.table]
    change AList.lookup id (AList.insert s.devices.next_device_id_ device s.devices.devices_) =
      some d ↔ _
    rw [← h.next]
    by_cases hid : id = s.devices.next_device_id_
    · subst hid
      rw [AList.lookup_insert, AList.lookup_eq_none.mpr hfresh]
      simp [eq_comm]
    · rw [AList.lookup_insert_ne hid]
      simp [hid]
  · apply upToDate_notify h.upToDate
    change some (device ::ₘ (s.devices.all_devices : Multiset D)) =
      some (((s.devices.devices_.insert s.devices.next_device_id_ device).entries.map Sigma.snd :
        List D) : Multiset D)
    rw [AList.entries_insert_of_notMem hfresh]
    rfl

omit [DecidableEq D] in
/-- What is left of the table when a device is erased. -/
theorem all_devices_erase {table : AList fun _ : Nat => D} (hid : table.lookup id = some device) :
    ((table.entries.map Sigma.snd : List D) : Multiset D) =
      device ::ₘ (((table.erase id).entries.map Sigma.snd : List D) : Multiset D) := by
  have hsome : (table.lookup id).isSome := by
    rw [hid]
    rfl
  have hmem : id ∈ table.entries.keys := AList.mem_keys.mp (AList.lookup_isSome.mp hsome)
  obtain ⟨d, l1, l2, -, hentries, hkerase⟩ := List.exists_of_kerase hmem
  have hd : d = device := by
    have hin : (⟨id, d⟩ : Sigma fun _ : Nat => D) ∈ table.entries := by
      rw [hentries]
      simp
    exact Option.some.inj ((AList.mem_lookup_iff.mpr hin).symm.trans hid)
  subst hd
  change _ = d ::ₘ (((List.kerase id table.entries).map Sigma.snd : List D) : Multiset D)
  rw [hkerase, hentries, Multiset.cons_coe, Multiset.coe_eq_coe, List.map_append, List.map_append,
    List.map_cons]
  exact List.perm_middle

/-- What `UnregisterDevice` does to a device that it finds. -/
theorem unregister_of_lookup (hid : s.devices.devices_.lookup id = some device) :
    if device = s.devices.cpu_device then s.UnregisterDevice id = (false, s)
    else ∃ default_device default_type_ default_id_,
      s.UnregisterDevice id =
        (true, NotifyDeviceEvent
          { s with devices :=
              { s.devices with
                default_device := default_device
                default_type_ := default_type_
                default_id_ := default_id_
                devices_ := s.devices.devices_.erase id } }
          .kDeviceRemoved device) := by
  unfold UnregisterDevice
  rw [hid]
  dsimp only
  split_ifs
  · rfl
  · exact ⟨_, _, _, rfl⟩
  · exact ⟨_, _, _, rfl⟩

/-- A device goes with its number, but not the CPU device. -/
theorem Represents.unregister (h : Represents cpu s r) (info : DeviceInfo D) (id : Nat) :
    Reply.ok (s.UnregisterDevice id).1 = (registryReply info cpu r (.UnregisterDevice id)).1 ∧
      Represents cpu (s.UnregisterDevice id).2
        (registryReply info cpu r (.UnregisterDevice id)).2 := by
  simp only [registryReply]
  cases hlookup : s.devices.devices_.lookup id with
  | none =>
    have hnothing : s.UnregisterDevice id = (false, s) := by
      unfold UnregisterDevice
      rw [hlookup]
    have hnot : ¬ r.holds id := by
      unfold Registry.holds
      rw [decide_eq_true_eq, List.mem_map]
      rintro ⟨⟨k, d⟩, hmem, rfl⟩
      rw [← h.table] at hmem
      rw [hmem] at hlookup
      cases hlookup
    rw [hnothing, if_neg (fun hboth => hnot hboth.1)]
    exact ⟨rfl, h⟩
  | some device =>
    have hmem := (h.table id device).mp hlookup
    have hholds : r.holds id := decide_eq_true (List.mem_map_of_mem hmem)
    have hunregister := unregister_of_lookup hlookup
    rw [h.cpu_device] at hunregister
    rw [Registry.find_eq_some_iff.mpr hmem]
    by_cases hcpu : device = cpu
    · rw [if_pos hcpu] at hunregister
      rw [hunregister, if_neg (fun hboth => hboth.2 (congrArg some hcpu))]
      exact ⟨rfl, h⟩
    · rw [if_neg hcpu] at hunregister
      obtain ⟨_, _, _, hunregister⟩ := hunregister
      rw [hunregister, if_pos ⟨hholds, fun heq => hcpu (Option.some.inj heq)⟩]
      refine ⟨rfl, h.cpu_device, h.next, ?_, ?_⟩
      · intro k d
        rw [Registry.mem_remove, ← h.table]
        change AList.lookup k (s.devices.devices_.erase id) = some d ↔ _
        by_cases hk : k = id
        · subst hk
          rw [AList.lookup_erase]
          simp
        · rw [AList.lookup_erase_ne hk]
          simp [hk]
      · apply upToDate_notify h.upToDate
        exact ChangeFeed.apply_removed (all_devices_erase hlookup)

/-! ## Scans -/

omit [DecidableEq D] in
theorem registerAll_added (r : Registry D) (devices : List D) :
    (registerAll r devices).added = r.added + devices.length := by
  induction devices generalizing r with
  | nil => rfl
  | cons d l ih =>
    change (registerAll (r.add d) l).added = _
    rw [ih, List.length_cons]
    change r.added + 1 + l.length = _
    omega

theorem Represents.registerAll (h : Represents cpu s r) {devices : List D}
    (hnext : r.added + 1 + devices.length < 2 ^ 32) :
    Represents cpu (s.RegisterAll devices) (DeviceManager.registerAll r devices) := by
  induction devices generalizing s r with
  | nil => exact h
  | cons d l ih =>
    rw [List.length_cons] at hnext
    apply ih (h.register d (by omega)).2
    change r.added + 1 + 1 + l.length < 2 ^ 32
    omega

theorem Represents.scan (h : Represents cpu s r) {created : List D}
    (hnext : r.added + 1 + (created.take 64).length < 2 ^ 32) :
    Represents cpu (s.ScanDevices info created) (DeviceManager.scan info r created) := by
  have hnone : s.devices.num_devices info .kCUDA = 0 ↔ ∀ x ∈ r.live, info.type x.2 ≠ .kCUDA := by
    unfold num_devices
    rw [List.countP_eq_zero]
    simp only [decide_eq_true_eq, h.mem_iff]
    grind
  unfold ScanDevices DeviceManager.scan
  by_cases hcuda : ∀ x ∈ r.live, info.type x.2 ≠ .kCUDA
  · rw [if_pos hcuda, if_pos (hnone.mpr hcuda)]
    exact h.registerAll hnext
  · rw [if_neg hcuda, if_neg (fun h0 => hcuda (hnone.mp h0))]
    exact h

theorem Represents.lookup (h : Represents cpu s r) (type : DeviceType) (id : Int) {l : Lookup D}
    (hmeets : s.devices.Meets info l)
    (hnext : r.added + 1 + (l.created.take 64).length < 2 ^ 32) :
    Represents cpu (s.get_device info type id l).2
      (DeviceManager.lookup info r type id l.created) := by
  unfold get_device DeviceManager.lookup
  by_cases hcpu : type = .kCPU
  · rw [if_pos hcpu, if_neg (fun hboth => hboth.1 hcpu)]
    exact h
  · rw [if_neg hcpu]
    cases hfind : find_device info l.before type id with
    | some device =>
      have hmem := List.mem_of_find?_eq_some hfind
      have his := List.find?_some hfind
      obtain ⟨x, hx, rfl⟩ := h.mem_iff.mp (hmeets.1.mem_iff.mp hmem)
      rw [if_neg (fun hboth => hboth.2 x hx (by simpa using his))]
      exact h
    | none =>
      have hmiss : ∀ x ∈ r.live, ¬ (info.type x.2 = type ∧ info.id x.2 = id) := by
        intro x hx his
        have hmem := hmeets.1.mem_iff.mpr (h.mem_iff.mpr ⟨x, hx, rfl⟩)
        exact List.find?_eq_none.mp hfind _ hmem (by simpa using his)
      rw [if_pos ⟨hcpu, hmiss⟩]
      exact h.scan hnext

omit [DecidableEq D] in
theorem added_lookup_le (r : Registry D) (type : DeviceType) (id : Int) (created : List D) :
    (DeviceManager.lookup info r type id created).added ≤ r.added + (created.take 64).length ∧
      (DeviceManager.scan info r created).added ≤ r.added + (created.take 64).length := by
  have hscan : (DeviceManager.scan info r created).added ≤
      r.added + (created.take 64).length := by
    unfold DeviceManager.scan
    split_ifs
    · rw [registerAll_added]
    · omega
  refine ⟨?_, hscan⟩
  unfold DeviceManager.lookup
  split_ifs
  · exact hscan
  · omega

/-! ## Calls and sessions -/

theorem Represents.call (h : Represents cpu s r) (hfew : r.added + 1 + registrations c < 2 ^ 32)
    (hcall : s.call info c = some (reply, s')) :
    reply = (registryReply info cpu r c).1 ∧ Represents cpu s' (registryReply info cpu r c).2 ∧
      (registryReply info cpu r c).2.added ≤ r.added + registrations c := by
  cases c with
  | RegisterDevice device =>
    cases hcall
    cases device with
    | none => exact ⟨rfl, h, le_rfl⟩
    | some device =>
      obtain ⟨hid, hrep⟩ := h.register device hfew
      refine ⟨?_, hrep, le_rfl⟩
      rw [hid]
      rfl
  | UnregisterDevice id =>
    cases hcall
    obtain ⟨hok, hrep⟩ := h.unregister info id
    refine ⟨hok, hrep, ?_⟩
    simp only [registryReply]
    split_ifs
    · exact le_rfl
    · exact le_rfl
  | GetDevice id =>
    cases hcall
    refine ⟨?_, h, le_rfl⟩
    change Reply.device _ = Reply.device _
    congr 1
    apply Option.ext
    intro device
    rw [h.table, Registry.find_eq_some_iff]
  | get_device type id l =>
    simp only [Manager.call] at hcall
    split_ifs at hcall with hmeets
    cases hcall
    exact ⟨rfl, h.lookup type id hmeets hfew, (added_lookup_le r type id l.created).1⟩
  | set_default_device type id l =>
    simp only [Manager.call] at hcall
    split_ifs at hcall with hmeets
    cases hcall
    have hrep := h.lookup type id hmeets hfew
    exact ⟨rfl, ⟨hrep.cpu_device, hrep.next, hrep.table, hrep.upToDate⟩,
      (added_lookup_le r type id l.created).1⟩
  | ScanDevices created =>
    cases hcall
    exact ⟨rfl, h.scan hfew, (added_lookup_le r .kCPU 0 created).2⟩
  | AddCallback =>
    cases hcall
    refine ⟨rfl, ⟨h.cpu_device, h.next, h.table, ?_⟩, le_rfl⟩
    intro x hx
    rcases List.mem_append.mp hx with hold | hnew
    · exact h.upToDate x hold
    · obtain rfl := List.mem_singleton.mp hnew
      exact ChangeFeed.upToDate_of_known _
  | RemoveCallback callback_id =>
    simp only [Manager.call, Option.map_eq_some_iff] at hcall
    obtain ⟨⟨ok, callbacks⟩, hremove, hcall⟩ := hcall
    cases hcall
    refine ⟨rfl, ⟨h.cpu_device, h.next, h.table, ?_⟩, le_rfl⟩
    intro x hx
    apply h.upToDate
    unfold RemoveCallback at hremove
    split_ifs at hremove
    · cases hremove
      exact List.mem_of_mem_eraseIdx hx
    · cases hremove
      exact hx

theorem Represents.run {calls : List (ManagerCall D)} {replies replies' : List (Reply D)}
    (h : Represents cpu s r) (hfew : r.added + 1 + (calls.map registrations).sum < 2 ^ 32)
    (hrun : run (step info) (s, replies) calls = some (s', replies')) :
    ∃ r', Transition.run (registryReplies info cpu) (r, replies) calls = some (r', replies') ∧
      Represents cpu s' r' := by
  induction calls generalizing s r replies with
  | nil =>
    cases hrun
    exact ⟨r, rfl, h⟩
  | cons c calls ih =>
    rw [List.map_cons, List.sum_cons] at hfew
    obtain ⟨_, hstep, hrest⟩ := (run_cons ..).mp hrun
    obtain ⟨⟨reply, t⟩, hcall, rfl⟩ := Option.map_eq_some_iff.mp hstep
    obtain ⟨rfl, hrep, hadded⟩ := h.call (by omega) hcall
    exact ih (r := (registryReply info cpu r c).2) hrep (by omega) hrest

/-- A lookup scans, the device that it finds is removed, and the second callback comes later. -/
def watchedCalls : List (ManagerCall (DeviceType × Int)) :=
  let cpu := (DeviceType.kCPU, -1)
  let gpu := (DeviceType.kCUDA, 0)
  [.AddCallback, .get_device .kCUDA 0 ⟨[cpu], [gpu], [gpu, cpu]⟩, .RegisterDevice (some gpu),
    .AddCallback, .UnregisterDevice 2, .GetDevice 2, .GetDevice 3, .UnregisterDevice 1]

end Manager

end DeviceManager

end sci
