-- The device that CUDA calls act on (src/device/cuda_device.cpp, include/device/cuda_allocator.hpp,
-- src/gpu/gpu_memory.cpp): each thread has a current device. `CudaDevice` leaves it as it is, and the
-- allocators select the device of an instance that the first call has made.
import Scicompute.CudaAllocator

open Transition

namespace sci.cuda

/-- What a call through the object for the device `id` has acted on. -/
structure Act where
  id : Int
  device : Int
  deriving DecidableEq

/-- The current devices of the threads, the `device_id_` of the instance of `CudaDeviceAllocator`, and
the instance of `gpu::CudaAllocator` with its `device_id_`. -/
structure Runtime (T : Type*) where
  current : T → Int
  instance_ : Option Int
  allocator : Option (Int × gpu.CudaAllocator)
  acts : List Act

/-- The calls, each by a thread. `ptr` is what `cudaMalloc` gives, if it does not fail.
`cudaSetDevice` and `gpu_Instance` are calls of other code. -/
inductive DeviceCall (T : Type*)
  | cudaSetDevice (t : T) (d : Int)
  | gpu_Instance (t : T) (d : Int)
  /-- `CudaDevice::allocate`, `synchronize`, `free_memory` and the others. -/
  | allocate (t : T) (d : Int) (bytes : Nat) (ptr : Option Nat)
  | synchronize (t : T) (d : Int)
  | free_memory (t : T) (d : Int)
  | other (t : T) (d : Int)
  /-- `CudaDeviceAllocator::Instance(d).allocate(bytes)`, `deallocate(ptr)` and `stats()`. -/
  | allocator_allocate (t : T) (d : Int) (bytes : Nat) (ptr : Option Nat)
  | allocator_deallocate (t : T) (d : Int) (ptr : Option Nat)
  | allocator_stats (t : T) (d : Int)

/-- The id in the call. -/
def DeviceCall.id {T : Type*} : DeviceCall T → Int
  | .cudaSetDevice _ d => d
  | .gpu_Instance _ d => d
  | .allocate _ d _ _ => d
  | .synchronize _ d => d
  | .free_memory _ d => d
  | .other _ d => d
  | .allocator_allocate _ d _ _ => d
  | .allocator_deallocate _ d _ => d
  | .allocator_stats _ d => d

/-- `cuda_available`, with `count` devices. -/
def available (count : Nat) (device_id : Int) : Bool := decide (0 ≤ device_id ∧ device_id < count)

namespace Runtime

variable {T : Type*}

def start (current : T → Int) : Runtime T := ⟨current, none, none, []⟩

section Calls

variable [DecidableEq T]

/-- `gpu::CudaAllocator::set_device` -/
def set_device (s : Runtime T) (t : T) (device_id_ : Int) : Runtime T :=
  if s.current t ≠ device_id_ then { s with current := Function.update s.current t device_id_ } else s

/-- `gpu::CudaAllocator::Instance`. The constructor selects its device. -/
def gpu_Instance (s : Runtime T) (t : T) (device_id : Int) : Runtime T × (Int × gpu.CudaAllocator) :=
  match s.allocator with
  | some a => (s, a)
  | none =>
    let a := (device_id, gpu.CudaSystem.start.allocator)
    ({ s.set_device t device_id with allocator := some a }, a)

/-- `gpu::CudaAllocator::allocate_device`, and the device of the memory. -/
def allocate_device (s : Runtime T) (t : T) (a : Int × gpu.CudaAllocator) (bytes : Nat)
    (ptr : Option Nat) : Runtime T × Option Int :=
  let s := s.set_device t a.1
  match ptr with
  | none => (s, none)
  | some p => ({ s with allocator := some (a.1, a.2.allocate_device bytes p) }, some (s.current t))

def deallocate_device (s : Runtime T) (t : T) (a : Int × gpu.CudaAllocator) (ptr : Nat) :
    Runtime T :=
  { s.set_device t a.1 with allocator := some (a.1, a.2.deallocate_device ptr) }

end Calls

/-- `CudaDevice::allocate`: the device of the memory. -/
def allocate (count : Nat) (s : Runtime T) (t : T) (device_id_ : Int) (bytes : Nat)
    (ptr : Option Nat) : Option Int :=
  if ¬ available count device_id_ ∨ bytes = 0 then none else ptr.map fun _ => s.current t

/-- `CudaDevice::synchronize` and `free_memory`: the device that the call of CUDA is about. -/
def query (count : Nat) (s : Runtime T) (t : T) (device_id_ : Int) : Option Int :=
  if ¬ available count device_id_ then none else some (s.current t)

/-- `CudaDeviceAllocator::Instance` -/
def Instance (s : Runtime T) (device_id : Int) : Runtime T × Int :=
  match s.instance_ with
  | some id => (s, id)
  | none => ({ s with instance_ := some device_id }, device_id)

variable [DecidableEq T]

def allocator_allocate (count : Nat) (s : Runtime T) (t : T) (d : Int) (bytes : Nat)
    (ptr : Option Nat) : Runtime T × Option Int :=
  let (s, device_id_) := s.Instance d
  if ¬ available count device_id_ then (s, none)
  else
    let (s, a) := s.gpu_Instance t device_id_
    s.allocate_device t a bytes ptr

def allocator_deallocate (count : Nat) (s : Runtime T) (t : T) (d : Int) (ptr : Option Nat) :
    Runtime T :=
  let (s, device_id_) := s.Instance d
  match ptr with
  | none => s
  | some p =>
    if ¬ available count device_id_ then s
    else
      let (s, a) := s.gpu_Instance t device_id_
      s.deallocate_device t a p

def allocator_stats (count : Nat) (s : Runtime T) (t : T) (d : Int) : Runtime T :=
  let (s, device_id_) := s.Instance d
  if ¬ available count device_id_ then s else (s.gpu_Instance t device_id_).1

/-- The state after a call, and what it has acted on, if it is one of those. -/
def perform (count : Nat) (s : Runtime T) : DeviceCall T → Runtime T × Option Int
  | .cudaSetDevice t d => ({ s with current := Function.update s.current t d }, none)
  | .gpu_Instance t d => ((s.gpu_Instance t d).1, none)
  | .allocate t d bytes ptr => (s, s.allocate count t d bytes ptr)
  | .synchronize t d => (s, s.query count t d)
  | .free_memory t d => (s, s.query count t d)
  | .other _ _ => (s, none)
  | .allocator_allocate t d bytes ptr => s.allocator_allocate count t d bytes ptr
  | .allocator_deallocate t d ptr => (s.allocator_deallocate count t d ptr, none)
  | .allocator_stats t d => (s.allocator_stats count t d, none)

/-- The ids are those of devices that are available. -/
def step (count : Nat) (s : Runtime T) (a : DeviceCall T) : Option (Runtime T) :=
  if available count a.id then
    let r := s.perform count a
    some { r.1 with acts := r.1.acts ++ r.2.toList.map (⟨a.id, ·⟩) }
  else none

end Runtime

/-! ## The property -/

namespace Runtime

variable {T : Type*}

/-- Each call has acted on the device of its object. -/
def OnTheirDevices (s : Runtime T) : Prop := ∀ act ∈ s.acts, act.device = act.id

/-- The device on which `Instance(d).allocate` allocates. -/
def target (s : Runtime T) (d : Int) : Int :=
  match s.allocator with
  | some a => a.1
  | none => s.instance_.getD d

/-- The condition on a call: the current device of the thread is that of the object, and for the
allocator, its device is. -/
def Selected (s : Runtime T) : DeviceCall T → Prop
  | .allocate t d bytes ptr => bytes ≠ 0 → ptr ≠ none → s.current t = d
  | .synchronize t d => s.current t = d
  | .free_memory t d => s.current t = d
  | .allocator_allocate _ d _ ptr => ptr ≠ none → s.target d = d
  | _ => True

/-- The instance is one for a device. -/
def Sound (count : Nat) (s : Runtime T) : Prop := ∀ id ∈ s.instance_, available count id = true

variable [DecidableEq T] {count : Nat} {s s' : Runtime T} {t : T} {d : Int} {a : DeviceCall T}

/-! ## What each call does -/

@[simp] theorem set_device_current : (s.set_device t d).current t = d := by
  unfold set_device
  split_ifs with h
  · exact Function.update_self ..
  · exact not_not.mp h

@[simp] theorem set_device_instance : (s.set_device t d).instance_ = s.instance_ := by
  unfold set_device
  split_ifs <;> rfl

@[simp] theorem set_device_acts : (s.set_device t d).acts = s.acts := by
  unfold set_device
  split_ifs <;> rfl

@[simp] theorem gpu_Instance_instance : (s.gpu_Instance t d).1.instance_ = s.instance_ := by
  unfold gpu_Instance
  split
  · rfl
  · exact set_device_instance

@[simp] theorem gpu_Instance_acts : (s.gpu_Instance t d).1.acts = s.acts := by
  unfold gpu_Instance
  split
  · rfl
  · exact set_device_acts

theorem gpu_Instance_device : (s.gpu_Instance t d).2.1 = (s.allocator.map Prod.fst).getD d := by
  unfold gpu_Instance
  split
  · rename_i h
    rw [h]
    rfl
  · rename_i h
    rw [h]
    rfl

/-- The memory is on the device of the instance. -/
theorem allocate_device_snd (a : Int × gpu.CudaAllocator) (bytes : Nat) (ptr : Option Nat) :
    (s.allocate_device t a bytes ptr).2 = ptr.map fun _ => a.1 := by
  unfold allocate_device
  cases ptr with
  | none => rfl
  | some p => exact congrArg some set_device_current

@[simp] theorem allocate_device_instance (a : Int × gpu.CudaAllocator) (bytes : Nat)
    (ptr : Option Nat) : (s.allocate_device t a bytes ptr).1.instance_ = s.instance_ := by
  unfold allocate_device
  cases ptr <;> exact set_device_instance

@[simp] theorem allocate_device_acts (a : Int × gpu.CudaAllocator) (bytes : Nat)
    (ptr : Option Nat) : (s.allocate_device t a bytes ptr).1.acts = s.acts := by
  unfold allocate_device
  cases ptr <;> exact set_device_acts

omit [DecidableEq T] in
theorem Instance_snd : (s.Instance d).2 = s.instance_.getD d := by
  unfold Instance
  split
  · rename_i h
    rw [h]
    rfl
  · rename_i h
    rw [h]
    rfl

omit [DecidableEq T] in
@[simp] theorem Instance_instance : (s.Instance d).1.instance_ = some (s.instance_.getD d) := by
  unfold Instance
  split
  · rename_i h
    rw [h]
    rfl
  · rename_i h
    rw [h]
    rfl

omit [DecidableEq T] in
@[simp] theorem Instance_acts : (s.Instance d).1.acts = s.acts := by
  unfold Instance
  split <;> rfl

omit [DecidableEq T] in
@[simp] theorem Instance_allocator : (s.Instance d).1.allocator = s.allocator := by
  unfold Instance
  split <;> rfl

omit [DecidableEq T] in
theorem Sound.getD (h : s.Sound count) (hd : available count d = true) :
    available count (s.instance_.getD d) = true := by
  cases hid : s.instance_ with
  | none => exact hd
  | some id => exact h id hid

/-- The memory of `Instance(d).allocate` is on its target. -/
theorem allocator_allocate_snd (h : s.Sound count) (hd : available count d = true) (bytes : Nat)
    (ptr : Option Nat) :
    (s.allocator_allocate count t d bytes ptr).2 = ptr.map fun _ => s.target d := by
  have havail : ¬ ¬ available count (s.Instance d).2 = true := by
    rw [Instance_snd, not_not]
    exact h.getD hd
  have htarget : ((s.Instance d).1.gpu_Instance t (s.Instance d).2).2.1 = s.target d := by
    rw [gpu_Instance_device, Instance_allocator, Instance_snd, target]
    cases s.allocator <;> rfl
  unfold allocator_allocate
  dsimp only
  rw [if_neg havail, allocate_device_snd, htarget]

theorem acts_perform (s : Runtime T) (a : DeviceCall T) : (s.perform count a).1.acts = s.acts := by
  cases a with
  | cudaSetDevice t d => rfl
  | gpu_Instance t d => exact gpu_Instance_acts
  | allocate t d bytes ptr => rfl
  | synchronize t d => rfl
  | free_memory t d => rfl
  | other t d => rfl
  | allocator_allocate t d bytes ptr =>
    unfold perform allocator_allocate
    dsimp only
    split_ifs <;> simp
  | allocator_deallocate t d ptr =>
    unfold perform allocator_deallocate deallocate_device
    dsimp only
    cases ptr with
    | none => exact Instance_acts
    | some p =>
      dsimp only
      split_ifs <;> simp
  | allocator_stats t d =>
    unfold perform allocator_stats
    dsimp only
    split_ifs <;> simp

/-- Only `CudaDeviceAllocator::Instance` makes the instance. -/
theorem instance_perform (count : Nat) (s : Runtime T) (a : DeviceCall T) :
    (s.perform count a).1.instance_ = s.instance_ ∨
      (s.perform count a).1.instance_ = some (s.instance_.getD a.id) := by
  cases a with
  | cudaSetDevice t d => exact Or.inl rfl
  | gpu_Instance t d => exact Or.inl gpu_Instance_instance
  | allocate t d bytes ptr => exact Or.inl rfl
  | synchronize t d => exact Or.inl rfl
  | free_memory t d => exact Or.inl rfl
  | other t d => exact Or.inl rfl
  | allocator_allocate t d bytes ptr =>
    right
    unfold perform allocator_allocate
    dsimp only
    split_ifs <;> simp [DeviceCall.id]
  | allocator_deallocate t d ptr =>
    right
    unfold perform allocator_deallocate deallocate_device
    dsimp only
    cases ptr with
    | none => exact Instance_instance
    | some p =>
      dsimp only
      split_ifs <;> simp [DeviceCall.id]
  | allocator_stats t d =>
    right
    unfold perform allocator_stats
    dsimp only
    split_ifs <;> simp [DeviceCall.id]

/-- A call acts on the device of its object where this is selected. -/
theorem selected_iff (h : s.Sound count) (ha : available count a.id = true) :
    s.Selected a ↔ ∀ device ∈ (s.perform count a).2, device = a.id := by
  cases a with
  | cudaSetDevice t d => exact iff_of_true trivial nofun
  | gpu_Instance t d => exact iff_of_true trivial nofun
  | other t d => exact iff_of_true trivial nofun
  | allocator_deallocate t d ptr => exact iff_of_true trivial nofun
  | allocator_stats t d => exact iff_of_true trivial nofun
  | allocate t d bytes ptr =>
    have hd : available count d = true := ha
    simp only [perform, allocate, Selected, DeviceCall.id, hd]
    by_cases hbytes : bytes = 0
    · simp [hbytes]
    · cases ptr <;> simp [hbytes]
  | synchronize t d =>
    have hd : available count d = true := ha
    simp [perform, query, Selected, DeviceCall.id, hd]
  | free_memory t d =>
    have hd : available count d = true := ha
    simp [perform, query, Selected, DeviceCall.id, hd]
  | allocator_allocate t d bytes ptr =>
    have hsnd : (s.perform count (.allocator_allocate t d bytes ptr)).2 = ptr.map fun _ => s.target d :=
      allocator_allocate_snd h ha bytes ptr
    rw [hsnd]
    cases ptr <;> simp [Selected, DeviceCall.id]

theorem step_eq_some (h : s.step count a = some s') : available count a.id = true ∧
    s' = { (s.perform count a).1 with
      acts := s.acts ++ (s.perform count a).2.toList.map (⟨a.id, ·⟩) } := by
  unfold step at h
  split_ifs at h with ha
  cases h
  exact ⟨ha, by rw [acts_perform]⟩

/-! ## Runs -/

theorem sound_step (h : s.Sound count) (hs : s.step count a = some s') : s'.Sound count := by
  obtain ⟨ha, rfl⟩ := step_eq_some hs
  intro id hid
  rcases instance_perform count s a with hsame | hnew
  · exact h id (hsame ▸ hid)
  · have hid' : some (s.instance_.getD a.id) = some id := hnew.symm.trans hid
    rw [← Option.some.inj hid']
    exact h.getD ha

theorem onTheirDevices_step (h : s.Sound count) (hs : s.step count a = some s') :
    s'.OnTheirDevices ↔ s.OnTheirDevices ∧ s.Selected a := by
  obtain ⟨ha, rfl⟩ := step_eq_some hs
  unfold OnTheirDevices
  rw [selected_iff h ha, List.forall_mem_append, List.forall_mem_map]
  refine and_congr_right fun _ => forall_congr' fun device => ?_
  rw [Option.mem_toList]
  exact Iff.rfl

/-- In every run, from any current devices, the calls have acted on the devices of their objects if
and only if each of them had its device selected. -/
theorem onTheirDevices_iff {current : T → Int} {as : List (DeviceCall T)}
    (hr : run (step count) (start current) as = some s) :
    s.OnTheirDevices ↔ Meets (step count) Selected (start current) as := by
  refine meets_iff_of_run (I := Sound count) (fun s a s' h hs => sound_step h hs) ?_ ?_ nofun nofun hr
  · intro s a s' h hgood hs
    rw [onTheirDevices_step h hs, and_iff_right hgood]
  · intro s a s' h hbad hs hgood
    exact hbad ((onTheirDevices_step h hs).mp hgood).1

/-- Two devices: the memory of an object for the device 0, behind a call that selects it. -/
theorem memory_of_a_selected_device : ∃ s, run (step 2) (start fun _ : Unit => 1)
    [.cudaSetDevice () 0, .allocate () 0 16 (some 4096)] = some s ∧ s.OnTheirDevices := by
  have hr : run (step 2) (start fun _ : Unit => 1)
    [.cudaSetDevice () 0, .allocate () 0 16 (some 4096)] = some _ := rfl
  refine ⟨_, hr, (onTheirDevices_iff hr).mpr ⟨trivial, fun s hs => ?_⟩⟩
  cases hs
  exact ⟨fun _ _ => rfl, fun _ _ => trivial⟩

/-- The memory of an object for the device 1 is on the device 0. -/
theorem memory_of_another_device : ∃ s, run (step 2) (start fun _ : Unit => 0)
    [.allocate () 1 16 (some 4096)] = some s ∧ ¬ s.OnTheirDevices := by
  refine ⟨_, rfl, fun h => ?_⟩
  have hdevice := h ⟨1, 0⟩ (by decide)
  exact absurd hdevice (by decide)

/-! ## One device -/

/-- Everything is on the device 0. -/
structure OnlyZero (s : Runtime T) : Prop where
  current : ∀ t, s.current t = 0
  instance_ : ∀ id ∈ s.instance_, id = 0
  allocator : ∀ a ∈ s.allocator, a.1 = 0

theorem OnlyZero.set_device (h : s.OnlyZero) (t : T) : s.set_device t 0 = s :=
  if_neg (not_not.mpr (h.current t))

omit [DecidableEq T] in
theorem OnlyZero.Instance (h : s.OnlyZero) : (s.Instance 0).1.OnlyZero ∧ (s.Instance 0).2 = 0 := by
  unfold Runtime.Instance
  cases hid : s.instance_ with
  | some id => exact ⟨h, h.instance_ id hid⟩
  | none => exact ⟨⟨h.current, fun _ hid => (Option.some.inj hid).symm, h.allocator⟩, rfl⟩

theorem OnlyZero.gpu_Instance (h : s.OnlyZero) (t : T) :
    (s.gpu_Instance t 0).1.OnlyZero ∧ (s.gpu_Instance t 0).2.1 = 0 := by
  unfold Runtime.gpu_Instance
  cases ha : s.allocator with
  | some a => exact ⟨h, h.allocator a ha⟩
  | none =>
    dsimp only
    rw [h.set_device]
    exact ⟨⟨h.current, h.instance_, fun _ ha => by rw [← Option.some.inj ha]⟩, rfl⟩

theorem OnlyZero.allocate_device (h : s.OnlyZero) (t : T) {a : Int × gpu.CudaAllocator}
    (ha : a.1 = 0) (bytes : Nat) (ptr : Option Nat) :
    (s.allocate_device t a bytes ptr).1.OnlyZero := by
  unfold Runtime.allocate_device
  dsimp only
  rw [ha, h.set_device]
  cases ptr with
  | none => exact h
  | some p => exact ⟨h.current, h.instance_, fun _ ha => by rw [← Option.some.inj ha]⟩

theorem OnlyZero.perform (h : s.OnlyZero) (ha : a.id = 0) (count : Nat) :
    (s.perform count a).1.OnlyZero := by
  obtain ⟨hinstance, hid⟩ := h.Instance
  have hgpu := fun t => hinstance.gpu_Instance t
  cases a with
  | cudaSetDevice t d =>
    refine ⟨fun t' => ?_, h.instance_, h.allocator⟩
    have hd : d = 0 := ha
    unfold Runtime.perform
    dsimp only
    rw [Function.update_apply, hd, h.current, ite_self]
  | gpu_Instance t d =>
    have hd : d = 0 := ha
    rw [hd]
    exact (h.gpu_Instance t).1
  | allocate t d bytes ptr => exact h
  | synchronize t d => exact h
  | free_memory t d => exact h
  | other t d => exact h
  | allocator_allocate t d bytes ptr =>
    have hd : d = 0 := ha
    unfold Runtime.perform allocator_allocate
    dsimp only
    rw [hd, hid]
    split_ifs
    · exact (hgpu t).1.allocate_device t (hgpu t).2 bytes ptr
    · exact hinstance
  | allocator_deallocate t d ptr =>
    have hd : d = 0 := ha
    unfold Runtime.perform allocator_deallocate
    dsimp only
    rw [hd, hid]
    cases ptr with
    | none => exact hinstance
    | some p =>
      dsimp only
      split_ifs
      · unfold deallocate_device
        rw [(hgpu t).2, (hgpu t).1.set_device]
        exact ⟨(hgpu t).1.current, (hgpu t).1.instance_, fun _ ha => by rw [← Option.some.inj ha]⟩
      · exact hinstance
  | allocator_stats t d =>
    have hd : d = 0 := ha
    unfold Runtime.perform allocator_stats
    dsimp only
    rw [hd, hid]
    split_ifs
    · exact (hgpu t).1
    · exact hinstance

omit [DecidableEq T] in
theorem OnlyZero.selected (h : s.OnlyZero) (ha : a.id = 0) : s.Selected a := by
  cases a with
  | allocate t d bytes ptr => exact fun _ _ => (h.current t).trans ha.symm
  | synchronize t d => exact (h.current t).trans ha.symm
  | free_memory t d => exact (h.current t).trans ha.symm
  | allocator_allocate t d bytes ptr =>
    have hd : d = 0 := ha
    intro _
    unfold target
    cases halloc : s.allocator with
    | some a => exact (h.allocator a halloc).trans hd.symm
    | none =>
      cases hid : s.instance_ with
      | some id => exact (h.instance_ id hid).trans hd.symm
      | none => rfl
  | cudaSetDevice t d => trivial
  | gpu_Instance t d => trivial
  | other t d => trivial
  | allocator_deallocate t d ptr => trivial
  | allocator_stats t d => trivial

/-- With one device every order of the calls is right. -/
theorem one_device_is_right {as : List (DeviceCall T)}
    (hr : run (step 1) (start fun _ => 0) as = some s) : s.OnTheirDevices := by
  have hstep : ∀ (s : Runtime T) a s', s.Sound 1 ∧ s.OnlyZero ∧ s.OnTheirDevices →
      s.step 1 a = some s' → s'.Sound 1 ∧ s'.OnlyZero ∧ s'.OnTheirDevices := by
    rintro s a s' ⟨hsound, hzero, hgood⟩ hs
    have ha : a.id = 0 := by
      have havail := of_decide_eq_true (step_eq_some hs).1
      omega
    refine ⟨sound_step hsound hs, ?_, (onTheirDevices_step hsound hs).mpr ⟨hgood, hzero.selected ha⟩⟩
    obtain ⟨-, rfl⟩ := step_eq_some hs
    have hperform := hzero.perform ha 1
    exact ⟨hperform.current, hperform.instance_, hperform.allocator⟩
  have hstart : (start fun _ : T => 0).Sound 1 ∧ (start fun _ : T => 0).OnlyZero ∧
      (start fun _ : T => 0).OnTheirDevices := ⟨nofun, ⟨fun _ => rfl, nofun, nofun⟩, nofun⟩
  exact (invariant_of_run hstep hstart hr).2.2

end Runtime

end sci.cuda
