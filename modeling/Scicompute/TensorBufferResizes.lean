-- `sci::TensorBuffer` (include/memory/buffer_handle.hpp, 96-112, src/memory/buffer_handle.cpp,
-- 79-99), a handle with a shape. `resize` looks at the recorded size only, and allocates where
-- it is too small. All allocations succeed.
import Scicompute.BufferHandle
import Scicompute.ShapeSlots

open Transition

namespace sci

/-- `num_bytes()` of a shape and a type. -/
def TensorBuffer.num_bytes (shape : int64.TensorShape) (dtype : DType) : Option Nat :=
  shape.num_elements.map fun n => Word.mul (Word.toSize n) (kDTypeSize dtype)

/-- `handles` has the base of each tensor buffer, and `shapes` its `shape_` and `dtype_`. `sizes`
lists the sizes of the blocks that the devices gave. -/
structure TensorBuffers (H D F : Type*) where
  handles : Handles H D F
  shapes : H → int64.TensorShape × DType
  sizes : List Nat

/-- `data` is the address that `device->allocate` returns for a size that is not 0. -/
inductive TensorBufferAction (H D F : Type*)
  | construct (h : H)
  | construct_tensor (h : H) (shape : int64.TensorShape) (dtype : DType) (device : D) (data : Nat)
  | move_construct (h other : H) (left : Option (Dealloc D F))
  | move_assign (h other : H) (left : Option (Dealloc D F))
  | reset (h : H)
  | resize (h : H) (shape : int64.TensorShape) (dtype : DType) (device : D) (data : Nat)
  | destroy (h : H)

namespace TensorBuffers

variable {H D F : Type*}

/-- A shape without dimensions. -/
def start : TensorBuffers H D F := ⟨.start, fun _ => (⟨fun _ => 0, 0⟩, .kFloat32), []⟩

variable [DecidableEq H]

def set_shape (s : TensorBuffers H D F) (h : H) (shape : int64.TensorShape) (dtype : DType) :
    TensorBuffers H D F :=
  { s with shapes := Function.update s.shapes h (shape, dtype) }

variable [DecidableEq D] [DecidableEq F]

/-- `set_data_ptr(device->allocate(bytes))` with the setters behind it, on a handle that owns
nothing. -/
def allocate (type : D → DeviceType) (s : TensorBuffers H D F) (h : H) (device : D)
    (bytes data : Nat) : Option (TensorBuffers H D F) :=
  if bytes = 0 then
    some { s with handles := s.handles.put h (some (.ofDevice device (type device) 0 none)) }
  else if s.handles.Fresh data then
    some { s with
      handles := s.handles.take h
        (.ofDevice device (type device) bytes (some (s.handles.pointer data))) data (.device device)
      sizes := s.sizes ++ [bytes] }
  else none

/-- The members of the base, and then `shape_` and `dtype_`. -/
def move (s : TensorBuffers H D F) (h other : H) (o : BufferHandle D F)
    (left : Option (Dealloc D F)) : TensorBuffers H D F :=
  { s with handles := s.handles.move h other o left
           shapes := Function.update s.shapes h (s.shapes other) }

def deallocate (s : TensorBuffers H D F) (h : H) (b : BufferHandle D F) : TensorBuffers H D F :=
  { s with handles := s.handles.deallocate h b }

def step (type : D → DeviceType) (s : TensorBuffers H D F) :
    TensorBufferAction H D F → Option (TensorBuffers H D F)
  | .construct h =>
    match s.handles.handles h with
    | some _ => none
    | none =>
      some { s.set_shape h ⟨fun _ => 0, 0⟩ .kFloat32 with
             handles := s.handles.put h (some .empty) }
  | .construct_tensor h shape dtype device data =>
    match s.handles.handles h, TensorBuffer.num_bytes shape dtype with
    | none, some bytes => (s.set_shape h shape dtype).allocate type h device bytes data
    | _, _ => none
  | .move_construct h other left =>
    match s.handles.handles h, s.handles.handles other with
    | none, some o => some (s.move h other o left)
    | _, _ => none
  | .move_assign h other left =>
    match s.handles.handles h, s.handles.handles other with
    | some b, some o =>
      if h = other then some s else some ((s.deallocate h b).move h other o left)
    | _, _ => none
  | .reset h =>
    match s.handles.handles h with
    | none => none
    | some b => some (s.deallocate h b)
  | .resize h shape dtype device data =>
    match s.handles.handles h, TensorBuffer.num_bytes shape dtype with
    | some b, some bytes =>
      let s := s.set_shape h shape dtype
      if b.bytes_ < bytes then (s.deallocate h b).allocate type h device bytes data else some s
    | _, _ => none
  | .destroy h =>
    match s.handles.handles h with
    | none => none
    | some b => some { s.deallocate h b with handles := (s.handles.deallocate h b).put h none }

/-! ## What the buffers promise -/

/-- A buffer without data has no bytes. -/
def NullIsEmpty (s : TensorBuffers H D F) : Prop :=
  ∀ h b, s.handles.handles h = some b → b.data_ = none → b.bytes_ = 0

/-- The data of the buffer is a block of the device that was not freed, with room for
`num_bytes()` bytes. -/
def Backed (type : D → DeviceType) (s : TensorBuffers H D F) (h : H) (device : D) : Prop :=
  ∃ b p n, s.handles.handles h = some b ∧ b.data_ = some p ∧ b.device_ = type device ∧
    (p, .device device) ∈ s.handles.acquired ∧ (p, .device device) ∉ s.handles.calls ∧
    s.sizes[p.block]? = some n ∧
    ∀ k ∈ TensorBuffer.num_bytes (s.shapes h).1 (s.shapes h).2, k ≤ n

/-- After `resize` to a size that is not 0 the buffer is backed by the device. -/
def Resized (type : D → DeviceType) (t : TensorBuffers H D F) : TensorBufferAction H D F → Prop
  | .resize h shape dtype device _ =>
    TensorBuffer.num_bytes shape dtype ≠ some 0 → t.Backed type h device
  | _ => True

/-- A buffer that is moved from or reset has no bytes, and a resize that keeps the block, to a size
that is not 0, is for the device of the buffer. -/
def KeepsBlock (s : TensorBuffers H D F) : TensorBufferAction H D F → Prop
  | .move_construct _ other _ => ∀ o ∈ s.handles.handles other, o.bytes_ = 0
  | .move_assign h other _ => h = other ∨ ∀ o ∈ s.handles.handles other, o.bytes_ = 0
  | .reset h => ∀ b ∈ s.handles.handles h, b.bytes_ = 0
  | .resize h shape dtype device _ =>
    ∀ b ∈ s.handles.handles h, ∀ bytes ∈ TensorBuffer.num_bytes shape dtype,
      bytes = 0 ∨ b.bytes_ < bytes ∨ b.device_ptr_ = some device
  | _ => True

instance (s : TensorBuffers H D F) : ∀ a, Decidable (s.KeepsBlock a)
  | .construct _ => isTrue trivial
  | .construct_tensor .. => isTrue trivial
  | .move_construct _ other _ => inferInstanceAs (Decidable (∀ o ∈ s.handles.handles other, _))
  | .move_assign h other _ =>
    inferInstanceAs (Decidable (h = other ∨ ∀ o ∈ s.handles.handles other, _))
  | .reset h => inferInstanceAs (Decidable (∀ b ∈ s.handles.handles h, _))
  | .resize h shape dtype _ _ =>
    inferInstanceAs (Decidable (∀ b ∈ s.handles.handles h,
      ∀ bytes ∈ TensorBuffer.num_bytes shape dtype, _))
  | .destroy _ => isTrue trivial

/-! ## What a step keeps -/

omit [DecidableEq H] [DecidableEq D] [DecidableEq F]

/-- A buffer that has data is as the device made it. -/
structure Good (type : D → DeviceType) (sizes : List Nat) (b : BufferHandle D F) : Prop where
  empty : b.data_ = none → b.bytes_ = 0
  made : ∀ p, b.data_ = some p → ∃ device, b = .ofDevice device (type device) b.bytes_ (some p) ∧
    sizes[p.block]? = some b.bytes_

/-- All buffers are good, but for one perhaps. -/
def GoodBut (type : D → DeviceType) (s : TensorBuffers H D F) (h : H) : Prop :=
  ∀ k b, k ≠ h → s.handles.handles k = some b → Good type s.sizes b

structure Inv (type : D → DeviceType) (s : TensorBuffers H D F) : Prop where
  base : s.handles.Inv
  sizes : s.sizes.length = s.handles.acquired.length
  good : ∀ h b, s.handles.handles h = some b → Good type s.sizes b

variable {type : D → DeviceType} {s t : TensorBuffers H D F} {h : H} {b : BufferHandle D F}

theorem Good.append {sizes : List Nat} (hb : Good type sizes b) (n : Nat) :
    Good type (sizes ++ [n]) b where
  empty := hb.empty
  made := by
    intro p hp
    obtain ⟨device, hmade, hsize⟩ := hb.made p hp
    exact ⟨device, hmade, Ownership.getElem?_append_of_some hsize n⟩

theorem inv_start (type : D → DeviceType) : (start : TensorBuffers H D F).Inv type where
  base := Handles.inv_start
  sizes := rfl
  good h b hb := by cases hb

/-- A buffer of a size is backed by its device. -/
theorem Inv.backed (hs : s.Inv type) {device : D} (hb : s.handles.handles h = some b)
    (hdata : b.data_ ≠ none) (hdevice : b.device_ptr_ = some device)
    (hfits : ∀ k ∈ TensorBuffer.num_bytes (s.shapes h).1 (s.shapes h).2, k ≤ b.bytes_) :
    s.Backed type h device := by
  obtain ⟨p, hp⟩ := Option.ne_none_iff_exists'.mp hdata
  obtain ⟨device', hmade, hsize⟩ := (hs.good h b hb).made p hp
  have hsame : device' = device := by
    rw [hmade] at hdevice
    exact Option.some.inj hdevice
  subst hsame
  have howned : s.handles.owners.owned h = some (Handles.tag (p, .device device')) := by
    rw [Handles.owned_eq hb, hmade]
    rfl
  have hacquired := hs.base.accounted.owned h _ howned
  obtain ⟨hreleased, -⟩ := hs.base.accounted.not_mem_of_owned howned
  refine ⟨b, p, b.bytes_, hb, hp, by rw [hmade]; rfl, List.mem_of_getElem? hacquired, ?_, hsize,
    hfits⟩
  intro hcall
  exact hreleased (List.mem_map_of_mem hcall)

section
variable [DecidableEq H]

theorem good_put {sizes : List Nat} {handles : Handles H D F} {o : Option (BufferHandle D F)}
    (hs : ∀ k b, k ≠ h → handles.handles k = some b → Good type sizes b)
    (ho : ∀ b, o = some b → Good type sizes b) :
    ∀ k b, (handles.put h o).handles k = some b → Good type sizes b := by
  intro k b hb
  by_cases hk : k = h
  · subst hk
    simp only [Handles.put, Function.update_self] at hb
    exact ho b hb
  · simp only [Handles.put, Function.update_of_ne hk] at hb
    exact hs k b hk hb

theorem deallocate_handles_of_ne (s : TensorBuffers H D F) {k : H} (hk : k ≠ h)
    (b : BufferHandle D F) : (s.deallocate h b).handles.handles k = s.handles.handles k := by
  simp [TensorBuffers.deallocate, Handles.deallocate, Handles.put, hk]

theorem Inv.goodBut_deallocate (hs : s.Inv type) (h : H) (b : BufferHandle D F) :
    (s.deallocate h b).GoodBut type h := by
  intro k c hk hc
  rw [deallocate_handles_of_ne s hk] at hc
  exact hs.good k c hc

theorem Inv.set_shape (hs : s.Inv type) (shape : int64.TensorShape) (dtype : DType) :
    (s.set_shape h shape dtype).Inv type := ⟨hs.base, hs.sizes, hs.good⟩

/-- A buffer without bytes is moved to one that owns nothing. -/
theorem move_inv {other : H} {o : BufferHandle D F} (left : Option (Dealloc D F))
    (hbase : s.handles.Inv) (hsizes : s.sizes.length = s.handles.acquired.length)
    (hgood : s.GoodBut type h) (hfree : s.handles.owners.owned h = none) (hne : h ≠ other)
    (ho : s.handles.handles other = some o) (hzero : o.bytes_ = 0) :
    (s.move h other o left).Inv type where
  base := hbase.move left hfree hne ho
  sizes := hsizes
  good := by
    have ho' := hgood other o (Ne.symm hne) ho
    apply good_put
    · intro k b _ hb
      exact good_put hgood (by rintro c ⟨⟩; exact ho') k b hb
    · rintro c ⟨⟩
      exact ⟨fun _ => hzero, fun p hp => by cases hp⟩

/-- A buffer without bytes is reset. -/
theorem Inv.reset (hs : s.Inv type) (hb : s.handles.handles h = some b) (hzero : b.bytes_ = 0) :
    (s.deallocate h b).Inv type where
  base := hs.base.deallocate hb
  sizes := hs.sizes
  good := by
    apply good_put fun k c _ hc => hs.good k c hc
    rintro c ⟨⟩
    exact ⟨fun _ => hzero, fun p hp => by cases hp⟩

variable [DecidableEq D] [DecidableEq F]

/-- What `allocate` does to a handle that owns nothing. -/
theorem Inv.allocate {device : D} {bytes data : Nat} (hbase : s.handles.Inv)
    (hsizes : s.sizes.length = s.handles.acquired.length) (hgood : s.GoodBut type h)
    (hfree : s.handles.owners.owned h = none)
    (ht : s.allocate type h device bytes data = some t) :
    t.Inv type ∧ t.shapes = s.shapes ∧ ∃ p, t.handles.handles h =
      some (.ofDevice device (type device) bytes p) ∧ (p = none ↔ bytes = 0) := by
  unfold TensorBuffers.allocate at ht
  split_ifs at ht with hzero hfresh
  · cases ht
    subst hzero
    refine ⟨⟨?_, hsizes, ?_⟩, rfl, none, by simp [Handles.put], iff_of_true rfl rfl⟩
    · apply hbase.put hfree rfl
      rintro b ⟨⟩ -
      rfl
    · apply good_put hgood
      rintro b ⟨⟩
      constructor
      · exact fun _ => rfl
      · rintro p ⟨⟩
  · cases ht
    have hnew : (s.sizes ++ [bytes])[s.handles.acquired.length]? = some bytes := by
      rw [← hsizes, List.getElem?_concat_length]
    refine ⟨⟨?_, ?_, ?_⟩, rfl, some (s.handles.pointer data), by simp [Handles.take, Handles.put],
      iff_of_false (by simp) hzero⟩
    · exact hbase.take hfree (hbase.fresh hfresh) rfl (fun _ => rfl)
    · simp [Handles.take, hsizes]
    · apply good_put (fun k b hk hb => (hgood k b hk hb).append bytes)
      rintro b ⟨⟩
      constructor
      · intro hp
        cases hp
      · rintro p ⟨⟩
        exact ⟨device, rfl, hnew⟩

/-- A resize backs the buffer, where it does not keep a block of another device. -/
theorem Inv.resize (hs : s.Inv type) {shape : int64.TensorShape} {dtype : DType} {device : D}
    {data : Nat} (hkeeps : s.KeepsBlock (.resize h shape dtype device data))
    (ht : s.step type (.resize h shape dtype device data) = some t) :
    t.Inv type ∧ t.Resized type (.resize h shape dtype device data) := by
  unfold TensorBuffers.step at ht
  dsimp only at ht
  split at ht
  case h_2 => cases ht
  case h_1 b bytes hb hbytes =>
    split_ifs at ht with hlt
    · have hdealloc := hs.set_shape (h := h) shape dtype
      obtain ⟨hinv, hshapes, p, hp, hzero⟩ := Inv.allocate
        (s := (s.set_shape h shape dtype).deallocate h b) (hdealloc.base.deallocate hb)
        hdealloc.sizes (hdealloc.goodBut_deallocate h b) (Handles.owned_deallocate _ h b) ht
      refine ⟨hinv, fun _ => hinv.backed hp ?_ rfl ?_⟩
      · intro hnone
        have := hzero.mp hnone
        omega
      · rw [hshapes]
        simp only [TensorBuffers.deallocate, TensorBuffers.set_shape, Function.update_self, hbytes]
        rintro k ⟨⟩
        exact le_rfl
    · cases ht
      have hinv := hs.set_shape (h := h) shape dtype
      refine ⟨hinv, ?_⟩
      intro hne
      rw [hbytes] at hne
      have hpos : bytes ≠ 0 := fun h => hne (congrArg some h)
      have hdevice := (hkeeps b hb bytes hbytes).resolve_left hpos
      refine hinv.backed hb ?_ (hdevice.resolve_left hlt) ?_
      · intro hnone
        have := (hs.good h b hb).empty hnone
        omega
      · simp only [TensorBuffers.set_shape, Function.update_self, hbytes]
        rintro k ⟨⟩
        omega

theorem Inv.step (hs : s.Inv type) (a : TensorBufferAction H D F) (hkeeps : s.KeepsBlock a)
    (ht : s.step type a = some t) : t.Inv type ∧ t.Resized type a := by
  cases a with
  | construct h =>
    unfold TensorBuffers.step at ht
    dsimp only at ht
    split at ht
    · cases ht
    case h_2 hnone =>
      cases ht
      refine ⟨⟨?_, hs.sizes, ?_⟩, trivial⟩
      · apply hs.base.put (Handles.owned_none hnone) rfl
        rintro b ⟨⟩ hb
        cases hb
      · apply good_put fun k b _ hb => hs.good k b hb
        rintro b ⟨⟩
        exact ⟨fun _ => rfl, fun p hp => by cases hp⟩
  | construct_tensor h shape dtype device data =>
    unfold TensorBuffers.step at ht
    dsimp only at ht
    split at ht
    case h_2 => cases ht
    case h_1 bytes hnone hbytes =>
      have hshape := hs.set_shape (h := h) shape dtype
      exact ⟨(Inv.allocate hshape.base hshape.sizes (fun k b _ hb => hshape.good k b hb)
        (Handles.owned_none hnone) ht).1, trivial⟩
  | move_construct h other left =>
    unfold TensorBuffers.step at ht
    dsimp only at ht
    split at ht
    case h_2 => cases ht
    case h_1 o hnone ho =>
      cases ht
      refine ⟨move_inv left hs.base hs.sizes (fun k b _ hb => hs.good k b hb)
        (Handles.owned_none hnone) ?_ ho (hkeeps o ho), trivial⟩
      rintro rfl
      rw [hnone] at ho
      cases ho
  | move_assign h other left =>
    unfold TensorBuffers.step at ht
    dsimp only at ht
    split at ht
    case h_2 => cases ht
    case h_1 b o hb ho =>
      split_ifs at ht with hne
      · cases ht
        exact ⟨hs, trivial⟩
      · cases ht
        refine ⟨move_inv left (hs.base.deallocate hb) hs.sizes (hs.goodBut_deallocate h b)
          (Handles.owned_deallocate s.handles h b) hne ?_ (hkeeps.resolve_left hne o ho), trivial⟩
        rw [deallocate_handles_of_ne s (Ne.symm hne)]
        exact ho
  | reset h =>
    unfold TensorBuffers.step at ht
    dsimp only at ht
    split at ht
    · cases ht
    case h_2 b hb =>
      cases ht
      exact ⟨hs.reset hb (hkeeps b hb), trivial⟩
  | resize h shape dtype device data => exact hs.resize hkeeps ht
  | destroy h =>
    unfold TensorBuffers.step at ht
    dsimp only at ht
    split at ht
    · cases ht
    case h_2 b hb =>
      cases ht
      refine ⟨⟨?_, hs.sizes, ?_⟩, trivial⟩
      · apply (hs.base.deallocate hb).put (Handles.owned_deallocate s.handles h b) rfl
        rintro c ⟨⟩
      · apply good_put (hs.goodBut_deallocate h b)
        rintro c ⟨⟩

/-- In a run in which no buffer with bytes is moved from or reset, and no block is kept for another
device, a buffer without data has no bytes, and each resize backs its buffer. -/
theorem resized_buffers_are_backed {as : List (TensorBufferAction H D F)}
    {a : TensorBufferAction H D F} (hr : run (step type) start as = some s)
    (hm : Meets (step type) KeepsBlock start as) (ha : s.KeepsBlock a)
    (ht : s.step type a = some t) : t.NullIsEmpty ∧ t.Resized type a := by
  have hs : s.Inv type := invariant_of_meets (fun _ a _ hs ha ht => (hs.step a ha ht).1)
    (inv_start type) hm hr
  obtain ⟨hinv, hresized⟩ := hs.step a ha ht
  exact ⟨fun h b hb => (hinv.good h b hb).empty, hresized⟩

end

/-- The first device is a CPU, and the second one has another memory. -/
def typeOf (device : Bool) : DeviceType := if device then .kCUDA else .kCPU

def matrix : int64.TensorShape := .of_initializer_list [2, 3]

/-- An empty buffer is moved from, and a buffer grows and comes to another device. -/
def growBuffers : List (TensorBufferAction Bool Bool Empty) :=
  [.construct false, .move_construct true false none, .reset false,
    .resize false matrix .kInt8 false 100, .resize false matrix .kFloat32 true 200,
    .resize false matrix .kFloat16 true 300]

theorem grown_buffer_is_backed : ∃ s t : TensorBuffers Bool Bool Empty,
    run (step typeOf) start growBuffers = some s ∧
      s.step typeOf (.resize false matrix .kFloat64 true 300) = some t ∧
      t.NullIsEmpty ∧ t.Resized typeOf (.resize false matrix .kFloat64 true 300) := by
  have hr : ∃ s : TensorBuffers Bool Bool Empty, run (step typeOf) start growBuffers = some s ∧
      s.KeepsBlock (.resize false matrix .kFloat64 true 300) ∧
      (s.step typeOf (.resize false matrix .kFloat64 true 300)).isSome :=
    exists_of_any (by decide)
  obtain ⟨s, hr, hkeeps, ht⟩ := hr
  obtain ⟨t, ht⟩ := Option.isSome_iff_exists.mp ht
  exact ⟨s, t, hr, ht, resized_buffers_are_backed hr (by decide) hkeeps ht⟩

/-- A buffer of 24 bytes that is reset keeps its size, so that a resize to 6 bytes leaves it
null. -/
theorem a_reset_buffer_stays_null :
    ¬ ∀ (as : List (TensorBufferAction Bool Bool Empty)) a s t, run (step typeOf) start as = some s →
      s.step typeOf a = some t → t.NullIsEmpty ∧ t.Resized typeOf a := by
  intro h
  have hr : ∃ s : TensorBuffers Bool Bool Empty,
      run (step typeOf) start [.construct_tensor false matrix .kFloat32 false 100, .reset false] =
        some s ∧
      (s.step typeOf (.resize false matrix .kInt8 false 200)).any (fun t =>
        (t.handles.handles false).any fun b => b.data_.isNone && decide (b.bytes_ = 24)) = true :=
    exists_of_any (by decide)
  obtain ⟨s, hr, hany⟩ := hr
  obtain ⟨t, ht, hany⟩ := (Option.any_eq_true _ _).mp hany
  obtain ⟨b, hb, hnull⟩ := (Option.any_eq_true _ _).mp hany
  rw [Bool.and_eq_true, Option.isNone_iff_eq_none, decide_eq_true_eq] at hnull
  have hzero := (h _ _ s t hr ht).1 false b hb hnull.1
  omega

end TensorBuffers

end sci
