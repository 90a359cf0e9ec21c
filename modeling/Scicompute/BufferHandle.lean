-- The owner of a buffer, `sci::BufferHandle` (include/memory/buffer_handle.hpp,
-- src/memory/buffer_handle.cpp), and any number of handles that take buffers over
-- from each other. A pointer carries the number of the block that it points to, which
-- tells apart two blocks that have had the same address.
import Scicompute.Transition
import Scicompute.Ownership
import Scicompute.Tensor

open Transition

namespace sci

structure BlockPtr where
  address : Nat
  block : Nat
  deriving DecidableEq

/-- A `std::function<void(void*)>`. -/
inductive Dealloc (D F : Type*)
  /-- `[device](void* ptr) { device->deallocate(ptr); }` -/
  | device (device : D)
  | fn (f : F)
  deriving DecidableEq

/-- `none` stands for the null pointer, and for an empty function. -/
structure BufferHandle (D F : Type*) where
  data_ : Option BlockPtr
  bytes_ : Nat
  device_ : DeviceType
  device_ptr_ : Option D
  dealloc_fn_ : Option (Dealloc D F)
  owns_data_ : Bool

namespace BufferHandle

variable {D F : Type*}

def empty : BufferHandle D F := ⟨none, 0, .kCPU, none, none, false⟩

def ofData (data : Option BlockPtr) (bytes : Nat) (device : DeviceType)
    (dealloc : Option (Dealloc D F)) : BufferHandle D F :=
  { data_ := data, bytes_ := bytes, device_ := device, device_ptr_ := none,
    dealloc_fn_ := dealloc, owns_data_ := true }

/-- `data` is what `device->allocate(bytes)` returns. -/
def ofDevice (device : D) (type : DeviceType) (bytes : Nat) (data : Option BlockPtr) :
    BufferHandle D F :=
  { data_ := data, bytes_ := bytes, device_ := type, device_ptr_ := some device,
    dealloc_fn_ := some (.device device), owns_data_ := true }

/-- The handle after a move from it. The standard does not say what `left` is. -/
def moved (other : BufferHandle D F) (left : Option (Dealloc D F)) : BufferHandle D F :=
  { other with data_ := none, dealloc_fn_ := left, owns_data_ := false }

/-- The call that `deallocate()` makes. -/
def dealloc_call (b : BufferHandle D F) : Option (BlockPtr × Dealloc D F) :=
  match b.owns_data_, b.data_, b.dealloc_fn_ with
  | true, some data, some dealloc_fn => some (data, dealloc_fn)
  | _, _, _ => none

def deallocate (b : BufferHandle D F) : BufferHandle D F :=
  { b with data_ := none, owns_data_ := false }

/-- `reset(data, bytes, device, dealloc)`, after its `deallocate()`. -/
def reset (b : BufferHandle D F) (data : Option BlockPtr) (bytes : Nat) (device : DeviceType)
    (dealloc : Option (Dealloc D F)) : BufferHandle D F :=
  { b with data_ := data, bytes_ := bytes, device_ := device, dealloc_fn_ := dealloc,
           owns_data_ := true }

def detach (b : BufferHandle D F) : Option BlockPtr × BufferHandle D F :=
  (b.data_, { b with owns_data_ := false })

/-- A handle that owns a buffer has a deallocator. -/
def Releases (b : BufferHandle D F) : Prop :=
  b.owns_data_ = true → b.dealloc_fn_.isSome = true

end BufferHandle

/-! ## Any number of handles -/

/-- `acquired` lists the blocks that the handles were given, each with its deallocator, `calls`
the calls of deallocators, and `detached` the blocks that `detach` took from their owner. -/
structure Handles (H D F : Type*) where
  handles : H → Option (BufferHandle D F)
  acquired : List (BlockPtr × Dealloc D F)
  calls : List (BlockPtr × Dealloc D F)
  detached : List (BlockPtr × Dealloc D F)

/-- The name of a handle, and the arguments. `left` is what the move of the `std::function`
leaves behind. -/
inductive HandleAction (H D F : Type*)
  | construct (h : H)
  | construct_device (h : H) (device : D) (type : DeviceType) (bytes : Nat) (data : Option Nat)
  | construct_data (h : H) (data bytes : Nat) (device : DeviceType) (dealloc : F)
  | move_construct (h other : H) (left : Option (Dealloc D F))
  | move_assign (h other : H) (left : Option (Dealloc D F))
  | reset (h : H)
  | reset_data (h : H) (data bytes : Nat) (device : DeviceType) (dealloc : F)
  | detach (h : H)
  | destroy (h : H)

namespace Handles

variable {H D F : Type*}

def start : Handles H D F := ⟨fun _ => none, [], [], []⟩

/-- The pointer to the next block that is acquired. -/
def pointer (s : Handles H D F) (address : Nat) : BlockPtr := ⟨address, s.acquired.length⟩

/-- The address of a fresh pointer: no block has it that was neither released nor detached. -/
def Fresh (s : Handles H D F) (address : Nat) : Prop :=
  ∀ x ∈ s.acquired, x.1.address = address → x ∈ s.calls ∨ x ∈ s.detached

instance [DecidableEq D] [DecidableEq F] (s : Handles H D F) (address : Nat) :
    Decidable (s.Fresh address) :=
  inferInstanceAs (Decidable (∀ x ∈ s.acquired, _))

variable [DecidableEq H]

def put (s : Handles H D F) (h : H) (b : Option (BufferHandle D F)) : Handles H D F :=
  { s with handles := Function.update s.handles h b }

/-- The handle takes over the next block. -/
def take (s : Handles H D F) (h : H) (b : BufferHandle D F) (address : Nat)
    (dealloc : Dealloc D F) : Handles H D F :=
  { s.put h (some b) with acquired := s.acquired ++ [(s.pointer address, dealloc)] }

def deallocate (s : Handles H D F) (h : H) (b : BufferHandle D F) : Handles H D F :=
  { s.put h (some b.deallocate) with calls := s.calls ++ b.dealloc_call.toList }

def detach (s : Handles H D F) (h : H) (b : BufferHandle D F) : Handles H D F :=
  { s.put h (some b.detach.2) with detached := s.detached ++ b.dealloc_call.toList }

/-- The handle `h` gets the members of `other`. -/
def move (s : Handles H D F) (h other : H) (o : BufferHandle D F)
    (left : Option (Dealloc D F)) : Handles H D F :=
  (s.put h (some o)).put other (some (o.moved left))

variable [DecidableEq D] [DecidableEq F]

def step (s : Handles H D F) : HandleAction H D F → Option (Handles H D F)
  | .construct h =>
    match s.handles h with
    | some _ => none
    | none => some (s.put h (some .empty))
  | .construct_device h device type bytes data =>
    match s.handles h, data with
    | some _, _ => none
    | none, none => some (s.put h (some (.ofDevice device type bytes none)))
    | none, some data =>
      if s.Fresh data then
        some (s.take h (.ofDevice device type bytes (some (s.pointer data))) data (.device device))
      else none
  | .construct_data h data bytes device dealloc =>
    match s.handles h with
    | some _ => none
    | none =>
      if s.Fresh data then
        some (s.take h (.ofData (some (s.pointer data)) bytes device (some (.fn dealloc))) data
          (.fn dealloc))
      else none
  | .move_construct h other left =>
    match s.handles h, s.handles other with
    | none, some o => some (s.move h other o left)
    | _, _ => none
  | .move_assign h other left =>
    match s.handles h, s.handles other with
    | some b, some o =>
      if h = other then some s else some ((s.deallocate h b).move h other o left)
    | _, _ => none
  | .reset h =>
    match s.handles h with
    | none => none
    | some b => some (s.deallocate h b)
  | .reset_data h data bytes device dealloc =>
    match s.handles h with
    | none => none
    | some b =>
      if s.Fresh data then
        some ((s.deallocate h b).take h
          (b.deallocate.reset (some (s.pointer data)) bytes device (some (.fn dealloc))) data
          (.fn dealloc))
      else none
  | .detach h =>
    match s.handles h with
    | none => none
    | some b => some (s.detach h b)
  | .destroy h =>
    match s.handles h with
    | none => none
    | some b => some ((s.deallocate h b).put h none)

/-! ## What the handles promise -/

/-- The two handles own the same pointer. -/
def Share (b c : BufferHandle D F) : Prop :=
  b.owns_data_ = true ∧ c.owns_data_ = true ∧
    ∃ p q, b.data_ = some p ∧ c.data_ = some q ∧ p.address = q.address

/-- Each block is passed to its own deallocator once when no handle is left, unless it was
detached; a detached block never is. -/
structure ReleasesOnce (s : Handles H D F) : Prop where
  owners : ∀ h k b c, s.handles h = some b → s.handles k = some c → Share b c → h = k
  blocks : (s.acquired.map fun x => x.1.block).Nodup
  own : ∀ c ∈ s.calls, c ∈ s.acquired
  once : s.calls.Nodup
  detached : ∀ x ∈ s.detached, ∀ c ∈ s.calls, c.1 ≠ x.1
  released : (∀ h, s.handles h = none) → ∀ x ∈ s.acquired, x ∉ s.detached → x ∈ s.calls

/-! ## The handles as owners -/

omit [DecidableEq H] [DecidableEq D] [DecidableEq F]

/-- A block with its number. -/
def tag (c : BlockPtr × Dealloc D F) : Nat × (BlockPtr × Dealloc D F) := (c.1.block, c)

def address (c : BlockPtr × Dealloc D F) : Nat := c.1.address

def owners (s : Handles H D F) : Ownership H (BlockPtr × Dealloc D F) where
  owned h := ((s.handles h).bind BufferHandle.dealloc_call).map tag
  acquired := s.acquired
  released := s.calls.map tag
  detached := s.detached.map tag

variable {s t : Handles H D F} {h : H} {b : BufferHandle D F}

theorem owned_eq (hb : s.handles h = some b) : s.owners.owned h = b.dealloc_call.map tag := by
  simp [owners, hb]

theorem owned_none (hb : s.handles h = none) : s.owners.owned h = none := by
  simp [owners, hb]

section
variable [DecidableEq H]

theorem owners_put (s : Handles H D F) (h : H) (b : Option (BufferHandle D F)) :
    (s.put h b).owners = { s.owners with
      owned := Function.update s.owners.owned h ((b.bind BufferHandle.dealloc_call).map tag) } := by
  simp only [owners, put, Ownership.mk.injEq, and_true]
  funext k
  by_cases hk : k = h
  · subst hk
    simp
  · simp [hk]

/-- A handle comes, or goes, that owns nothing. -/
theorem owners_put_none {b : Option (BufferHandle D F)} (hs : s.owners.owned h = none)
    (hb : b.bind BufferHandle.dealloc_call = none) : (s.put h b).owners = s.owners := by
  rw [owners_put, hb, Option.map_none, ← hs, Function.update_eq_self]

theorem owners_take {address : Nat} {f : Dealloc D F}
    (hb : b.dealloc_call = some (s.pointer address, f)) :
    (s.take h b address f).owners = s.owners.acquire h (s.pointer address, f) := by
  have hput := owners_put s h (some b)
  rw [Option.bind_some, hb] at hput
  have howned := congrArg Ownership.owned hput
  simp only [owners, Ownership.acquire, Ownership.mk.injEq]
  exact ⟨howned, rfl, rfl, rfl⟩

theorem owners_deallocate (hb : s.handles h = some b) :
    (s.deallocate h b).owners = s.owners.release h := by
  have hnone : b.deallocate.dealloc_call = none := by
    simp [BufferHandle.deallocate, BufferHandle.dealloc_call]
  unfold Ownership.release
  rw [owned_eq hb]
  cases hc : b.dealloc_call with
  | none =>
    have hsame : s.deallocate h b = s.put h (some b.deallocate) := by
      simp [deallocate, hc, put]
    rw [hsame]
    exact owners_put_none (by rw [owned_eq hb, hc]; rfl) hnone
  | some c =>
    have howned := congrArg Ownership.owned (owners_put s h (some b.deallocate))
    rw [Option.bind_some, hnone] at howned
    simp only [owners, Ownership.mk.injEq, Option.map_some]
    exact ⟨howned, rfl, by simp [deallocate, hc], rfl⟩

theorem owners_move {other : H} {o : BufferHandle D F} (left : Option (Dealloc D F))
    (ho : s.handles other = some o) : (s.move h other o left).owners = s.owners.move h other := by
  have hmoved : (o.moved left).dealloc_call = none := by
    simp [BufferHandle.moved, BufferHandle.dealloc_call]
  unfold move Ownership.move
  rw [owners_put, owners_put, Option.bind_some, Option.bind_some, hmoved, owned_eq ho]
  rfl

theorem owners_detach (hb : s.handles h = some b) :
    (s.detach h b).owners = s.owners.detach h := by
  have hnone : b.detach.2.dealloc_call = none := by
    simp [BufferHandle.detach, BufferHandle.dealloc_call]
  unfold Ownership.detach
  rw [owned_eq hb]
  cases hc : b.dealloc_call with
  | none =>
    have hsame : s.detach h b = s.put h (some b.detach.2) := by
      simp [detach, hc, put]
    rw [hsame]
    exact owners_put_none (by rw [owned_eq hb, hc]; rfl) hnone
  | some c =>
    have howned := congrArg Ownership.owned (owners_put s h (some b.detach.2))
    rw [Option.bind_some, hnone] at howned
    simp only [owners, Ownership.mk.injEq, Option.map_some]
    exact ⟨howned, rfl, rfl, by simp [detach, hc]⟩

end

/-! ## What a step keeps -/

/-- The blocks are accounted for, those with an owner have different addresses, and a handle
that owns a buffer can release it. -/
structure Inv (s : Handles H D F) : Prop where
  accounted : s.owners.Accounted
  distinct : s.owners.Distinct address
  releases : ∀ h b, s.handles h = some b → b.Releases
  numbers : ∀ (n : Nat) (x : BlockPtr × Dealloc D F), s.acquired[n]? = some x → x.1.block = n

theorem inv_start : (start : Handles H D F).Inv where
  accounted := Ownership.accounted_start
  distinct := Ownership.distinct_start
  releases h b hb := by cases hb
  numbers n x hx := by simp [start] at hx

/-- A fresh pointer has not the address of a block with an owner. -/
theorem Inv.fresh (hs : s.Inv) {data : Nat} (hf : s.Fresh data) :
    ∀ k x, s.owners.owned k = some x → x.2.1.address ≠ data := by
  intro k x hx he
  have hacq := hs.accounted.owned k x hx
  have hnum := hs.numbers x.1 x.2 hacq
  have hx2 : tag x.2 = x := by
    unfold tag
    rw [hnum]
  obtain ⟨hr, hd⟩ := hs.accounted.not_mem_of_owned hx
  rcases hf x.2 (List.mem_of_getElem? hacq) he with hc | hc
  · exact hr (hx2 ▸ List.mem_map_of_mem (f := tag) hc)
  · exact hd (hx2 ▸ List.mem_map_of_mem (f := tag) hc)

section
variable [DecidableEq H]

theorem releases_put {o : Option (BufferHandle D F)} (hs : ∀ k b, s.handles k = some b → b.Releases)
    (ho : ∀ b, o = some b → b.Releases) : ∀ k b, (s.put h o).handles k = some b → b.Releases := by
  intro k b hb
  by_cases hk : k = h
  · subst hk
    simp only [put, Function.update_self] at hb
    exact ho b hb
  · simp only [put, Function.update_of_ne hk] at hb
    exact hs k b hb

theorem Inv.put (hs : s.Inv) {o : Option (BufferHandle D F)} (hfree : s.owners.owned h = none)
    (hnone : o.bind BufferHandle.dealloc_call = none) (ho : ∀ b, o = some b → b.Releases) :
    (s.put h o).Inv where
  accounted := by
    rw [owners_put_none hfree hnone]
    exact hs.accounted
  distinct := by
    rw [owners_put_none hfree hnone]
    exact hs.distinct
  releases := releases_put hs.releases ho
  numbers := hs.numbers

theorem Inv.take (hs : s.Inv) {data : Nat} {f : Dealloc D F} (hfree : s.owners.owned h = none)
    (hf : ∀ k x, s.owners.owned k = some x → x.2.1.address ≠ data)
    (hb : b.dealloc_call = some (s.pointer data, f)) (hrel : b.Releases) :
    (s.take h b data f).Inv where
  accounted := by
    rw [owners_take hb]
    exact hs.accounted.acquire hfree _
  distinct := by
    rw [owners_take hb]
    exact hs.distinct.acquire hf
  releases := releases_put hs.releases (by rintro c ⟨⟩; exact hrel)
  numbers := by
    intro n x hx
    rcases Nat.lt_trichotomy n s.acquired.length with hn | hn | hn
    · have hx' : (s.acquired ++ [(s.pointer data, f)])[n]? = some x := hx
      rw [List.getElem?_append_left hn] at hx'
      exact hs.numbers n x hx'
    · have hx' : (s.acquired ++ [(s.pointer data, f)])[n]? = some x := hx
      rw [hn, List.getElem?_concat_length, Option.some.injEq] at hx'
      rw [← hx', hn]
      rfl
    · have hx' : (s.acquired ++ [(s.pointer data, f)])[n]? = some x := hx
      rw [List.getElem?_eq_none (by simp; omega)] at hx'
      cases hx'

theorem Inv.deallocate (hs : s.Inv) (hb : s.handles h = some b) : (s.deallocate h b).Inv where
  accounted := by
    rw [owners_deallocate hb]
    exact hs.accounted.release h
  distinct := by
    rw [owners_deallocate hb]
    exact hs.distinct.release h
  releases := releases_put hs.releases (by
    rintro c ⟨⟩ hc
    cases hc)
  numbers := hs.numbers

/-- After `deallocate` a handle owns nothing. -/
theorem owned_deallocate (s : Handles H D F) (h : H) (b : BufferHandle D F) :
    (s.deallocate h b).owners.owned h = none := by
  simp [owners, Handles.deallocate, Handles.put, BufferHandle.deallocate,
    BufferHandle.dealloc_call]

theorem Inv.move (hs : s.Inv) {other : H} {o : BufferHandle D F} (left : Option (Dealloc D F))
    (hfree : s.owners.owned h = none) (hne : h ≠ other) (ho : s.handles other = some o) :
    (s.move h other o left).Inv where
  accounted := by
    rw [owners_move left ho]
    exact hs.accounted.move hfree hne
  distinct := by
    rw [owners_move left ho]
    exact hs.distinct.move
  releases := by
    apply releases_put
    · apply releases_put hs.releases
      rintro c ⟨⟩
      exact hs.releases other o ho
    · rintro c ⟨⟩ hc
      cases hc
  numbers := hs.numbers

theorem Inv.detach (hs : s.Inv) (hb : s.handles h = some b) :
    (s.detach h b).Inv where
  accounted := by
    rw [owners_detach hb]
    exact hs.accounted.detach h
  distinct := by
    rw [owners_detach hb]
    exact hs.distinct.detach h
  releases := releases_put hs.releases (by
    rintro c ⟨⟩ hc
    cases hc)
  numbers := hs.numbers

variable [DecidableEq D] [DecidableEq F]

theorem Inv.step (hs : s.Inv) (a : HandleAction H D F) (ht : s.step a = some t) : t.Inv := by
  cases a with
  | construct h =>
    simp only [Handles.step] at ht
    cases hh : s.handles h with
    | some b => simp [hh] at ht
    | none =>
      rw [hh, Option.some.injEq] at ht
      subst ht
      apply hs.put (owned_none hh) rfl
      rintro b ⟨⟩ hb
      cases hb
  | construct_device h device type bytes data =>
    simp only [Handles.step] at ht
    cases hh : s.handles h with
    | some b => simp [hh] at ht
    | none =>
      cases data with
      | none =>
        rw [hh, Option.some.injEq] at ht
        subst ht
        apply hs.put (owned_none hh) rfl
        rintro b ⟨⟩ -
        rfl
      | some data =>
        simp only [hh] at ht
        split_ifs at ht with hf
        cases ht
        exact hs.take (owned_none hh) (hs.fresh hf) rfl (fun _ => rfl)
  | construct_data h data bytes device dealloc =>
    simp only [Handles.step] at ht
    cases hh : s.handles h with
    | some b => simp [hh] at ht
    | none =>
      simp only [hh] at ht
      split_ifs at ht with hf
      cases ht
      exact hs.take (owned_none hh) (hs.fresh hf) rfl (fun _ => rfl)
  | move_construct h other left =>
    simp only [Handles.step] at ht
    cases hh : s.handles h with
    | some b => simp [hh] at ht
    | none =>
      cases ho : s.handles other with
      | none => simp [hh, ho] at ht
      | some o =>
        rw [hh, ho, Option.some.injEq] at ht
        subst ht
        apply hs.move left (owned_none hh) _ ho
        rintro rfl
        simp [hh] at ho
  | move_assign h other left =>
    simp only [Handles.step] at ht
    cases hh : s.handles h with
    | none => simp [hh] at ht
    | some b =>
      cases ho : s.handles other with
      | none => simp [hh, ho] at ht
      | some o =>
        simp only [hh, ho] at ht
        split_ifs at ht with hne
        · cases ht
          exact hs
        · cases ht
          apply (hs.deallocate hh).move left (owned_deallocate s h b) hne
          simp [Handles.deallocate, Handles.put, Ne.symm hne, ho]
  | reset h =>
    simp only [Handles.step] at ht
    cases hh : s.handles h with
    | none => simp [hh] at ht
    | some b =>
      rw [hh, Option.some.injEq] at ht
      subst ht
      exact hs.deallocate hh
  | reset_data h data bytes device dealloc =>
    simp only [Handles.step] at ht
    cases hh : s.handles h with
    | none => simp [hh] at ht
    | some b =>
      simp only [hh] at ht
      split_ifs at ht with hf
      cases ht
      apply (hs.deallocate hh).take (owned_deallocate s h b) _ rfl (fun _ => rfl)
      intro k x hx
      rw [owners_deallocate hh] at hx
      exact hs.fresh hf k x (Ownership.owned_release hx)
  | detach h =>
    simp only [Handles.step] at ht
    cases hh : s.handles h with
    | none => simp [hh] at ht
    | some b =>
      rw [hh, Option.some.injEq] at ht
      subst ht
      exact hs.detach hh
  | destroy h =>
    simp only [Handles.step] at ht
    cases hh : s.handles h with
    | none => simp [hh] at ht
    | some b =>
      rw [hh, Option.some.injEq] at ht
      subst ht
      apply (hs.deallocate hh).put (owned_deallocate s h b) rfl
      intro c hc
      cases hc

theorem Inv.run (hs : s.Inv) {as : List (HandleAction H D F)}
    (ht : Transition.run Handles.step s as = some t) :
    t.Inv :=
  invariant_of_run (fun _ a _ hs ht => hs.step a ht) hs ht

end

/-! ## Every block is released once -/

/-- A handle that owns a block has it to release. -/
theorem Inv.owned_of_owns (hs : s.Inv) {p : BlockPtr} (hb : s.handles h = some b)
    (howns : b.owns_data_ = true) (hp : b.data_ = some p) :
    ∃ f, s.owners.owned h = some (tag (p, f)) := by
  obtain ⟨f, hf⟩ := Option.isSome_iff_exists.mp (hs.releases h b hb howns)
  refine ⟨f, ?_⟩
  rw [owned_eq hb]
  simp [BufferHandle.dealloc_call, howns, hp, hf]

/-- The blocks in a list of known blocks are told apart by their numbers. -/
theorem Inv.tag_eq (hs : s.Inv) {x : BlockPtr × Dealloc D F} (hx : x ∈ s.acquired) :
    s.acquired[x.1.block]? = some x := by
  obtain ⟨n, hn⟩ := List.mem_iff_getElem?.mp hx
  rw [hs.numbers n x hn]
  exact hn

theorem Inv.releasesOnce (hs : s.Inv) : s.ReleasesOnce where
  owners := by
    rintro h k b c hb hc ⟨hob, hoc, p, q, hp, hq, hpq⟩
    obtain ⟨f, hf⟩ := hs.owned_of_owns hb hob hp
    obtain ⟨g, hg⟩ := hs.owned_of_owns hc hoc hq
    exact hs.distinct h k _ _ hf hg hpq
  blocks := by
    rw [List.nodup_iff_injective_get]
    intro i j hij
    have hnum : ∀ i : Fin (s.acquired.map fun x => x.1.block).length,
        (s.acquired.map fun x => x.1.block).get i = i := by
      intro i
      have hi : (i : Nat) < s.acquired.length := by simpa using i.isLt
      simpa using hs.numbers i s.acquired[(i : Nat)] (List.getElem?_eq_getElem hi)
    rw [hnum i, hnum j] at hij
    exact Fin.ext hij
  own := by
    intro c hc
    exact List.mem_of_getElem? (hs.accounted.released (tag c) (List.mem_map_of_mem hc))
  once := by
    have hnodup := hs.accounted.nodup_released
    simp only [owners, List.map_map] at hnodup
    exact hnodup.of_map
  detached := by
    intro x hx c hc he
    apply hs.accounted.not_released (x := tag x) (y := tag c) (List.mem_map_of_mem hx)
      (List.mem_map_of_mem hc)
    simp only [tag, he]
  released := by
    intro hnone x hx hd
    have hmem : tag x ∈ s.owners.released := by
      apply hs.accounted.mem_released (fun h => owned_none (hnone h)) (hs.tag_eq hx)
      intro hmem
      obtain ⟨y, hy, hyx⟩ := List.mem_map.mp hmem
      have : y = x := congrArg Prod.snd hyx
      exact hd (this ▸ hy)
    obtain ⟨c, hc, hcx⟩ := List.mem_map.mp hmem
    have : c = x := congrArg Prod.snd hcx
    exact this ▸ hc

/-- In every run no two handles own the same pointer, a block is passed to its own deallocator only
and at most once, never after `detach`, and once when no handle is left. -/
theorem each_block_is_released_once_unless_it_is_detached [DecidableEq H] [DecidableEq D]
    [DecidableEq F] {as : List (HandleAction H D F)} {s : Handles H D F}
    (hr : run step start as = some s) : s.ReleasesOnce :=
  (inv_start.run hr).releasesOnce

/-- The block at 100 is released when the first handle is assigned to, the one at 200 is detached,
and 100 is used again. -/
def assignAfterDetach : List (HandleAction Bool Unit Unit) :=
  [.construct_device false () .kCUDA 16 (some 100), .construct_data true 200 8 .kCPU (),
    .detach true, .move_assign false true none, .reset_data true 100 8 .kCPU (),
    .move_assign true true none, .destroy true, .destroy false]

theorem assign_after_detach_releases_once :
    ∃ s : Handles Bool Unit Unit, run step start assignAfterDetach = some s ∧
      s.calls = [(⟨100, 0⟩, .device ()), (⟨100, 2⟩, .fn ())] ∧ s.ReleasesOnce := by
  have hr : ∃ s : Handles Bool Unit Unit, run step start assignAfterDetach = some s ∧
      s.calls = [(⟨100, 0⟩, .device ()), (⟨100, 2⟩, .fn ())] := exists_of_any (by decide)
  obtain ⟨s, hr, hcalls⟩ := hr
  exact ⟨s, hr, hcalls, each_block_is_released_once_unless_it_is_detached hr⟩

end Handles

end sci
