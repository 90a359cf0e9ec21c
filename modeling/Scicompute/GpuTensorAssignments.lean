-- The constructors, the assignments and the destructor of `GpuTensor` (src/gpu/gpu_tensor.cpp,
-- 12-60), on a heap of managed allocations. An assignment frees the old buffer before it takes
-- the data of the other tensor, which may be a view of that buffer.
import Scicompute.GpuTensorViews
import Scicompute.Ownership
import Scicompute.Transition

open Transition

namespace sci.gpu

/-- A place in an allocation. The allocations are numbered, so that memory which CUDA gives out
again is not taken for the old one. -/
structure ManagedPtr where
  block : Nat
  offset : Nat
  deriving DecidableEq

namespace GpuTensorMembers

variable {x y : GpuTensorMembers ManagedPtr}

/-- What the destructor and the assignments pass to `deallocate_managed`. -/
def owned (x : GpuTensorMembers ManagedPtr) : Option ManagedPtr :=
  if x.owns_data_ then x.data_ else none

/-- The allocation that the tensor owns, with its size. -/
def entry (x : GpuTensorMembers ManagedPtr) : Option (Nat × Nat) :=
  x.owned.map fun p => (p.block, x.nbytes)

/-- `GpuTensor(shape, dtype)`. -/
def ofShape (data : ManagedPtr) (shape : List Int) (dtype : Int) : GpuTensorMembers ManagedPtr :=
  ⟨⟨shape, GpuTensor.compute_strides shape⟩, some data, dtype, true⟩

/-- The tensor with a buffer of its own. -/
def withData (y : GpuTensorMembers ManagedPtr) (data : ManagedPtr) : GpuTensorMembers ManagedPtr :=
  { y with data_ := some data, owns_data_ := true }

/-- What a move leaves. -/
def moved (y : GpuTensorMembers ManagedPtr) : GpuTensorMembers ManagedPtr :=
  ⟨⟨[], []⟩, none, y.dtype_, false⟩

/-- The data of the second tensor are in the buffer that the first one owns. -/
def OwnsDataOf (x y : GpuTensorMembers ManagedPtr) : Prop :=
  ∃ p ∈ x.owned, ∃ q ∈ y.data_, p.block = q.block

end GpuTensorMembers

open GpuTensorMembers (OwnsDataOf)

/-- The tensors, the sizes of the allocations, the bytes in them, and the allocations that were
freed with their sizes. -/
structure GpuTensors (H : Type*) where
  tensors : H → Option (GpuTensorMembers ManagedPtr)
  allocated : List Nat
  memory : Nat → Nat → UInt8
  freed : List (Nat × Nat)

/-- A new allocation has unknown bytes, which are `fresh`. -/
inductive GpuTensorAction (H : Type*)
  | construct (h : H) (shape : List Int) (dtype : Int) (fresh : Nat → UInt8)
  | construct_view (h : H) (data : Option ManagedPtr) (shape strides : List Int) (dtype : Int)
  | copy (h other : H) (fresh : Nat → UInt8)
  | move (h other : H)
  | assign (h other : H) (fresh : Nat → UInt8)
  | move_assign (h other : H)
  | view (h other : H) (new_shape : List Int)
  | reshape (h other : H) (new_shape : List Int)
  | destroy (h : H)

namespace GpuTensors

variable {H : Type*}

def start : GpuTensors H := ⟨fun _ => none, [], fun _ _ => 0, []⟩

/-! ## The allocator -/

/-- The next allocation. -/
def pointer (s : GpuTensors H) : ManagedPtr := ⟨s.allocated.length, 0⟩

/-- These bytes are in an allocation that is not freed. -/
def InBlock (s : GpuTensors H) (p : ManagedPtr) (n : Nat) : Prop :=
  p.block < s.allocated.length ∧ p.block ∉ s.freed.map Prod.fst ∧
    p.offset + n ≤ s.allocated.getD p.block 0

instance (s : GpuTensors H) (p : ManagedPtr) (n : Nat) : Decidable (s.InBlock p n) :=
  inferInstanceAs (Decidable (_ ∧ _ ∧ _))

def allocate_managed (s : GpuTensors H) (bytes : Nat) (fresh : Nat → UInt8) : GpuTensors H :=
  { s with allocated := s.allocated ++ [bytes]
           memory := Function.update s.memory s.allocated.length fresh }

/-- A pointer that the map does not have is left alone. -/
def deallocate_managed (s : GpuTensors H) (p : ManagedPtr) : GpuTensors H :=
  match s.allocated[p.block]? with
  | none => s
  | some bytes =>
    if p.offset = 0 ∧ p.block ∉ s.freed.map Prod.fst then
      { s with freed := s.freed ++ [(p.block, bytes)] }
    else s

/-- The bytes after a copy. -/
def copied (memory : Nat → Nat → UInt8) (dst src : ManagedPtr) (n : Nat) : Nat → Nat → UInt8 :=
  Function.update memory dst.block fun k =>
    if dst.offset ≤ k ∧ k < dst.offset + n then memory src.block (src.offset + (k - dst.offset))
    else memory dst.block k

/-- A copy from or to memory that is not there ends the program. -/
def copy_managed (s : GpuTensors H) (dst src : Option ManagedPtr) (n : Nat) :
    Option (GpuTensors H) :=
  if n = 0 then some s
  else dst.bind fun d => src.bind fun p =>
    if s.InBlock d n ∧ s.InBlock p n then some { s with memory := copied s.memory d p n } else none

/-! ## The tensors -/

/-- `if (owns_data_ && data_) deallocate_managed(data_)`. -/
def deallocate (s : GpuTensors H) (x : GpuTensorMembers ManagedPtr) : GpuTensors H :=
  match x.owned with
  | none => s
  | some p => s.deallocate_managed p

variable [DecidableEq H]

def put (s : GpuTensors H) (h : H) (x : Option (GpuTensorMembers ManagedPtr)) : GpuTensors H :=
  { s with tensors := Function.update s.tensors h x }

/-- `allocate(); copy_managed(data_, other.data_, nbytes())`. -/
def hold_copy (s : GpuTensors H) (h : H) (y : GpuTensorMembers ManagedPtr) (fresh : Nat → UInt8) :
    Option (GpuTensors H) :=
  ((s.allocate_managed y.nbytes fresh).copy_managed (some s.pointer) y.data_ y.nbytes).map
    fun t => t.put h (some (y.withData s.pointer))

/-- The members of the other tensor are moved. -/
def take_over (s : GpuTensors H) (h other : H) (y : GpuTensorMembers ManagedPtr) : GpuTensors H :=
  (s.put h (some y)).put other (some y.moved)

def step (s : GpuTensors H) : GpuTensorAction H → Option (GpuTensors H)
  | .construct h shape dtype fresh =>
    match s.tensors h with
    | none =>
      let x := GpuTensorMembers.ofShape s.pointer shape dtype
      some ((s.allocate_managed x.nbytes fresh).put h (some x))
    | some _ => none
  | .construct_view h data shape strides dtype =>
    match s.tensors h with
    | none =>
      -- a pointer that CUDA has given out
      if ∀ p ∈ data, p.block < s.allocated.length then
        some (s.put h (some (GpuTensorMembers.ofData data shape strides dtype)))
      else none
    | some _ => none
  | .copy h other fresh =>
    match s.tensors h, s.tensors other with
    | none, some y =>
      if y.data_.isSome ∧ y.owns_data_ = true then s.hold_copy h y fresh
      else some (s.put h (some { y with owns_data_ := false }))
    | _, _ => none
  | .move h other =>
    match s.tensors h, s.tensors other with
    | none, some y => some (s.take_over h other y)
    | _, _ => none
  | .assign h other fresh =>
    match s.tensors h, s.tensors other with
    | some x, some y => if h = other then some s else (s.deallocate x).hold_copy h y fresh
    | _, _ => none
  | .move_assign h other =>
    match s.tensors h, s.tensors other with
    | some x, some y => if h = other then some s else some ((s.deallocate x).take_over h other y)
    | _, _ => none
  | .view h other new_shape =>
    match s.tensors h, s.tensors other with
    | none, some y => some (s.put h (some (y.view new_shape)))
    | _, _ => none
  | .reshape h other new_shape =>
    match s.tensors h, s.tensors other with
    | none, some y => some (s.put h (some (y.reshape new_shape)))
    | _, _ => none
  | .destroy h => (s.tensors h).map fun x => (s.deallocate x).put h none

/-! ## The tensors as owners -/

omit [DecidableEq H] in
/-- The bytes of a tensor. -/
def contents (s : GpuTensors H) (x : GpuTensorMembers ManagedPtr) : List UInt8 :=
  match x.data_ with
  | none => []
  | some p => (List.range x.nbytes).map fun k => s.memory p.block (p.offset + k)

/-- The data are in memory that has not been freed. -/
def Live (s : GpuTensors H) (x : GpuTensorMembers ManagedPtr) : Prop :=
  ∃ p, x.data_ = some p ∧ s.InBlock p x.nbytes

/-- The tensor `h` has the bytes that `y` had before, and its data are live. -/
def Receives (s t : GpuTensors H) (h : H) (y : GpuTensorMembers ManagedPtr) : Prop :=
  ∃ x, t.tensors h = some x ∧ t.contents x = s.contents y ∧ t.Live x

def owners (s : GpuTensors H) : Ownership H Nat where
  owned h := (s.tensors h).bind GpuTensorMembers.entry
  acquired := s.allocated
  released := s.freed
  detached := []

structure Inv (s : GpuTensors H) : Prop where
  accounted : s.owners.Accounted
  offset : ∀ h x p, s.tensors h = some x → x.owned = some p → p.offset = 0

variable {s t : GpuTensors H} {h other : H} {x y : GpuTensorMembers ManagedPtr} {p q : ManagedPtr}
  {n : Nat} {fresh : Nat → UInt8}

omit [DecidableEq H] in
theorem inv_start : (start : GpuTensors H).Inv where
  accounted := Ownership.accounted_start
  offset h x p hx := by cases hx

omit [DecidableEq H] in
theorem owned_eq (hx : s.tensors h = some x) : s.owners.owned h = x.entry := by
  unfold owners
  simp only [hx, Option.bind_some]

omit [DecidableEq H] in
theorem owned_of_none (hh : s.tensors h = none) : s.owners.owned h = none := by
  unfold owners
  simp only [hh, Option.bind_none]

theorem put_self (s : GpuTensors H) (h : H) (z : Option (GpuTensorMembers ManagedPtr)) :
    (s.put h z).tensors h = z := Function.update_self ..

theorem put_of_ne (s : GpuTensors H) {k : H} (hk : k ≠ h)
    (z : Option (GpuTensorMembers ManagedPtr)) : (s.put h z).tensors k = s.tensors k :=
  Function.update_of_ne hk ..

theorem owners_put (s : GpuTensors H) (h : H) (x : Option (GpuTensorMembers ManagedPtr)) :
    (s.put h x).owners = { s.owners with
      owned := Function.update s.owners.owned h (x.bind GpuTensorMembers.entry) } := by
  unfold owners put
  rw [Ownership.mk.injEq]
  refine ⟨?_, rfl, rfl, rfl⟩
  funext k
  by_cases hk : k = h
  · subst hk
    simp
  · simp [hk]

theorem offset_put (hs : s.Inv) {z : Option (GpuTensorMembers ManagedPtr)}
    (hz : ∀ x p, z = some x → x.owned = some p → p.offset = 0) :
    ∀ k x p, (s.put h z).tensors k = some x → x.owned = some p → p.offset = 0 := by
  intro k x p hx hp
  by_cases hk : k = h
  · subst hk
    rw [put_self] at hx
    exact hz x p hx hp
  · rw [put_of_ne s hk] at hx
    exact hs.offset k x p hx hp

/-- A tensor that owns nothing comes in. -/
theorem Inv.put (hs : s.Inv) (hfree : s.owners.owned h = none)
    {z : Option (GpuTensorMembers ManagedPtr)} (hz : ∀ x, z = some x → x.owned = none) :
    (s.put h z).Inv := by
  have hentry : z.bind GpuTensorMembers.entry = none := by
    cases z with
    | none => rfl
    | some x =>
      rw [Option.bind_some, GpuTensorMembers.entry, hz x rfl]
      rfl
  constructor
  · rw [owners_put, hentry, ← hfree, Function.update_eq_self]
    exact hs.accounted
  · apply offset_put hs
    intro x p hx hp
    rw [hz x hx] at hp
    cases hp

/-- A view comes in. -/
theorem Inv.put_view (hs : s.Inv) (hh : s.tensors h = none) (hx : x.owned = none) :
    (s.put h (some x)).Inv := by
  apply hs.put (owned_of_none hh)
  rintro z ⟨⟩
  exact hx

/-- A tensor comes in with the next allocation. -/
theorem Inv.allocate (hs : s.Inv) (hfree : s.owners.owned h = none)
    (hx : x.owned = some s.pointer) (hn : x.nbytes = n) (fresh : Nat → UInt8) :
    ((s.allocate_managed n fresh).put h (some x)).Inv := by
  constructor
  · have howners : ((s.allocate_managed n fresh).put h (some x)).owners =
        s.owners.acquire h n := by
      rw [owners_put, Option.bind_some, GpuTensorMembers.entry, hx, hn]
      rfl
    rw [howners]
    exact hs.accounted.acquire hfree n
  · intro k z p hz hp
    by_cases hk : k = h
    · subst hk
      rw [put_self, Option.some.injEq] at hz
      subst hz
      rw [hx, Option.some.injEq] at hp
      rw [← hp]
      rfl
    · rw [put_of_ne _ hk] at hz
      exact hs.offset k z p hz hp

omit [DecidableEq H] in
/-- A copy changes the bytes alone. -/
theorem copy_managed_eq {d r : Option ManagedPtr} (ht : s.copy_managed d r n = some t) :
    t = { s with memory := t.memory } := by
  unfold copy_managed at ht
  split_ifs at ht
  · cases ht
    rfl
  · obtain ⟨d, -, ht⟩ := Option.bind_eq_some_iff.mp ht
    obtain ⟨r, -, ht⟩ := Option.bind_eq_some_iff.mp ht
    split_ifs at ht
    cases ht
    rfl

theorem Inv.hold_copy (hs : s.Inv) (hfree : s.owners.owned h = none)
    (ht : s.hold_copy h y fresh = some t) : t.Inv := by
  unfold GpuTensors.hold_copy at ht
  obtain ⟨u, hu, rfl⟩ := Option.map_eq_some_iff.mp ht
  have hinv := hs.allocate hfree (x := y.withData s.pointer) rfl rfl fresh
  rw [copy_managed_eq hu]
  exact ⟨hinv.accounted, hinv.offset⟩

/-! ## What is freed -/

omit [DecidableEq H] in
theorem Inv.freed_lt (hs : s.Inv) {block : Nat} (hb : block ∈ s.freed.map Prod.fst) :
    block < s.allocated.length := by
  obtain ⟨z, hz, rfl⟩ := List.mem_map.mp hb
  exact (List.getElem?_eq_some_iff.mp (hs.accounted.released z hz)).1

omit [DecidableEq H] in
/-- What a tensor owns is in the map. -/
theorem Inv.owned_mem (hs : s.Inv) (hx : s.tensors h = some x) (hp : x.owned = some p) :
    s.allocated[p.block]? = some x.nbytes ∧ p.offset = 0 ∧ p.block ∉ s.freed.map Prod.fst := by
  have howned : s.owners.owned h = some (p.block, x.nbytes) := by
    rw [owned_eq hx, GpuTensorMembers.entry, hp]
    rfl
  have hsize : s.allocated[p.block]? = some x.nbytes := hs.accounted.owned h _ howned
  refine ⟨hsize, hs.offset h x p hx hp, ?_⟩
  intro hb
  obtain ⟨z, hz, hzb⟩ := List.mem_map.mp hb
  have hzsize : s.allocated[z.1]? = some z.2 := hs.accounted.released z hz
  rw [hzb, hsize, Option.some.injEq] at hzsize
  apply (hs.accounted.not_mem_of_owned howned).1
  rw [← hzb, hzsize]
  exact hz

omit [DecidableEq H] in
theorem Inv.deallocate_eq (hs : s.Inv) (hx : s.tensors h = some x) :
    s.deallocate x = { s with freed := s.freed ++ x.entry.toList } := by
  unfold deallocate GpuTensorMembers.entry
  cases hp : x.owned with
  | none =>
    rw [Option.map_none, Option.toList_none, List.append_nil]
  | some p =>
    obtain ⟨hsize, hoffset, hfreed⟩ := hs.owned_mem hx hp
    simp only [deallocate_managed]
    rw [hsize]
    simp only
    rw [if_pos ⟨hoffset, hfreed⟩]
    rfl

/-- The tensor is gone, and its buffer is freed. -/
theorem Inv.drop (hs : s.Inv) (hx : s.tensors h = some x) :
    ((s.deallocate x).put h none).Inv := by
  constructor
  · have howners : ((s.deallocate x).put h none).owners = s.owners.release h := by
      rw [owners_put, hs.deallocate_eq hx]
      unfold Ownership.release
      rw [owned_eq hx]
      cases hentry : x.entry with
      | none =>
        have hsame : Function.update s.owners.owned h none = s.owners.owned := by
          rw [← hentry, ← owned_eq hx, Function.update_eq_self]
        rw [Option.toList_none, List.append_nil]
        exact congrArg (fun owned => { s.owners with owned := owned }) hsame
      | some z => rfl
    rw [howners]
    exact hs.accounted.release h
  · rw [hs.deallocate_eq hx]
    intro k z p hz hp
    by_cases hk : k = h
    · subst hk
      rw [put_self] at hz
      cases hz
    · rw [put_of_ne _ hk] at hz
      exact hs.offset k z p hz hp

theorem owned_drop (s : GpuTensors H) (h : H) : (s.put h none).owners.owned h = none := by
  rw [owners_put]
  exact Function.update_self ..

/-- The other tensor's buffer gets a new owner. -/
theorem Inv.take_over (hs : s.Inv) (hfree : s.owners.owned h = none) (hne : h ≠ other)
    (hy : s.tensors other = some y) : (s.take_over h other y).Inv := by
  constructor
  · have howners : (s.take_over h other y).owners = s.owners.move h other := by
      unfold GpuTensors.take_over Ownership.move
      rw [owners_put, owners_put, Option.bind_some, Option.bind_some, ← owned_eq hy]
      rfl
    rw [howners]
    exact hs.accounted.move hfree hne
  · intro k z p hz hp
    unfold GpuTensors.take_over at hz
    by_cases hk : k = other
    · subst hk
      rw [put_self, Option.some.injEq] at hz
      subst hz
      cases hp
    · rw [put_of_ne _ hk] at hz
      by_cases hkh : k = h
      · subst hkh
        rw [put_self, Option.some.injEq] at hz
        subst hz
        exact hs.offset other y p hy hp
      · rw [put_of_ne _ hkh] at hz
        exact hs.offset k z p hz hp

theorem put_put (s : GpuTensors H) (h : H) (z w : Option (GpuTensorMembers ManagedPtr)) :
    (s.put h z).put h w = s.put h w := by
  unfold put
  simp only [Function.update_idem]

theorem copy_managed_put (s : GpuTensors H) (h : H) (z : Option (GpuTensorMembers ManagedPtr))
    (d r : Option ManagedPtr) (n : Nat) :
    (s.put h z).copy_managed d r n = (s.copy_managed d r n).map fun t => t.put h z := by
  unfold copy_managed
  by_cases hn : n = 0
  · rw [if_pos hn, if_pos hn]
    rfl
  · rw [if_neg hn, if_neg hn]
    cases d with
    | none => rfl
    | some d =>
      cases r with
      | none => rfl
      | some r =>
        by_cases hin : s.InBlock d n ∧ s.InBlock r n
        · rw [Option.bind_some, Option.bind_some, Option.bind_some, Option.bind_some, if_pos hin,
            if_pos (show (s.put h z).InBlock d n ∧ (s.put h z).InBlock r n from hin)]
          rfl
        · rw [Option.bind_some, Option.bind_some, Option.bind_some, Option.bind_some, if_neg hin,
            if_neg (show ¬ ((s.put h z).InBlock d n ∧ (s.put h z).InBlock r n) from hin)]
          rfl

/-- What was known of the tensor does not matter. -/
theorem hold_copy_put (s : GpuTensors H) (h : H) (z : Option (GpuTensorMembers ManagedPtr))
    (y : GpuTensorMembers ManagedPtr) (fresh : Nat → UInt8) :
    (s.put h z).hold_copy h y fresh = s.hold_copy h y fresh := by
  have hallocate : (s.put h z).allocate_managed y.nbytes fresh =
      (s.allocate_managed y.nbytes fresh).put h z := rfl
  unfold hold_copy
  rw [hallocate, copy_managed_put, Option.map_map]
  congr 1
  funext t
  exact put_put t h z _

theorem take_over_put (s : GpuTensors H) (h other : H)
    (z : Option (GpuTensorMembers ManagedPtr)) (y : GpuTensorMembers ManagedPtr) :
    (s.put h z).take_over h other y = s.take_over h other y := by
  unfold GpuTensors.take_over
  rw [put_put]

theorem Inv.step (hs : s.Inv) {a : GpuTensorAction H} (ht : s.step a = some t) : t.Inv := by
  cases a with
  | construct h shape dtype fresh =>
    simp only [GpuTensors.step] at ht
    split at ht
    case h_1 hh =>
      cases ht
      exact hs.allocate (owned_of_none hh) rfl rfl fresh
    case h_2 => cases ht
  | construct_view h data shape strides dtype =>
    simp only [GpuTensors.step] at ht
    split at ht
    case h_1 hh =>
      split_ifs at ht
      cases ht
      exact hs.put_view hh rfl
    case h_2 => cases ht
  | copy h other fresh =>
    simp only [GpuTensors.step] at ht
    split at ht
    case h_1 y hh hy =>
      split_ifs at ht
      · exact hs.hold_copy (owned_of_none hh) ht
      · cases ht
        exact hs.put_view hh rfl
    case h_2 => cases ht
  | move h other =>
    simp only [GpuTensors.step] at ht
    split at ht
    case h_1 y hh hy =>
      cases ht
      apply hs.take_over (owned_of_none hh) _ hy
      rintro rfl
      rw [hh] at hy
      cases hy
    case h_2 => cases ht
  | assign h other fresh =>
    simp only [GpuTensors.step] at ht
    split at ht
    case h_1 x y hx hy =>
      split_ifs at ht
      · cases ht
        exact hs
      · rw [← hold_copy_put _ h none] at ht
        exact (hs.drop hx).hold_copy (owned_drop _ h) ht
    case h_2 => cases ht
  | move_assign h other =>
    simp only [GpuTensors.step] at ht
    split at ht
    case h_1 x y hx hy =>
      split_ifs at ht with hne
      · cases ht
        exact hs
      · rw [← take_over_put _ h other none] at ht
        cases ht
        apply (hs.drop hx).take_over (owned_drop _ h) hne
        rw [put_of_ne _ (Ne.symm hne), hs.deallocate_eq hx]
        exact hy
    case h_2 => cases ht
  | view h other new_shape =>
    simp only [GpuTensors.step] at ht
    split at ht
    case h_1 y hh hy =>
      cases ht
      exact hs.put_view hh rfl
    case h_2 => cases ht
  | reshape h other new_shape =>
    simp only [GpuTensors.step] at ht
    split at ht
    case h_1 y hh hy =>
      cases ht
      exact hs.put_view hh rfl
    case h_2 => cases ht
  | destroy h =>
    simp only [GpuTensors.step] at ht
    obtain ⟨x, hx, rfl⟩ := Option.map_eq_some_iff.mp ht
    exact hs.drop hx

/-! ## What an assignment leaves -/

omit [DecidableEq H] in
theorem Inv.inBlock_deallocate (hs : s.Inv) (hx : s.tensors h = some x) :
    (s.deallocate x).InBlock q n ↔
      s.InBlock q n ∧ ∀ p, x.owned = some p → p.block ≠ q.block := by
  rw [hs.deallocate_eq hx]
  unfold InBlock GpuTensorMembers.entry
  cases hp : x.owned with
  | none => simp
  | some p =>
    simp only [Option.map_some, Option.toList_some, List.map_append, List.map_cons, List.map_nil,
      List.mem_append, List.mem_singleton, not_or, Option.some.injEq, forall_eq', ne_comm (a := p.block)]
    tauto

omit [DecidableEq H] in
theorem Inv.contents_deallocate (hs : s.Inv) (hx : s.tensors h = some x)
    (y : GpuTensorMembers ManagedPtr) : (s.deallocate x).contents y = s.contents y := by
  rw [hs.deallocate_eq hx]
  rfl

omit [DecidableEq H] in
/-- An allocation leaves the others. -/
theorem inBlock_allocate (hlt : q.block < s.allocated.length) (fresh : Nat → UInt8) (bytes : Nat) :
    (s.allocate_managed bytes fresh).InBlock q n ↔ s.InBlock q n := by
  unfold InBlock allocate_managed
  simp only [List.length_append, List.length_singleton]
  rw [List.getD_append _ _ _ _ hlt]
  have hlt' : q.block < s.allocated.length + 1 := by omega
  simp only [hlt, hlt', true_and]

omit [DecidableEq H] in
/-- The new allocation has all its bytes. -/
theorem inBlock_pointer (hfreed : ∀ b ∈ s.freed.map Prod.fst, b < s.allocated.length)
    (bytes : Nat) (fresh : Nat → UInt8) :
    (s.allocate_managed bytes fresh).InBlock s.pointer bytes := by
  unfold InBlock allocate_managed pointer
  refine ⟨by simp, ?_, by simp⟩
  intro hmem
  exact lt_irrefl _ (hfreed _ hmem)

/-- The copy is right exactly when there is nothing to copy, or the data are there. -/
theorem exists_hold_copy_iff (hfreed : ∀ b ∈ s.freed.map Prod.fst, b < s.allocated.length)
    (hq : y.data_ = some q) (hlt : q.block < s.allocated.length) (h : H) (fresh : Nat → UInt8) :
    (∃ t, s.hold_copy h y fresh = some t ∧ s.Receives t h y) ↔
      y.nbytes = 0 ∨ s.InBlock q y.nbytes := by
  have hpointer := inBlock_pointer hfreed y.nbytes fresh
  have hblock : q.block ≠ s.allocated.length := hlt.ne
  unfold hold_copy copy_managed
  rw [hq, Option.bind_some, Option.bind_some, ← inBlock_allocate hlt fresh y.nbytes]
  constructor
  · rintro ⟨t, ht, -⟩
    by_cases hn : y.nbytes = 0
    · exact Or.inl hn
    · right
      by_contra hnot
      rw [if_neg hn, if_neg fun hin => hnot hin.2] at ht
      cases ht
  · intro hin
    by_cases hn : y.nbytes = 0
    · rw [if_pos hn]
      refine ⟨_, rfl, y.withData s.pointer, put_self .., ?_, s.pointer, rfl, hpointer⟩
      have hn' : (y.withData s.pointer).nbytes = 0 := hn
      unfold contents
      rw [hq, hn, hn']
      rfl
    · rw [if_neg hn, if_pos ⟨hpointer, hin.resolve_left hn⟩]
      refine ⟨_, rfl, y.withData s.pointer, put_self .., ?_, s.pointer, rfl, hpointer⟩
      unfold contents
      rw [hq]
      apply List.map_congr_left
      intro k hk
      have hk : k < y.nbytes := List.mem_range.mp hk
      simp [put, copied, allocate_managed, pointer, hk, hblock]

omit [DecidableEq H] in
theorem receives_self (hy : s.tensors h = some y) (hlive : s.Live y) : s.Receives s h y :=
  ⟨y, hy, rfl, hlive⟩

omit [DecidableEq H] in
theorem not_ownsDataOf_iff (hq : y.data_ = some q) :
    (∀ p, x.owned = some p → p.block ≠ q.block) ↔ ¬ OwnsDataOf x y := by
  unfold OwnsDataOf
  simp [hq]

theorem Inv.assign_iff (hs : s.Inv) (hx : s.tensors h = some x) (hy : s.tensors other = some y)
    (hlive : s.Live y) (fresh : Nat → UInt8) :
    (∃ t, s.step (.assign h other fresh) = some t ∧ s.Receives t h y) ↔
      h = other ∨ y.nbytes = 0 ∨ ¬ OwnsDataOf x y := by
  simp only [GpuTensors.step, hx, hy]
  by_cases hsame : h = other
  · subst hsame
    rw [if_pos rfl]
    exact iff_of_true ⟨s, rfl, receives_self hy hlive⟩ (Or.inl rfl)
  · rw [if_neg hsame]
    obtain ⟨q, hq, hin⟩ := hlive
    have hfreed : ∀ b ∈ (s.deallocate x).freed.map Prod.fst,
        b < (s.deallocate x).allocated.length := by
      intro b hb
      have hdrop := (hs.drop hx).freed_lt hb
      exact hdrop
    have hlt : q.block < (s.deallocate x).allocated.length := by
      rw [hs.deallocate_eq hx]
      exact hin.1
    have hiff := exists_hold_copy_iff hfreed hq hlt h fresh
    unfold Receives at hiff ⊢
    rw [hs.contents_deallocate hx] at hiff
    rw [hiff, hs.inBlock_deallocate hx, not_ownsDataOf_iff hq]
    simp only [hin, true_and, hsame, false_or]

theorem Inv.move_assign_iff (hs : s.Inv) (hx : s.tensors h = some x)
    (hy : s.tensors other = some y) (hlive : s.Live y) :
    (∃ t, s.step (.move_assign h other) = some t ∧ s.Receives t h y) ↔
      h = other ∨ ¬ OwnsDataOf x y := by
  simp only [GpuTensors.step, hx, hy]
  by_cases hsame : h = other
  · subst hsame
    rw [if_pos rfl]
    exact iff_of_true ⟨s, rfl, receives_self hy hlive⟩ (Or.inl rfl)
  · rw [if_neg hsame]
    obtain ⟨q, hq, hin⟩ := hlive
    have htensor : ((s.deallocate x).take_over h other y).tensors h = some y := by
      unfold GpuTensors.take_over
      rw [put_of_ne _ hsame, put_self]
    have hlive : ((s.deallocate x).take_over h other y).Live y ↔ ¬ OwnsDataOf x y := by
      rw [← not_ownsDataOf_iff hq]
      unfold Live
      rw [hq]
      simp only [Option.some.injEq, exists_eq_left']
      exact (hs.inBlock_deallocate hx).trans (and_iff_right hin)
    have hcontents : ((s.deallocate x).take_over h other y).contents y = s.contents y :=
      hs.contents_deallocate hx y
    constructor
    · rintro ⟨t, ht, z, hz, -, hzlive⟩
      cases ht
      rw [htensor, Option.some.injEq] at hz
      subst hz
      exact Or.inr (hlive.mp hzlive)
    · intro hnot
      exact ⟨_, rfl, y, htensor, hcontents, hlive.mpr (hnot.resolve_left hsame)⟩

/-- No allocation is freed twice, and an assignment from a tensor with live data is right exactly
when it is to itself, or its data are not in the buffer that is freed, or there is nothing to
copy. -/
theorem assignments_are_right_iff {as : List (GpuTensorAction H)}
    (hr : run GpuTensors.step start as = some s) :
    (s.freed.map Prod.fst).Nodup ∧
      ∀ h other x y, s.tensors h = some x → s.tensors other = some y → s.Live y →
        (∀ fresh, (∃ t, s.step (.assign h other fresh) = some t ∧ s.Receives t h y) ↔
          h = other ∨ y.nbytes = 0 ∨ ¬ OwnsDataOf x y) ∧
        ((∃ t, s.step (.move_assign h other) = some t ∧ s.Receives t h y) ↔
          h = other ∨ ¬ OwnsDataOf x y) := by
  have hs : s.Inv := invariant_of_run (fun _ _ _ hs ht => hs.step ht) inv_start hr
  refine ⟨hs.accounted.nodup_released, ?_⟩
  intro h other x y hx hy hlive
  exact ⟨hs.assign_iff hx hy hlive, hs.move_assign_iff hx hy hlive⟩

/-- Four floats. -/
def floats (block : Nat) : GpuTensorMembers ManagedPtr := .ofShape ⟨block, 0⟩ [4] 0

def twoTensors : List (GpuTensorAction Bool) :=
  [.construct true [4] 0 fun k => UInt8.ofNat k, .construct false [4] 0 fun _ => 0]

theorem another_tensor_is_assigned : ∃ s, run GpuTensors.step start twoTensors = some s ∧
    (∃ t, s.step (.assign false true fun _ => 0) = some t ∧ s.Receives t false (floats 0)) ∧
    ∃ t, s.step (.move_assign false true) = some t ∧ s.Receives t false (floats 0) := by
  obtain ⟨s, hr, hx, hy, hlive⟩ : ∃ s, run GpuTensors.step start twoTensors = some s ∧
      s.tensors false = some (floats 1) ∧ s.tensors true = some (floats 0) ∧ s.Live (floats 0) :=
    ⟨_, rfl, rfl, rfl, ⟨0, 0⟩, rfl, by decide, List.not_mem_nil, (Nat.zero_add _).le⟩
  have hapart : ¬ OwnsDataOf (floats 1) (floats 0) := by
    rintro ⟨p, hp, q, hq, hblock⟩
    cases hp
    cases hq
    cases hblock
  obtain ⟨-, hright⟩ := assignments_are_right_iff hr
  obtain ⟨hassign, hmove⟩ := hright false true _ _ hx hy hlive
  exact ⟨s, hr, (hassign _).mpr (Or.inr (Or.inr hapart)), hmove.mpr (Or.inr hapart)⟩

/-- A tensor is assigned the view that has its own buffer. -/
theorem own_view_dangles :
    ¬ ∀ (as : List (GpuTensorAction Bool)) (s : GpuTensors Bool) (h other : Bool)
      (x y : GpuTensorMembers ManagedPtr), run GpuTensors.step start as = some s →
      s.tensors h = some x → s.tensors other = some y → s.Live y →
      ∃ t, s.step (.move_assign h other) = some t ∧ s.Receives t h y := by
  intro hall
  obtain ⟨s, hr, hx, hy, hlive⟩ : ∃ s : GpuTensors Bool, run GpuTensors.step start
      [.construct true [4] 0 fun _ => 0, .view false true [2, 2]] = some s ∧
      s.tensors true = some (floats 0) ∧ s.tensors false = some ((floats 0).view [2, 2]) ∧
      s.Live ((floats 0).view [2, 2]) :=
    ⟨_, rfl, rfl, rfl, ⟨0, 0⟩, rfl, by decide, List.not_mem_nil, by decide⟩
  have hs : s.Inv := invariant_of_run (fun _ _ _ hs ht => hs.step ht) inv_start hr
  have howns : OwnsDataOf (floats 0) ((floats 0).view [2, 2]) := ⟨⟨0, 0⟩, rfl, ⟨0, 0⟩, rfl, rfl⟩
  have hright := (hs.move_assign_iff hx hy hlive).mp (hall _ s true false _ _ hr hx hy hlive)
  rcases hright with hsame | hnot
  · cases hsame
  · exact hnot howns

end GpuTensors

end sci.gpu
