-- A value or an error, `sci::Expected` (include/core/status.hpp, 196-241): raw storage,
-- and a tag that says which of the two it holds. The objects that placement new makes are
-- numbered, and each use of the storage as a `T` or as a `Status` is recorded with what
-- it found there.
import Scicompute.Transition
import Scicompute.Ownership

open Transition

namespace sci

/-- The type of an object. -/
inductive Kind
  | value
  | error
  deriving DecidableEq

structure LiveObject where
  id : Nat
  kind : Kind
  deriving DecidableEq

/-- `storage_` holds a live object or none. -/
structure Expected where
  storage_ : Option LiveObject
  has_value_ : Bool
  deriving DecidableEq

/-- The type as which `has_value_` has the storage used. -/
def Expected.kind (x : Expected) : Kind := if x.has_value_ then .value else .error

/-- What the storage is used for: a destructor call, or the source or the target of a copy. -/
inductive Use
  | destroy
  | source
  | target
  deriving DecidableEq

/-- A use of the storage as an object of a type, and what was there. -/
structure Access where
  use : Use
  kind : Kind
  found : Option LiveObject
  deriving DecidableEq

/-- `constructed` lists the types of the objects that were made in storages. -/
structure ExpectedObjects (E : Type*) where
  objects : E → Option Expected
  constructed : List Kind
  accesses : List Access

/-- `throws` says that the copy, or the move of the value, throws. -/
inductive ExpectedAction (E : Type*)
  | default_construct (e : E)
  | construct_value (e : E) (throws : Bool)
  | construct_unexpected (e : E) (throws : Bool)
  | copy_construct (e o : E) (throws : Bool)
  | copy_assign (e o : E) (throws : Bool)
  | destroy (e : E)

namespace ExpectedObjects

variable {E : Type*}

def start : ExpectedObjects E := ⟨fun _ => none, [], []⟩

def access (s : ExpectedObjects E) (use : Use) (kind : Kind) (found : Option LiveObject) :
    ExpectedObjects E :=
  { s with accesses := s.accesses ++ [⟨use, kind, found⟩] }

variable [DecidableEq E]

def put (s : ExpectedObjects E) (e : E) (x : Option Expected) : ExpectedObjects E :=
  { s with objects := Function.update s.objects e x }

/-- `new (&storage_)`, where the object is of the type that `has_value_` says. -/
def construct (s : ExpectedObjects E) (e : E) (has_value : Bool) : ExpectedObjects E :=
  let kind := Expected.kind ⟨none, has_value⟩
  { s.put e (some ⟨some ⟨s.constructed.length, kind⟩, has_value⟩) with
    constructed := s.constructed ++ [kind] }

/-- The destructor call on the storage, as the type that `has_value_` says. -/
def destruct (s : ExpectedObjects E) (e : E) (x : Expected) : ExpectedObjects E :=
  (s.put e (some { x with storage_ := none })).access .destroy x.kind x.storage_

/-- The copy assignment, of another object. -/
def assign (s : ExpectedObjects E) (e : E) (x o : Expected) (throws : Bool) :
    ExpectedObjects E :=
  if x.has_value_ = o.has_value_ then
    -- `*get_ptr_() = *o.get_ptr_()`, or the same with `get_err_()`; a throw leaves the object
    (s.access .source o.kind o.storage_).access .target x.kind x.storage_
  else
    let s := (s.destruct e x).access .source o.kind o.storage_
    if throws then s else s.construct e o.has_value_

/-- `trivial_T` says that `T` is a scalar, or a class whose default constructor and destructor are
trivial: the array of bytes holds such an object, and all of its members, from its start. Of another
`T` no object is there before a constructor has run. -/
def step (trivial_T : Bool) (s : ExpectedObjects E) :
    ExpectedAction E → Option (ExpectedObjects E)
  | .default_construct e =>
    match s.objects e with
    | some _ => none
    | none =>
      if trivial_T then some (s.construct e true) else some (s.put e (some ⟨none, true⟩))
  | .construct_value e throws =>
    match s.objects e with
    | some _ => none
    | none => if throws then some s else some (s.construct e true)
  | .construct_unexpected e throws =>
    match s.objects e with
    | some _ => none
    | none => if throws then some s else some (s.construct e false)
  | .copy_construct e o throws =>
    match s.objects e, s.objects o with
    | none, some o =>
      let s := s.access .source o.kind o.storage_
      if throws then some s else some (s.construct e o.has_value_)
    | _, _ => none
  | .copy_assign e o throws =>
    match s.objects e, s.objects o with
    | some x, some y => if e = o then some s else some (s.assign e x y throws)
    | _, _ => none
  | .destroy e =>
    match s.objects e with
    | none => none
    | some x => some ((s.destruct e x).put e none)

/-! ## What the tag promises -/

/-- The storage holds a live object of the type that the tag says. -/
def Tagged (x : Expected) : Prop := ∃ id, x.storage_ = some ⟨id, x.kind⟩

/-- The numbers of the objects that were destroyed. -/
def destroyed (s : ExpectedObjects E) : List LiveObject :=
  s.accesses.filterMap fun a => if a.use = .destroy then a.found else none

/-- Every tag is right, every use was one of a live object of its type, and no object is destroyed
twice, nor left when all `Expected` objects are destroyed. -/
structure WellTagged (s : ExpectedObjects E) : Prop where
  tagged : ∀ e x, s.objects e = some x → Tagged x
  accesses : ∀ a ∈ s.accesses, ∃ id, a.found = some ⟨id, a.kind⟩
  once : (s.destroyed.map LiveObject.id).Nodup
  finished : (∀ e, s.objects e = none) →
    ∀ id < s.constructed.length, id ∈ s.destroyed.map LiveObject.id

/-- The condition on a step: it is not a default construction, unless `T` is trivial in this sense,
and no copy throws in an assignment between a value and an error. -/
def Safe (trivial_T : Bool) (s : ExpectedObjects E) : ExpectedAction E → Prop
  | .default_construct _ => trivial_T = true
  | .copy_assign e o throws =>
    throws = true → (s.objects e).map Expected.has_value_ = (s.objects o).map Expected.has_value_
  | _ => True

instance (trivial_T : Bool) (s : ExpectedObjects E) :
    ∀ a, Decidable (s.Safe trivial_T a)
  | .default_construct _ => inferInstanceAs (Decidable (trivial_T = true))
  | .copy_assign e o throws => inferInstanceAs (Decidable (throws = true →
      (s.objects e).map Expected.has_value_ = (s.objects o).map Expected.has_value_))
  | .construct_value _ _ => isTrue trivial
  | .construct_unexpected _ _ => isTrue trivial
  | .copy_construct _ _ _ => isTrue trivial
  | .destroy _ => isTrue trivial

/-! ## The storages as owners -/

omit [DecidableEq E]

def tag (o : LiveObject) : Nat × Kind := (o.id, o.kind)

def owners (s : ExpectedObjects E) : Ownership E Kind where
  owned e := ((s.objects e).bind Expected.storage_).map tag
  acquired := s.constructed
  released := s.destroyed.map tag
  detached := []

variable {s t : ExpectedObjects E} {e : E} {x : Expected}

theorem owned_none (he : s.objects e = none) : s.owners.owned e = none := by
  simp [owners, he]

theorem destroyed_access {use : Use} (s : ExpectedObjects E) (kind : Kind)
    (found : Option LiveObject) (huse : use ≠ .destroy) :
    (s.access use kind found).destroyed = s.destroyed := by
  simp [destroyed, access, List.filterMap_append, huse]

theorem owners_access {use : Use} (s : ExpectedObjects E) (kind : Kind)
    (found : Option LiveObject) (huse : use ≠ .destroy) :
    (s.access use kind found).owners = s.owners := by
  have hd := destroyed_access s kind found huse
  simp only [owners, Ownership.mk.injEq]
  exact ⟨rfl, rfl, by rw [hd], trivial⟩

section
variable [DecidableEq E]

theorem owned_put (s : ExpectedObjects E) (e : E) (x : Option Expected) :
    (s.put e x).owners.owned =
      Function.update s.owners.owned e ((x.bind Expected.storage_).map tag) := by
  funext k
  by_cases hk : k = e
  · subst hk
    simp [owners, put]
  · simp [owners, put, hk]

/-- An `Expected` comes, or goes, whose storage is empty. -/
theorem owners_put_none {x : Option Expected} (hs : s.owners.owned e = none)
    (hx : x.bind Expected.storage_ = none) : (s.put e x).owners = s.owners := by
  have howned : (s.put e x).owners.owned = s.owners.owned := by
    rw [owned_put, hx, Option.map_none, ← hs, Function.update_eq_self]
  simp only [owners, Ownership.mk.injEq] at howned ⊢
  exact ⟨howned, rfl, rfl, trivial⟩

theorem owners_construct (s : ExpectedObjects E) (e : E) (has_value : Bool) :
    (s.construct e has_value).owners =
      s.owners.acquire e (Expected.kind ⟨none, has_value⟩) := by
  have howned := owned_put s e
    (some ⟨some ⟨s.constructed.length, Expected.kind ⟨none, has_value⟩⟩, has_value⟩)
  simp only [owners, Ownership.acquire, Ownership.mk.injEq] at howned ⊢
  exact ⟨howned, rfl, rfl, trivial⟩

theorem owners_destruct (he : s.objects e = some x) :
    (s.destruct e x).owners = s.owners.release e := by
  have howned := owned_put s e (some { x with storage_ := none })
  have hx : s.owners.owned e = x.storage_.map tag := by simp [owners, he]
  unfold Ownership.release
  rw [hx]
  cases hst : x.storage_ with
  | none =>
    have hsame := owners_put_none (s := s) (e := e) (x := some { x with storage_ := none })
      (by rw [hx, hst]; rfl) rfl
    have hdest : (s.destruct e x).destroyed = s.destroyed := by
      simp [destroyed, destruct, access, put, List.filterMap_append, hst]
    rw [Option.map_none, ← hsame]
    simp only [owners, Ownership.mk.injEq]
    exact ⟨rfl, rfl, by rw [hdest]; rfl, trivial⟩
  | some o =>
    have hdest : (s.destruct e x).destroyed = s.destroyed ++ [o] := by
      simp [destroyed, destruct, access, put, List.filterMap_append, hst]
    simp only [owners, Ownership.mk.injEq, Option.map_some] at howned ⊢
    exact ⟨howned, rfl, by rw [hdest]; simp, trivial⟩

end

/-! ## What a step keeps -/

/-- Every use of a storage so far was one of a live object of its type. -/
def Sound (s : ExpectedObjects E) : Prop :=
  ∀ a ∈ s.accesses, ∃ id, a.found = some ⟨id, a.kind⟩

structure Inv (s : ExpectedObjects E) : Prop where
  accounted : s.owners.Accounted
  tagged : ∀ e x, s.objects e = some x → Tagged x
  sound : s.Sound

theorem inv_start : (start : ExpectedObjects E).Inv where
  accounted := Ownership.accounted_start
  tagged e x hx := by cases hx
  sound a ha := by cases ha

theorem Sound.access (hs : s.Sound) (use : Use) (hx : Tagged x) :
    (s.access use x.kind x.storage_).Sound := by
  intro a ha
  rcases List.mem_append.mp ha with ha | ha
  · exact hs a ha
  · rw [List.mem_singleton.mp ha]
    exact hx

theorem Inv.access (hs : s.Inv) {use : Use} (huse : use ≠ .destroy) (hx : Tagged x) :
    (s.access use x.kind x.storage_).Inv where
  accounted := by
    rw [owners_access s _ _ huse]
    exact hs.accounted
  tagged := hs.tagged
  sound := hs.sound.access use hx

section
variable [DecidableEq E]

theorem tagged_put {o : Option Expected} (hs : ∀ k y, k ≠ e → s.objects k = some y → Tagged y)
    (ho : ∀ y, o = some y → Tagged y) : ∀ k y, (s.put e o).objects k = some y → Tagged y := by
  intro k y hy
  by_cases hk : k = e
  · subst hk
    simp only [put, Function.update_self] at hy
    exact ho y hy
  · simp only [put, Function.update_of_ne hk] at hy
    exact hs k y hk hy

/-- The state inside a step: the storage of `e` may be empty. -/
structure InvBut (s : ExpectedObjects E) (e : E) : Prop where
  accounted : s.owners.Accounted
  tagged : ∀ k x, k ≠ e → s.objects k = some x → Tagged x
  sound : s.Sound
  empty : s.owners.owned e = none

omit [DecidableEq E] in
theorem Inv.but (hs : s.Inv) (he : s.objects e = none) : s.InvBut e :=
  ⟨hs.accounted, fun k x _ hx => hs.tagged k x hx, hs.sound, owned_none he⟩

omit [DecidableEq E] in
theorem InvBut.access (hs : s.InvBut e) {use : Use} (huse : use ≠ .destroy) (hx : Tagged x) :
    (s.access use x.kind x.storage_).InvBut e where
  accounted := by
    rw [owners_access s _ _ huse]
    exact hs.accounted
  tagged := hs.tagged
  sound := hs.sound.access use hx
  empty := by
    rw [owners_access s _ _ huse]
    exact hs.empty

theorem InvBut.construct (hs : s.InvBut e) (has_value : Bool) : (s.construct e has_value).Inv where
  accounted := by
    rw [owners_construct]
    exact hs.accounted.acquire hs.empty _
  tagged := tagged_put hs.tagged (by rintro y ⟨⟩; exact ⟨_, rfl⟩)
  sound := hs.sound

theorem Inv.destruct (hs : s.Inv) (he : s.objects e = some x) : (s.destruct e x).InvBut e where
  accounted := by
    rw [owners_destruct he]
    exact hs.accounted.release e
  tagged := by
    intro k y hk hy
    simp only [ExpectedObjects.destruct, ExpectedObjects.access, put,
      Function.update_of_ne hk] at hy
    exact hs.tagged k y hy
  sound := Sound.access (s := s.put e (some { x with storage_ := none })) hs.sound .destroy
    (hs.tagged e x he)
  empty := by
    simp [owners, ExpectedObjects.destruct, ExpectedObjects.access, put]

theorem InvBut.remove (hs : s.InvBut e) : (s.put e none).Inv where
  accounted := by
    rw [owners_put_none hs.empty rfl]
    exact hs.accounted
  tagged := tagged_put hs.tagged (by rintro y ⟨⟩)
  sound := hs.sound

/-- An assignment keeps the tags, unless a copy throws after the old object is destroyed. -/
theorem Inv.assign (hs : s.Inv) {o : E} {y : Expected} {throws : Bool} (hx : s.objects e = some x)
    (hy : s.objects o = some y) (hsafe : throws = true → x.has_value_ = y.has_value_) :
    (s.assign e x y throws).Inv := by
  have htx := hs.tagged e x hx
  have hty := hs.tagged o y hy
  unfold ExpectedObjects.assign
  by_cases hsame : x.has_value_ = y.has_value_
  · rw [if_pos hsame]
    exact (hs.access (by decide) hty).access (by decide) htx
  · have hthrows : throws = false := by
      cases throws with
      | false => rfl
      | true => exact absurd (hsafe rfl) hsame
    rw [if_neg hsame, hthrows]
    exact ((hs.destruct hx).access (by decide) hty).construct y.has_value_

theorem Inv.step (hs : s.Inv) {trivial_T : Bool} (a : ExpectedAction E)
    (hsafe : s.Safe trivial_T a)
    (ht : ExpectedObjects.step trivial_T s a = some t) : t.Inv := by
  cases a with
  | default_construct e =>
    simp only [Safe] at hsafe
    simp only [ExpectedObjects.step] at ht
    cases he : s.objects e with
    | some x => simp [he] at ht
    | none =>
      rw [he, hsafe] at ht
      cases ht
      exact (hs.but he).construct true
  | construct_value e throws =>
    simp only [ExpectedObjects.step] at ht
    cases he : s.objects e with
    | some x => simp [he] at ht
    | none =>
      simp only [he] at ht
      split_ifs at ht
      · cases ht
        exact hs
      · cases ht
        exact (hs.but he).construct true
  | construct_unexpected e throws =>
    simp only [ExpectedObjects.step] at ht
    cases he : s.objects e with
    | some x => simp [he] at ht
    | none =>
      simp only [he] at ht
      split_ifs at ht
      · cases ht
        exact hs
      · cases ht
        exact (hs.but he).construct false
  | copy_construct e o throws =>
    simp only [ExpectedObjects.step] at ht
    cases he : s.objects e with
    | some x => simp [he] at ht
    | none =>
      cases ho : s.objects o with
      | none => simp [he, ho] at ht
      | some y =>
        simp only [he, ho] at ht
        have hty := hs.tagged o y ho
        split_ifs at ht
        · cases ht
          exact hs.access (by decide) hty
        · cases ht
          exact ((hs.but he).access (by decide) hty).construct y.has_value_
  | copy_assign e o throws =>
    simp only [ExpectedObjects.step] at ht
    cases he : s.objects e with
    | none => simp [he] at ht
    | some x =>
      cases ho : s.objects o with
      | none => simp [he, ho] at ht
      | some y =>
        simp only [he, ho] at ht
        split_ifs at ht
        · cases ht
          exact hs
        · cases ht
          apply hs.assign he ho
          intro hthrows
          have hsame := hsafe hthrows
          rw [he, ho] at hsame
          exact Option.some.inj hsame
  | destroy e =>
    simp only [ExpectedObjects.step] at ht
    cases he : s.objects e with
    | none => simp [he] at ht
    | some x =>
      rw [he, Option.some.injEq] at ht
      subst ht
      exact (hs.destruct he).remove

/-- A step that does not meet the condition leaves a storage empty, in every state. -/
theorem empty_storage_of_not_safe {trivial_T : Bool} (a : ExpectedAction E)
    (hsafe : ¬ s.Safe trivial_T a)
    (ht : ExpectedObjects.step trivial_T s a = some t) :
    ∃ e x, t.objects e = some x ∧ x.storage_ = none := by
  cases a with
  | default_construct e =>
    simp only [Safe, Bool.not_eq_true] at hsafe
    simp only [ExpectedObjects.step] at ht
    cases he : s.objects e with
    | some x => simp [he] at ht
    | none =>
      rw [he, hsafe] at ht
      cases ht
      exact ⟨e, ⟨none, true⟩, by simp [put], rfl⟩
  | copy_assign e o throws =>
    simp only [Safe, Classical.not_imp] at hsafe
    obtain ⟨hthrows, hne⟩ := hsafe
    simp only [ExpectedObjects.step] at ht
    cases he : s.objects e with
    | none => simp [he] at ht
    | some x =>
      cases ho : s.objects o with
      | none => simp [he, ho] at ht
      | some y =>
        have hswitch : ¬ x.has_value_ = y.has_value_ := fun h => hne (by simp [he, ho, h])
        have heo : ¬ e = o := by
          rintro rfl
          exact hne rfl
        simp only [he, ho] at ht
        rw [if_neg heo, ExpectedObjects.assign, if_neg hswitch, if_pos hthrows] at ht
        cases ht
        exact ⟨e, { x with storage_ := none }, by
          simp [ExpectedObjects.destruct, ExpectedObjects.access, put], rfl⟩
  | _ => exact absurd trivial hsafe

end

/-! ## Every object is destroyed once -/

theorem Inv.wellTagged (hs : s.Inv) : s.WellTagged where
  tagged := hs.tagged
  accesses := hs.sound
  once := by
    have hnodup := hs.accounted.nodup_released
    simp only [owners, List.map_map] at hnodup
    exact hnodup
  finished := by
    intro hnone id hid
    have hmem := hs.accounted.mem_released (fun e => owned_none (hnone e))
      (List.getElem?_eq_getElem (l := s.owners.acquired) hid) (by simp [owners])
    obtain ⟨o, ho, hoid⟩ := List.mem_map.mp hmem
    exact List.mem_map.mpr ⟨o, ho, congrArg Prod.fst hoid⟩

/-- In every run whose steps all meet the condition, each tag names the live object of its storage,
each destructor call is on a live object of the right type, and each object is destroyed once. -/
theorem tags_name_live_objects_while_no_switch_throws [DecidableEq E] {trivial_T : Bool}
    {as : List (ExpectedAction E)} {s : ExpectedObjects E}
    (hm : Meets (step trivial_T) (Safe trivial_T) start as)
    (hr : run (step trivial_T) start as = some s) : s.WellTagged :=
  (invariant_of_meets (fun _ a _ hs hok ht => hs.step a hok ht) inv_start hm hr).wellTagged

/-- Each of the four assignments, one to itself, and copies that throw where it does no harm. -/
def assignments : List (ExpectedAction (Fin 3)) :=
  [.construct_value 0 false, .construct_unexpected 1 false, .copy_construct 2 0 true,
    .copy_construct 2 1 false, .copy_assign 2 1 true, .copy_assign 2 0 false,
    .copy_assign 2 0 true, .copy_assign 0 1 false, .copy_assign 1 1 true, .destroy 2,
    .destroy 0, .destroy 1]

theorem assignments_are_well_tagged :
    ∃ s : ExpectedObjects (Fin 3), run (step false) start assignments = some s ∧
      s.constructed.length = 5 ∧ (∀ e, s.objects e = none) ∧ s.WellTagged := by
  have hr : ∃ s : ExpectedObjects (Fin 3), run (step false) start assignments = some s ∧
      (s.constructed.length = 5 ∧ ∀ e, s.objects e = none) := exists_of_any (by decide)
  obtain ⟨s, hr, hlen, hnone⟩ := hr
  exact ⟨s, hr, hlen, hnone, tags_name_live_objects_while_no_switch_throws (by decide) hr⟩

/-- The copy of the error throws after the value is destroyed. -/
def throwingSwitch : List (ExpectedAction Bool) :=
  [.construct_value false false, .construct_unexpected true false, .copy_assign false true true,
    .destroy false]

theorem empty_storage_is_destroyed :
    (∃ s : ExpectedObjects Bool, run (step true) start throwingSwitch = some s ∧
      ⟨.destroy, .value, none⟩ ∈ s.accesses) ∧
    ∃ s : ExpectedObjects Bool, run (step false) start [.default_construct true, .destroy true] =
      some s ∧ ⟨.destroy, .value, none⟩ ∈ s.accesses :=
  ⟨exists_of_any (by decide), exists_of_any (by decide)⟩

end ExpectedObjects

end sci
