-- Shared memory segments in one name space, `sci::bridges::SharedMemorySegment`
-- (include/bridges/ipc_bridge.hpp, src/bridges/ipc_bridge.cpp, 20-115). What the system
-- calls answer is given. The segments are numbered as `shm_open` creates them. `Create` and
-- `Open` return their local object itself, without a move. The system gets a name as a C string;
-- `entry` is the entry of the name space that it takes it for: `/a` and `a` may be the same.
import Scicompute.Transition

open Transition

namespace sci.bridges

inductive ShmState
  | Created
  | Opened
  | Invalid
  deriving DecidableEq

/-- `none` stands for a null address. -/
structure SharedMemorySegment where
  name_ : String
  fd_ : Int
  mapped_addr_ : Option Nat
  mapped_size_ : Nat
  is_creator_ : Bool
  state_ : ShmState
  deriving DecidableEq

/-- `name.c_str()` as a system call reads it, up to the first null character. -/
def c_str (name : String) : String := String.ofList (name.toList.takeWhile (· ≠ '\x00'))

example : c_str "/a\x00b" = "/a" := rfl

namespace SharedMemorySegment

def empty : SharedMemorySegment := ⟨"", -1, none, 0, false, .Invalid⟩

/-- How the calls of `Create` and `Open` end. `size` is what `fstat` gives. -/
inductive ShmAnswer
  | shm_open_fails
  /-- `ftruncate` in `Create`, `fstat` in `Open`. -/
  | sizing_fails (fd : Int)
  | mmap_fails (fd : Int) (size : Nat)
  | mapped (fd : Int) (size addr : Nat)

def Create (name : String) (size : Nat) : ShmAnswer → SharedMemorySegment
  | .mapped fd _ addr => ⟨name, fd, some addr, size, true, .Created⟩
  | _ => empty

def Open (name : String) : ShmAnswer → SharedMemorySegment
  | .mapped fd size addr => ⟨name, fd, some addr, size, false, .Opened⟩
  | .mmap_fails _ size => { empty with mapped_size_ := size }
  | _ => empty

/-- The object after a move from it. -/
def moved (other : SharedMemorySegment) : SharedMemorySegment :=
  { other with name_ := "", fd_ := -1, mapped_addr_ := none, state_ := .Invalid }

/-- The object after `Destroy`, which has called `shm_unlink(name_.c_str())` if `is_creator_` is
set. -/
def Destroy (x : SharedMemorySegment) : SharedMemorySegment :=
  { x with mapped_addr_ := none, fd_ := -1, state_ := .Invalid }

end SharedMemorySegment

open SharedMemorySegment (ShmAnswer)

/-! ## The name space -/

/-- An object, with two things that the code does not keep: whether `shm_open` created the segment
of its `Create`, and the segment that the object created and has not unlinked. -/
structure Tracked extends SharedMemorySegment where
  found_unbound : Bool
  created : Option Nat
  deriving DecidableEq

/-- A call of `shm_unlink`: the entry of the name, the segment that it is bound to, and the one that
the object created and has not unlinked. -/
structure Unlink where
  entry : String
  bound : Option Nat
  created : Option Nat
  deriving DecidableEq

/-- `names` has the segments of the entries, and `segments` counts those that were created. -/
structure ShmSystem (H : Type*) where
  objects : H → Option Tracked
  names : String → Option Nat
  segments : Nat
  unlinks : List Unlink

inductive ShmAction (H : Type*)
  | construct (h : H)
  | Create (h : H) (name : String) (size : Nat) (o : ShmAnswer)
  | Open (h : H) (name : String) (o : ShmAnswer)
  | move_construct (h other : H)
  | move_assign (h other : H)
  | Destroy (h : H)
  | destruct (h : H)

def Tracked.moved (x : Tracked) : Tracked :=
  ⟨x.toSharedMemorySegment.moved, x.found_unbound, none⟩

namespace ShmSystem

variable {H : Type*} (entry : String → String)

def start : ShmSystem H := ⟨fun _ => none, fun _ => none, 0, []⟩

/-- `shm_open(name.c_str(), O_CREAT | O_RDWR, 0666)`, when it succeeds. -/
def openCreating (s : ShmSystem H) (name : String) : ShmSystem H :=
  match s.names (entry (c_str name)) with
  | some _ => s
  | none => { s with names := Function.update s.names (entry (c_str name)) (some s.segments)
                     segments := s.segments + 1 }

/-- The object that `Create` returns. -/
def tracked (s : ShmSystem H) (name : String) (size : Nat) (o : ShmAnswer) : Tracked :=
  let x := SharedMemorySegment.Create name size o
  let unbound := (s.names (entry (c_str name))).isNone
  ⟨x, unbound, if x.is_creator_ ∧ unbound then some s.segments else none⟩

variable [DecidableEq H]

def put (s : ShmSystem H) (h : H) (x : Option Tracked) : ShmSystem H :=
  { s with objects := Function.update s.objects h x }

/-- `Destroy` of the object. -/
def teardown (s : ShmSystem H) (h : H) (x : Tracked) : ShmSystem H :=
  let s' := s.put h (some ⟨x.Destroy, x.found_unbound, none⟩)
  if x.is_creator_ then
    let e := entry (c_str x.name_)
    { s' with names := Function.update s.names e none
              unlinks := s.unlinks ++ [⟨e, s.names e, x.created⟩] }
  else s'

def step (s : ShmSystem H) : ShmAction H → Option (ShmSystem H)
  | .construct h =>
    match s.objects h with
    | some _ => none
    | none => some (s.put h (some ⟨.empty, false, none⟩))
  | .Create h name size o =>
    match s.objects h, o with
    | some _, _ => none
    | none, .shm_open_fails => some (s.put h (some (s.tracked entry name size o)))
    | none, _ =>
      -- there is no segment with an empty name
      if entry (c_str name) = "" then none
      else some ((s.openCreating entry name).put h (some (s.tracked entry name size o)))
  | .Open h name o =>
    match s.objects h, o with
    | some _, _ => none
    | none, .shm_open_fails => some (s.put h (some ⟨.Open name o, false, none⟩))
    | none, _ =>
      if s.names (entry (c_str name)) = none then none
      else some (s.put h (some ⟨.Open name o, false, none⟩))
  | .move_construct h other =>
    match s.objects h, s.objects other with
    | none, some y => some ((s.put h (some y)).put other (some y.moved))
    | _, _ => none
  | .move_assign h other =>
    match s.objects h, s.objects other with
    | some x, some y =>
      if h = other then some s
      else some (((s.teardown entry h x).put h (some y)).put other (some y.moved))
    | _, _ => none
  | .Destroy h =>
    match s.objects h with
    | none => none
    | some x => some (s.teardown entry h x)
  | .destruct h =>
    match s.objects h with
    | none => none
    | some x => some ((s.teardown entry h x).put h none)

end ShmSystem

/-! ## What the unlinks promise -/

/-- The object created the segment that its name is bound to, and has not unlinked it before. -/
def Unlink.Rightful (u : Unlink) : Prop := ∃ seg, u.bound = some seg ∧ u.created = some seg

/-- The condition on an object that is torn down: if it is a creator, it is in the state `Created`,
and its `Create` found the name unbound. -/
def Tracked.Tidy (x : Tracked) : Prop :=
  x.is_creator_ = true → x.state_ = .Created ∧ x.found_unbound = true

instance (x : Tracked) : Decidable x.Tidy := inferInstanceAs (Decidable (_ → _ ∧ _))

namespace ShmSystem

variable {H : Type*} (entry : String → String)

/-- The condition on a step, where it tears an object down. -/
def Tidy (s : ShmSystem H) : ShmAction H → Prop
  | .move_assign h other => h ≠ other → ∀ x ∈ s.objects h, x.Tidy
  | .Destroy h => ∀ x ∈ s.objects h, x.Tidy
  | .destruct h => ∀ x ∈ s.objects h, x.Tidy
  | _ => True

instance [DecidableEq H] (s : ShmSystem H) : ∀ a, Decidable (s.Tidy a)
  | .move_assign _ _ => inferInstanceAs (Decidable (_ → _))
  | .Destroy h => inferInstanceAs (Decidable (∀ x ∈ s.objects h, x.Tidy))
  | .destruct h => inferInstanceAs (Decidable (∀ x ∈ s.objects h, x.Tidy))
  | .construct _ => isTrue trivial
  | .Create _ _ _ _ => isTrue trivial
  | .Open _ _ _ => isTrue trivial
  | .move_construct _ _ => isTrue trivial

/-! ## Segments and their creators -/

/-- What an object has of the name space: a tidy creator created the segment that its name is bound
to, and other objects created none. -/
structure Holds (names : String → Option Nat) (x : Tracked) : Prop where
  bound : x.is_creator_ = true → x.state_ = .Created → x.found_unbound = true →
    ∃ seg, x.created = some seg ∧ names (entry (c_str x.name_)) = some seg
  state : ∀ seg, x.created = some seg → x.state_ = .Created ∧ x.found_unbound = true

structure Inv (s : ShmSystem H) : Prop where
  holds : ∀ h x, s.objects h = some x → Holds entry s.names x
  distinct : ∀ h k x y seg, s.objects h = some x → s.objects k = some y →
    x.created = some seg → y.created = some seg → h = k
  created_lt : ∀ h x seg, s.objects h = some x → x.created = some seg → seg < s.segments
  bound_lt : ∀ e seg, s.names e = some seg → seg < s.segments
  rightful : ∀ u ∈ s.unlinks, u.Rightful

variable {entry} {s t : ShmSystem H} {h : H} {x : Tracked}

/-- The condition on a creator that is torn down is exact. -/
theorem Inv.rightful_iff (hs : s.Inv entry) (hx : s.objects h = some x)
    (hc : x.is_creator_ = true) :
    Unlink.Rightful ⟨entry (c_str x.name_), s.names (entry (c_str x.name_)), x.created⟩ ↔
      x.Tidy := by
  constructor
  · rintro ⟨seg, -, hseg⟩ -
    exact (hs.holds h x hx).state seg hseg
  · intro htidy
    obtain ⟨hstate, hfound⟩ := htidy hc
    obtain ⟨seg, hseg, hbound⟩ := (hs.holds h x hx).bound hc hstate hfound
    exact ⟨seg, hbound, hseg⟩

theorem inv_start : (start : ShmSystem H).Inv entry where
  holds h x hx := by cases hx
  distinct h k x y seg hx := by cases hx
  created_lt h x seg hx := by cases hx
  bound_lt e seg he := by cases he
  rightful u hu := by cases hu

theorem holds_of_state {names : String → Option Nat} (hx : x.state_ ≠ .Created)
    (hc : x.created = none) : Holds entry names x where
  bound _ hstate := absurd hstate hx
  state seg hseg := by
    rw [hc] at hseg
    cases hseg

theorem Inv.openCreating (hs : s.Inv entry) (name : String) :
    (s.openCreating entry name).Inv entry := by
  unfold ShmSystem.openCreating
  cases hn : s.names (entry (c_str name)) with
  | some seg => exact hs
  | none =>
    constructor
    · intro k y hy
      refine ⟨fun hc hst hf => ?_, (hs.holds k y hy).state⟩
      obtain ⟨seg, hseg, hbound⟩ := (hs.holds k y hy).bound hc hst hf
      have hne : entry (c_str y.name_) ≠ entry (c_str name) := by
        intro he
        rw [he, hn] at hbound
        cases hbound
      exact ⟨seg, hseg, by rw [← hbound]; exact Function.update_of_ne hne _ _⟩
    · exact hs.distinct
    · intro k y seg hy hseg
      exact Nat.lt_succ_of_lt (hs.created_lt k y seg hy hseg)
    · intro e seg hb
      simp only [Function.update_apply] at hb
      split_ifs at hb
      · cases hb
        exact Nat.lt_succ_self _
      · exact Nat.lt_succ_of_lt (hs.bound_lt e seg hb)
    · exact hs.rightful

section
variable [DecidableEq H]

/-- An object comes that is owed nothing, or what nobody else created. -/
theorem Inv.put (hs : s.Inv entry) {o : Option Tracked}
    (hholds : ∀ x, o = some x → Holds entry s.names x)
    (hnew : ∀ x seg, o = some x → x.created = some seg →
      seg < s.segments ∧ ∀ k y, k ≠ h → s.objects k = some y → y.created ≠ some seg) :
    (s.put h o).Inv entry := by
  have hobj : ∀ k y, (s.put h o).objects k = some y →
      (k = h ∧ o = some y) ∨ (k ≠ h ∧ s.objects k = some y) := by
    intro k y hy
    simp only [ShmSystem.put, Function.update_apply] at hy
    split_ifs at hy with hk
    · exact Or.inl ⟨hk, hy⟩
    · exact Or.inr ⟨hk, hy⟩
  constructor
  · intro k y hy
    rcases hobj k y hy with ⟨-, hy⟩ | ⟨-, hy⟩
    · exact hholds y hy
    · exact hs.holds k y hy
  · intro j k x y seg hx hy hxs hys
    rcases hobj j x hx with ⟨hj, hx⟩ | ⟨hj, hx⟩
    · rcases hobj k y hy with ⟨hk, -⟩ | ⟨hk, hy⟩
      · rw [hj, hk]
      · exact absurd hys ((hnew x seg hx hxs).2 k y hk hy)
    · rcases hobj k y hy with ⟨hk, hy⟩ | ⟨hk, hy⟩
      · exact absurd hxs ((hnew y seg hy hys).2 j x hj hx)
      · exact hs.distinct j k x y seg hx hy hxs hys
  · intro k y seg hy hseg
    rcases hobj k y hy with ⟨-, hy⟩ | ⟨-, hy⟩
    · exact (hnew y seg hy hseg).1
    · exact hs.created_lt k y seg hy hseg
  · exact hs.bound_lt
  · exact hs.rightful

/-- An object comes, or goes, that created nothing and is not in the state `Created`. -/
theorem Inv.putIdle (hs : s.Inv entry) {o : Option Tracked}
    (ho : ∀ x, o = some x → x.state_ ≠ .Created ∧ x.created = none) :
    (s.put h o).Inv entry := by
  apply hs.put
  · intro x hx
    exact holds_of_state (ho x hx).1 (ho x hx).2
  · intro x seg hx hseg
    rw [(ho x hx).2] at hseg
    cases hseg

theorem Inv.create (hs : s.Inv entry) (name : String) (size : Nat) (o : ShmAnswer) :
    ((s.openCreating entry name).put h (some (s.tracked entry name size o))).Inv entry := by
  have hopen := hs.openCreating name
  cases hc : (SharedMemorySegment.Create name size o).is_creator_ with
  | false =>
    apply hopen.putIdle
    rintro x ⟨⟩
    refine ⟨?_, by simp [tracked, hc]⟩
    cases o <;> simp_all [tracked, SharedMemorySegment.Create, SharedMemorySegment.empty]
  | true =>
    have hname : (SharedMemorySegment.Create name size o).name_ = name := by
      cases o <;> simp_all [SharedMemorySegment.Create, SharedMemorySegment.empty]
    have hstate : (SharedMemorySegment.Create name size o).state_ = .Created := by
      cases o <;> simp_all [SharedMemorySegment.Create, SharedMemorySegment.empty]
    cases hn : s.names (entry (c_str name)) with
    | some seg =>
      -- the segment was there before, and the object created nothing
      have hsame : s.openCreating entry name = s := by
        unfold ShmSystem.openCreating
        rw [hn]
      rw [hsame]
      apply hs.put
      · rintro x ⟨⟩
        exact ⟨fun _ _ hf => by simp [tracked, hn] at hf, fun seg hseg => by
          simp [tracked, hn] at hseg⟩
      · rintro x seg ⟨⟩ hseg
        simp [tracked, hn] at hseg
    | none =>
      have hcreated : (s.tracked entry name size o).created = some s.segments := by
        simp [tracked, hc, hn]
      apply hopen.put
      · rintro x ⟨⟩
        refine ⟨fun _ _ _ => ⟨s.segments, hcreated, ?_⟩, fun _ _ => ⟨hstate, ?_⟩⟩
        · simp [ShmSystem.openCreating, hn, tracked, hname]
        · simp [tracked, hn]
      · rintro x seg ⟨⟩ hseg
        rw [hcreated] at hseg
        cases hseg
        refine ⟨by simp [ShmSystem.openCreating, hn], ?_⟩
        intro k y _ hy hyseg
        have hy' : s.objects k = some y := by simpa [ShmSystem.openCreating, hn] using hy
        exact Nat.lt_irrefl _ (hs.created_lt k y _ hy' hyseg)

theorem Inv.move (hs : s.Inv entry) {other : H} {y : Tracked} (hne : h ≠ other)
    (hy : s.objects other = some y) :
    ((s.put h (some y)).put other (some y.moved)).Inv entry := by
  have hcomm : (s.put h (some y)).put other (some y.moved) =
      (s.put other (some y.moved)).put h (some y) := by
    simp only [ShmSystem.put]
    rw [Function.update_comm hne.symm]
  have hgone : (s.put other (some y.moved)).Inv entry := by
    apply hs.putIdle
    rintro x ⟨⟩
    exact ⟨by simp [Tracked.moved, SharedMemorySegment.moved], rfl⟩
  rw [hcomm]
  apply hgone.put
  · rintro x ⟨⟩
    exact hs.holds other y hy
  · rintro x seg ⟨⟩ hseg
    refine ⟨hs.created_lt other y seg hy hseg, ?_⟩
    intro k z _ hz hzseg
    by_cases hk : k = other
    · subst hk
      simp only [ShmSystem.put, Function.update_self, Option.some.injEq] at hz
      subst hz
      cases hzseg
    · simp only [ShmSystem.put, Function.update_of_ne hk] at hz
      exact hk (hs.distinct k other z y seg hz hy hzseg hseg)

/-- To tear a tidy object down unlinks the segment that it created, or nothing. -/
theorem Inv.teardown (hs : s.Inv entry) (hx : s.objects h = some x) (htidy : x.Tidy) :
    (s.teardown entry h x).Inv entry := by
  have hidle : (s.put h (some ⟨x.Destroy, x.found_unbound, none⟩)).Inv entry := by
    apply hs.putIdle
    rintro y ⟨⟩
    exact ⟨by simp [SharedMemorySegment.Destroy], rfl⟩
  unfold ShmSystem.teardown
  simp only
  split_ifs with hc
  · obtain ⟨seg, hbound, hseg⟩ := (hs.rightful_iff hx hc).mpr htidy
    simp only at hbound hseg
    constructor
    · intro k y hy
      refine ⟨fun hyc hyst hyf => ?_, (hidle.holds k y hy).state⟩
      by_cases hk : k = h
      · subst hk
        simp only [ShmSystem.put, Function.update_self, Option.some.injEq] at hy
        subst hy
        exact absurd hyst (by simp [SharedMemorySegment.Destroy])
      · obtain ⟨seg', hseg', hbound'⟩ := (hidle.holds k y hy).bound hyc hyst hyf
        simp only [ShmSystem.put, Function.update_of_ne hk] at hy hbound'
        -- two tidy creators have different names, because their segments differ
        have hne : entry (c_str y.name_) ≠ entry (c_str x.name_) := by
          intro he
          rw [he, hbound, Option.some.injEq] at hbound'
          subst hbound'
          exact hk (hs.distinct k h y x seg hy hx hseg' hseg)
        exact ⟨seg', hseg', by rw [← hbound']; exact Function.update_of_ne hne _ _⟩
    · exact hidle.distinct
    · exact hidle.created_lt
    · intro e seg' hb
      simp only [Function.update_apply] at hb
      split_ifs at hb
      exact hs.bound_lt e seg' hb
    · intro u hu
      rcases List.mem_append.mp hu with hu | hu
      · exact hs.rightful u hu
      · rw [List.mem_singleton.mp hu]
        exact (hs.rightful_iff hx hc).mpr htidy
  · exact hidle

theorem Inv.step (hs : s.Inv entry) (a : ShmAction H) (htidy : s.Tidy a)
    (ht : ShmSystem.step entry s a = some t) : t.Inv entry := by
  cases a with
  | construct h =>
    simp only [ShmSystem.step] at ht
    cases hh : s.objects h with
    | some x => simp [hh] at ht
    | none =>
      rw [hh, Option.some.injEq] at ht
      subst ht
      apply hs.putIdle
      rintro x ⟨⟩
      exact ⟨by simp [SharedMemorySegment.empty], rfl⟩
  | Create h name size o =>
    simp only [ShmSystem.step] at ht
    cases hh : s.objects h with
    | some x => simp [hh] at ht
    | none =>
      by_cases ho : o = .shm_open_fails
      · subst ho
        rw [hh, Option.some.injEq] at ht
        subst ht
        apply hs.putIdle
        rintro x ⟨⟩
        exact ⟨by simp [tracked, SharedMemorySegment.Create, SharedMemorySegment.empty],
          by simp [tracked, SharedMemorySegment.Create, SharedMemorySegment.empty]⟩
      · rw [hh] at ht
        simp only at ht
        split_ifs at ht
        cases ht
        exact hs.create name size o
  | Open h name o =>
    have hidle : (s.put h (some ⟨.Open name o, false, none⟩)).Inv entry := by
      apply hs.putIdle
      rintro x ⟨⟩
      refine ⟨?_, rfl⟩
      cases o <;> simp [SharedMemorySegment.Open, SharedMemorySegment.empty]
    simp only [ShmSystem.step] at ht
    cases hh : s.objects h with
    | some x => simp [hh] at ht
    | none =>
      by_cases ho : o = .shm_open_fails
      · subst ho
        rw [hh, Option.some.injEq] at ht
        exact ht ▸ hidle
      · rw [hh] at ht
        simp only at ht
        split_ifs at ht
        cases ht
        exact hidle
  | move_construct h other =>
    simp only [ShmSystem.step] at ht
    cases hh : s.objects h with
    | some x => simp [hh] at ht
    | none =>
      cases ho : s.objects other with
      | none => simp [hh, ho] at ht
      | some y =>
        rw [hh, ho, Option.some.injEq] at ht
        subst ht
        refine hs.move ?_ ho
        rintro rfl
        simp [hh] at ho
  | move_assign h other =>
    simp only [ShmSystem.step] at ht
    cases hh : s.objects h with
    | none => simp [hh] at ht
    | some x =>
      cases ho : s.objects other with
      | none => simp [hh, ho] at ht
      | some y =>
        simp only [hh, ho] at ht
        split_ifs at ht with hne
        · cases ht
          exact hs
        · cases ht
          refine (hs.teardown hh (htidy hne x hh)).move hne ?_
          unfold ShmSystem.teardown
          simp only
          split_ifs <;> simp [ShmSystem.put, Ne.symm hne, ho]
  | Destroy h =>
    simp only [ShmSystem.step] at ht
    cases hh : s.objects h with
    | none => simp [hh] at ht
    | some x =>
      rw [hh, Option.some.injEq] at ht
      subst ht
      exact hs.teardown hh (htidy x hh)
  | destruct h =>
    simp only [ShmSystem.step] at ht
    cases hh : s.objects h with
    | none => simp [hh] at ht
    | some x =>
      rw [hh, Option.some.injEq] at ht
      subst ht
      apply (hs.teardown hh (htidy x hh)).putIdle
      rintro y ⟨⟩

/-- In every run in which only tidy objects are torn down, `shm_unlink` is called only for an object
that created the segment with that name, and did not unlink it before. -/
theorem only_creators_unlink_while_objects_are_tidy {entry : String → String}
    {as : List (ShmAction H)} {s : ShmSystem H} (hm : Meets (step entry) Tidy start as)
    (hr : run (step entry) start as = some s) :
    ∀ u ∈ s.unlinks, u.Rightful :=
  (invariant_of_meets (fun _ a _ hs hok ht => hs.step a hok ht) inv_start hm hr).rightful

end

/-- The file that has the segment under Linux, where leading slashes do not count. -/
def dev_shm (name : String) : String := String.ofList (name.toList.dropWhile (· = '/'))

/-- The segment of object 0 is opened by object 1, and moved to object 2, which is destroyed. A
segment with the same name is created after that. -/
def createAgain : List (ShmAction (Fin 4)) :=
  [.Create 0 "/a" 8 (.mapped 3 8 100), .Open 1 "/a" (.mapped 4 8 200), .move_construct 2 0,
    .Destroy 1, .destruct 1, .destruct 2, .Create 3 "/a" 8 (.mapped 3 8 100), .Destroy 3]

theorem segments_are_unlinked_by_their_creators :
    ∃ s : ShmSystem (Fin 4), run (step dev_shm) start createAgain = some s ∧ s.segments = 2 ∧
      ∀ u ∈ s.unlinks, u.Rightful := by
  have hr : ∃ s : ShmSystem (Fin 4), run (step dev_shm) start createAgain = some s ∧
      s.segments = 2 :=
    exists_of_any (by decide +kernel)
  obtain ⟨s, hr, hseg⟩ := hr
  exact ⟨s, hr, hseg, only_creators_unlink_while_objects_are_tidy (by decide +kernel) hr⟩

/-- Object 0 is destroyed, object 1 creates the name again, and the destructor of object 0 runs. -/
def destroyTwice : List (ShmAction Bool) :=
  [.Create false "/a" 8 (.mapped 3 8 100), .Destroy false,
    .Create true "/a" 8 (.mapped 3 8 100), .destruct false]

theorem destructor_unlinks_the_segment_of_another :
    ∃ s : ShmSystem Bool, run (step dev_shm) start destroyTwice = some s ∧
      (s.unlinks = [⟨"a", some 0, some 0⟩, ⟨"a", some 1, none⟩] ∧ s.names "a" = none) :=
  exists_of_any (by decide +kernel)

end ShmSystem

end sci.bridges
