-- The calls of an `MPSCQueue` by one thread (include/bridges/impl/ipc_queue_impl.hpp,
-- 154-286), each as a whole: they answer as a bounded queue, first in first out, while no
-- `Reserve(1)` makes a ring of one slot. There the number of a published slot is that of
-- the next free position, and `Push` overwrites it.
import Scicompute.BoundedFifo
import Scicompute.MpscQueueAnswers

open Word RingBuffer Transition

namespace sci.bridges

variable {T : Type*}

namespace MPSCQueue

/-! ## The calls -/

/-- A default-constructed queue. -/
def empty [Inhabited T] : MPSCQueue T := ⟨false, fun _ => ⟨0, default⟩, 0, 0, 0⟩

/-- `fresh` is what `new Node[new_capacity]` leaves in the data of the slots. -/
def Reserve (q : MPSCQueue T) (new_capacity : Nat) (fresh : Nat → T) : Bool × MPSCQueue T :=
  if new_capacity ≤ q.pool_capacity_ then (true, q)
  else if q.enqueue_pos_ ≠ q.dequeue_pos_ then (false, q)
  else (true,
    { allocated := true
      pool_ := fun i => { sequence := i, data := fresh i }
      pool_capacity_ := new_capacity
      enqueue_pos_ := 0
      dequeue_pos_ := 0 })

/-- The loop of `Push` from a position: the position that it claims, or `none` when it returns
false. Each turn takes one of `weak`, which says whether its compare-exchange fails though the
values agree; a call that needs more turns has not returned. -/
def Push.loop (q : MPSCQueue T) : List Bool → Nat → Option (Option Nat)
  | [], _ => none
  | weak :: turns, pos =>
    let diff := difference (q.node pos).sequence pos
    if diff = 0 then
      if q.enqueue_pos_ = pos ∧ weak = false then some (some pos) else loop q turns q.enqueue_pos_
    else if diff < 0 then some none
    else loop q turns q.enqueue_pos_

def Push (q : MPSCQueue T) (item : T) (weak : List Bool) : Option (Bool × MPSCQueue T) :=
  if q.allocated = false then some (false, q)
  else
    match Push.loop q weak q.enqueue_pos_ with
    | none => none
    | some none => some (false, q)
    | some (some pos) =>
      let q := { q with enqueue_pos_ := add pos 1 }
      let q := q.setNode pos { q.node pos with data := item }
      some (true, q.setNode pos { q.node pos with sequence := add pos 1 })

def Pop (q : MPSCQueue T) : Option T × MPSCQueue T :=
  if q.allocated = false then (none, q)
  else
    let pos := q.dequeue_pos_
    if difference (q.node pos).sequence (add pos 1) ≠ 0 then (none, q)
    else
      let item := (q.node pos).data
      let q := { q with dequeue_pos_ := add pos 1 }
      (some item, q.setNode pos { q.node pos with sequence := add pos q.pool_capacity_ })

def Empty (q : MPSCQueue T) : Bool :=
  if q.allocated = false then true
  else decide ((q.node q.dequeue_pos_).sequence ≠ add q.dequeue_pos_ 1)

def SizeApprox (q : MPSCQueue T) : Nat := sub q.enqueue_pos_ q.dequeue_pos_

/-- The items with the turns of their `Push`. -/
def PushBatch (q : MPSCQueue T) : List (T × List Bool) → Option (Nat × MPSCQueue T)
  | [] => some (0, q)
  | (item, weak) :: items =>
    match q.Push item weak with
    | none => none
    | some (false, q) => some (0, q)
    | some (true, q) => (PushBatch q items).map fun r => (r.1 + 1, r.2)

/-- The items that are popped, in order. -/
def PopBatch (q : MPSCQueue T) : Nat → List T × MPSCQueue T
  | 0 => ([], q)
  | count + 1 =>
    match q.Pop with
    | (none, q) => ([], q)
    | (some item, q) => (item :: (PopBatch q count).1, (PopBatch q count).2)

/-! ## The calls as runs of one thread -/

section
variable {ι : Type*} [DecidableEq ι] {s t : MPSCSystem ι T} {p : ι} {item : T}

open MPSCSystem (step pushCall popCall)

/-- What is left of the loop at a place of the producer. -/
def Push.rest (q : MPSCQueue T) : PushPc T → List Bool → Option (Option Nat)
  | .load_pos _, turns => loop q turns q.enqueue_pos_
  | .load_sequence _ pos, turns => loop q turns pos
  | .compare_exchange _ _, [] => none
  | .compare_exchange _ pos, weak :: turns =>
    if q.enqueue_pos_ = pos ∧ weak = false then some (some pos) else loop q turns q.enqueue_pos_
  | _, _ => none

/-- The end of a `Push` whose loop has ended. -/
def Push.finish (q : MPSCQueue T) (item : T) : Option Nat → Bool × MPSCQueue T
  | none => (false, q)
  | some pos =>
    let q := { q with enqueue_pos_ := add pos 1 }
    let q := q.setNode pos { q.node pos with data := item }
    (true, q.setNode pos { q.node pos with sequence := add pos 1 })

theorem Push_of_loop (q : MPSCQueue T) (hq : q.allocated = true) (item : T) {weak : List Bool}
    {r : Option Nat} (h : Push.loop q weak q.enqueue_pos_ = some r) :
    q.Push item weak = some (Push.finish q item r) := by
  rw [Push, if_neg (by simp [hq]), h]
  cases r <;> rfl

theorem eq_of_run_idle (hidle : s.producer p = .idle) {weak : List Bool}
    (hr : run step s (weak.map (.producer p)) = some t) : t = s := by
  cases weak with
  | nil =>
    cases hr
    rfl
  | cons w weak =>
    obtain ⟨u, hu, -⟩ := (run_cons ..).mp hr
    simp [step, MPSCSystem.Push, hidle] at hu

/-- What the end of a `Push` leaves, if its loop ends with `r`. -/
def Push.Ends (s t : MPSCSystem ι T) (p : ι) (item : T) (r : Option Nat) : Prop :=
  t.queue = (finish s.queue item r).2 ∧
    t.pushed p = if (finish s.queue item r).1 then s.pushed p ++ [item] else s.pushed p

theorem ends_of_claim {pos : Nat} {weak : List Bool}
    (hr : run step { s.setProducer p (.copy item pos) with
      queue := { s.queue with enqueue_pos_ := add pos 1 }
      won := s.won ++ [⟨pos, p, item⟩] } (weak.map (.producer p)) = some t)
    (ht : t.producer p = .idle) : Push.Ends s t p item (some pos) := by
  rcases weak with _ | ⟨w, _ | ⟨w', weak⟩⟩
  · cases hr
    simp at ht
  · obtain ⟨u, hu, hr⟩ := (run_cons ..).mp hr
    cases hr
    simp only [step, MPSCSystem.Push, MPSCSystem.setProducer_self] at hu
    cases hu
    simp at ht
  · obtain ⟨u, hu, hr⟩ := (run_cons ..).mp hr
    simp only [step, MPSCSystem.Push, MPSCSystem.setProducer_self] at hu
    cases hu
    obtain ⟨u, hu, hr⟩ := (run_cons ..).mp hr
    simp only [step, MPSCSystem.Push, MPSCSystem.setProducer_self] at hu
    cases hu
    have he := eq_of_run_idle (by simp [MPSCSystem.setProducer]) hr
    subst he
    exact ⟨rfl, by simp [Push.finish]⟩

/-- The steps of a loop that runs alone are its turns. -/
theorem exists_turns (hq : s.queue.allocated = true) (ht : t.producer p = .idle) {weak : List Bool}
    {pc : PushPc T} (hpc : pc = .load_pos item ∨ (∃ pos, pc = .load_sequence item pos) ∨
      ∃ pos, pc = .compare_exchange item pos)
    (hr : run step (s.setProducer p pc) (weak.map (.producer p)) = some t) :
    ∃ turns r, Push.rest s.queue pc turns = some r ∧ Push.Ends s t p item r := by
  have hset : ∀ pc pc', (s.setProducer p pc).setProducer p pc' = s.setProducer p pc' := by
    intro pc pc'
    simp [MPSCSystem.setProducer]
  have hqueue : ∀ pc, (s.setProducer p pc).queue = s.queue := fun _ => rfl
  induction weak generalizing pc with
  | nil =>
    cases hr
    rw [MPSCSystem.setProducer_self] at ht
    rcases hpc with rfl | ⟨pos, rfl⟩ | ⟨pos, rfl⟩ <;> cases ht
  | cons w weak ih =>
    obtain ⟨u, hu, hr⟩ := (run_cons ..).mp hr
    simp only [step, MPSCSystem.Push, MPSCSystem.setProducer_self] at hu
    rcases hpc with rfl | ⟨pos, rfl⟩ | ⟨pos, rfl⟩
    · simp only [hqueue, hset, hq, if_true, Option.some.injEq] at hu
      subst hu
      obtain ⟨turns, r, hrest, hends⟩ := ih (Or.inr (Or.inl ⟨_, rfl⟩)) hr
      exact ⟨turns, r, hrest, hends⟩
    · simp only [hqueue, hset] at hu
      split_ifs at hu with hzero hneg
      · cases hu
        obtain ⟨turns, r, hrest, hends⟩ := ih (Or.inr (Or.inr ⟨pos, rfl⟩)) hr
        refine ⟨turns, r, ?_, hends⟩
        cases turns with
        | nil => cases hrest
        | cons w turns =>
          rw [Push.rest, Push.loop]
          simp only [hzero, if_true]
          exact hrest
      · cases hu
        rw [eq_of_run_idle (MPSCSystem.setProducer_self ..) hr]
        refine ⟨[false], none, ?_, rfl, rfl⟩
        rw [Push.rest, Push.loop]
        simp only [hzero, hneg, if_false, if_true]
      · cases hu
        obtain ⟨turns, r, hrest, hends⟩ := ih (Or.inl rfl) hr
        refine ⟨false :: turns, r, ?_, hends⟩
        rw [Push.rest, Push.loop]
        simp only [hzero, hneg, if_false]
        exact hrest
    · simp only [hqueue, hset] at hu
      split_ifs at hu with hwin
      · cases hu
        exact ⟨[false], some pos, by simp [Push.rest, hwin.1], ends_of_claim hr ht⟩
      · cases hu
        obtain ⟨turns, r, hrest, hends⟩ := ih (Or.inr (Or.inl ⟨_, rfl⟩)) hr
        exact ⟨true :: turns, r, by simpa [Push.rest] using hrest, hends⟩

/-- A `Push` whose steps run alone does to the queue what the whole call does. -/
theorem Push_of_run (hidle : s.producer p = .idle) {weak : List Bool}
    (hr : run step s (pushCall p item weak) = some t) (ht : t.producer p = .idle) :
    ∃ turns b, s.queue.Push item turns = some (b, t.queue) ∧
      t.pushed p = if b then s.pushed p ++ [item] else s.pushed p := by
  obtain ⟨u, hu, hr⟩ := (run_cons ..).mp hr
  simp only [step, hidle] at hu
  cases hu
  cases hq : s.queue.allocated with
  | true =>
    obtain ⟨turns, r, hrest, hqueue, hpushed⟩ := exists_turns hq ht (Or.inl rfl) hr
    exact ⟨turns, _, by rw [hqueue]; exact Push_of_loop _ hq item hrest, hpushed⟩
  | false =>
    cases weak with
    | nil =>
      cases hr
      simp at ht
    | cons w weak =>
      obtain ⟨u, hu, hr⟩ := (run_cons ..).mp hr
      simp only [step, MPSCSystem.Push, MPSCSystem.setProducer_self] at hu
      rw [if_neg (by simp [MPSCSystem.setProducer, hq])] at hu
      cases hu
      rw [eq_of_run_idle (MPSCSystem.setProducer_self ..) hr]
      exact ⟨[], false, by simp [Push, hq, MPSCSystem.setProducer], by simp⟩

theorem eq_of_run_popped (hidle : s.consumer = .idle) {n : Nat}
    (hr : run step s (List.replicate n .consumer) = some t) : t = s := by
  cases n with
  | zero =>
    cases hr
    rfl
  | succ n =>
    obtain ⟨u, hu, -⟩ := (run_cons ..).mp hr
    simp [step, MPSCSystem.Pop, hidle] at hu

/-- A `Pop` whose steps run alone does to the queue what the whole call does. -/
theorem Pop_of_run (hidle : s.consumer = .idle) {n : Nat} (hr : run step s (popCall n) = some t)
    (ht : t.consumer = .idle) :
    s.queue.Pop.2 = t.queue ∧ t.popped = s.popped ++ s.queue.Pop.1.toList := by
  obtain ⟨u, hu, hr⟩ := (run_cons ..).mp hr
  simp only [step, hidle] at hu
  cases hu
  rcases n with _ | n
  · cases hr
    cases ht
  obtain ⟨u, hu, hr⟩ := (run_cons ..).mp hr
  simp only [step, MPSCSystem.Pop] at hu
  split_ifs at hu with hq
  · cases hu
    rcases n with _ | n
    · cases hr
      cases ht
    obtain ⟨u, hu, hr⟩ := (run_cons ..).mp hr
    simp only [step, MPSCSystem.Pop] at hu
    split_ifs at hu with hdiff
    · cases hu
      rw [eq_of_run_popped rfl hr, Pop, if_neg (by simp [hq])]
      simp only [if_pos hdiff]
      exact ⟨trivial, by simp⟩
    · cases hu
      -- the copy, the store of the position and the release
      rcases n with _ | _ | _ | n
      · cases hr
        cases ht
      · simp only [List.replicate, run, step, MPSCSystem.Pop] at hr
        cases hr
        cases ht
      · simp only [List.replicate, run, step, MPSCSystem.Pop] at hr
        cases hr
        cases ht
      · obtain ⟨u, hu, hr⟩ := (run_cons ..).mp hr
        cases hu
        obtain ⟨u, hu, hr⟩ := (run_cons ..).mp hr
        cases hu
        obtain ⟨u, hu, hr⟩ := (run_cons ..).mp hr
        cases hu
        rw [eq_of_run_popped rfl hr, Pop, if_neg (by simp [hq])]
        simp only [if_neg hdiff]
        exact ⟨trivial, by simp⟩
  · cases hu
    rw [eq_of_run_popped rfl hr, Pop, if_pos (by simpa using hq)]
    exact ⟨rfl, by simp⟩

end

inductive Call (T : Type*)
  | Init (capacity : Nat) (fresh : Nat → T)
  | Reserve (new_capacity : Nat) (fresh : Nat → T)
  | Destroy
  | Push (item : T) (weak : List Bool)
  | Pop
  | PushBatch (items : List (T × List Bool))
  | PopBatch (count : Nat)
  | Empty
  | SizeApprox

/-- What a call returns, or writes through its argument. -/
inductive Answer (T : Type*)
  | none
  | ok (b : Bool)
  | item (item : Option T)
  | count (n : Nat)
  | items (items : List T)
  deriving DecidableEq

def call (q : MPSCQueue T) : Call T → Option (Answer T × MPSCQueue T)
  | .Init capacity fresh => some (.ok (q.Init capacity fresh).1, (q.Init capacity fresh).2)
  | .Reserve new_capacity fresh =>
    some (.ok (q.Reserve new_capacity fresh).1, (q.Reserve new_capacity fresh).2)
  | .Destroy => some (.none, q.Destroy)
  | .Push item weak => (q.Push item weak).map fun r => (.ok r.1, r.2)
  | .Pop => some (.item q.Pop.1, q.Pop.2)
  | .PushBatch items => (q.PushBatch items).map fun r => (.count r.1, r.2)
  | .PopBatch count => some (.items (q.PopBatch count).1, (q.PopBatch count).2)
  | .Empty => some (.ok q.Empty, q)
  | .SizeApprox => some (.count q.SizeApprox, q)

/-- A call of a session, which keeps the answers. -/
def callStep (s : MPSCQueue T × List (Answer T)) (c : Call T) :
    Option (MPSCQueue T × List (Answer T)) :=
  (s.1.call c).map fun r => (r.2, s.2 ++ [r.1])

/-! ## What the calls promise -/

/-- What the calls do to the bounded queue that they stand for. -/
def fifoCall (f : BoundedFifo T) : Call T → Answer T × BoundedFifo T
  | .Init capacity _ => if capacity < 2 then (.ok false, .empty 0) else (.ok true, .empty capacity)
  | .Reserve new_capacity _ =>
    if new_capacity ≤ f.capacity then (.ok true, f)
    else if f.held ≠ [] then (.ok false, f)
    else (.ok true, .empty new_capacity)
  | .Destroy => (.none, .empty 0)
  | .Push item _ => (.ok (f.push item).1, (f.push item).2)
  | .Pop => (.item f.pop.1, f.pop.2)
  | .PushBatch items =>
    (.count (f.pushBatch (items.map Prod.fst)).1, (f.pushBatch (items.map Prod.fst)).2)
  | .PopBatch count => (.items (f.popBatch count).1, (f.popBatch count).2)
  | .Empty => (.ok (decide (f.held = [])), f)
  | .SizeApprox => (.count f.held.length, f)

def fifoStep (s : BoundedFifo T × List (Answer T)) (c : Call T) :
    Option (BoundedFifo T × List (Answer T)) :=
  some ((fifoCall s.1 c).2, s.2 ++ [(fifoCall s.1 c).1])

/-- The arguments are `size_t` values, a compare-exchange does not fail for ever, and the positions
that the call pushes at are below `2^63`. -/
def InRange (q : MPSCQueue T) : Call T → Prop
  | .Init capacity _ => capacity < wordSize
  | .Reserve new_capacity _ => new_capacity < wordSize
  | .Push _ weak => false ∈ weak ∧ q.enqueue_pos_ < 2 ^ 63
  | .PushBatch items => (∀ r ∈ items, false ∈ r.2) ∧
      q.enqueue_pos_ + min items.length (q.pool_capacity_ - q.SizeApprox) < 2 ^ 63
  | _ => True

/-- The condition on a call: it does not make a ring of one slot. -/
def KeepsTwo (q : MPSCQueue T) : Call T → Prop
  | .Reserve new_capacity _ => new_capacity = 1 → q.pool_capacity_ ≠ 0
  | _ => True

instance (q : MPSCQueue T) : ∀ c, Decidable (q.InRange c)
  | .Init capacity _ => inferInstanceAs (Decidable (capacity < wordSize))
  | .Reserve new_capacity _ => inferInstanceAs (Decidable (new_capacity < wordSize))
  | .Push _ weak => inferInstanceAs (Decidable (false ∈ weak ∧ q.enqueue_pos_ < 2 ^ 63))
  | .PushBatch items => inferInstanceAs (Decidable ((∀ r ∈ items, false ∈ r.2) ∧
      q.enqueue_pos_ + min items.length (q.pool_capacity_ - q.SizeApprox) < 2 ^ 63))
  | .Destroy | .Pop | .PopBatch _ | .Empty | .SizeApprox => isTrue trivial

instance (q : MPSCQueue T) : ∀ c, Decidable (q.KeepsTwo c)
  | .Reserve new_capacity _ =>
    inferInstanceAs (Decidable (new_capacity = 1 → q.pool_capacity_ ≠ 0))
  | .Init _ _ | .Push _ _ | .PushBatch _ => isTrue trivial
  | .Destroy | .Pop | .PopBatch _ | .Empty | .SizeApprox => isTrue trivial

/-! ## The ring -/

/-- The ring holds the items of a bounded queue. A slot with an item has the number after its
position, and a free slot has the number of the position that will take it. -/
structure Represents (q : MPSCQueue T) (f : BoundedFifo T) : Prop where
  capacity : q.pool_capacity_ = f.capacity
  null : q.allocated = false → f.capacity = 0
  two_le : q.allocated = true → 2 ≤ f.capacity
  enqueue : q.enqueue_pos_ = q.dequeue_pos_ + f.held.length
  below : q.enqueue_pos_ ≤ 2 ^ 63
  taken : ∀ i item, f.held[i]? = some item → q.node (q.dequeue_pos_ + i) =
    ⟨q.dequeue_pos_ + i + 1, item⟩
  free : ∀ t, q.enqueue_pos_ ≤ t → t < q.dequeue_pos_ + f.capacity →
    (q.node t).sequence = t % wordSize

theorem represents_empty [Inhabited T] : (empty : MPSCQueue T).Represents (.empty 0) := by
  refine ⟨rfl, fun _ => rfl, by simp [empty], rfl, by simp [empty], ?_, ?_⟩
  · intro i item hi
    cases hi
  · intro t _ ht
    exact absurd ht (by simp [empty, BoundedFifo.empty])

theorem represents_fresh {c : Nat} (hc : 2 ≤ c) (hword : c < wordSize) (fresh : Nat → T) :
    (⟨true, fun i => ⟨i, fresh i⟩, c, 0, 0⟩ : MPSCQueue T).Represents (.empty c) := by
  refine ⟨rfl, by simp, fun _ => hc, rfl, by simp, ?_, ?_⟩
  · intro i item hi
    cases hi
  · intro t _ ht
    simp only [BoundedFifo.empty, Nat.zero_add] at ht
    simp only [node]
    rw [Nat.mod_eq_of_lt ht, Nat.mod_eq_of_lt (ht.trans hword)]

theorem represents_destroy (q : MPSCQueue T) : q.Destroy.Represents (.empty 0) := by
  refine ⟨rfl, fun _ => rfl, by simp [Destroy], rfl, by simp [Destroy], ?_, ?_⟩
  · intro i item hi
    cases hi
  · intro t _ ht
    exact absurd ht (by simp [Destroy, BoundedFifo.empty])

variable {q : MPSCQueue T} {f : BoundedFifo T}

theorem Represents.size (h : q.Represents f) : q.SizeApprox = f.held.length := by
  have hbelow := h.below
  have hword : (2 : Nat) ^ 63 < wordSize := by decide
  have henq := h.enqueue
  rw [SizeApprox, sub, show q.enqueue_pos_ + (wordSize - q.dequeue_pos_) =
    f.held.length + wordSize by omega, Nat.add_mod_right, Nat.mod_eq_of_lt (by omega)]

/-- What the slot of `dequeue_pos_` tells. -/
theorem Represents.first (h : q.Represents f) (hq : q.allocated = true) :
    (q.node q.dequeue_pos_).sequence = q.dequeue_pos_ + 1 ↔ f.held ≠ [] := by
  have hbelow := h.below
  have henq := h.enqueue
  have htwo := h.two_le hq
  cases hheld : f.held with
  | nil =>
    rw [hheld, List.length_nil] at henq
    have hword : q.dequeue_pos_ < wordSize := by simp only [wordSize]; omega
    rw [h.free q.dequeue_pos_ (by omega) (by omega), Nat.mod_eq_of_lt hword]
    simp
  | cons item held =>
    have hfirst := h.taken 0 item (by rw [hheld]; rfl)
    rw [Nat.add_zero] at hfirst
    rw [hfirst]
    simp

theorem Represents.empty_eq (h : q.Represents f) : q.Empty = decide (f.held = []) := by
  have hbelow := h.below
  have henq := h.enqueue
  have hword : q.dequeue_pos_ + 1 < wordSize := by simp only [wordSize]; omega
  rw [Empty]
  split_ifs with hq
  · have hfits := f.fits
    rw [h.null hq, Nat.le_zero, List.length_eq_zero_iff] at hfits
    simp [hfits]
  · rw [add_of_lt hword]
    congr 1
    rw [ne_eq, h.first (by simpa using hq), not_not]

/-! ## `Push` -/

theorem loop_of_zero {pos : Nat} (hpos : q.enqueue_pos_ = pos)
    (hzero : difference (q.node pos).sequence pos = 0) {weak : List Bool} (hweak : false ∈ weak) :
    Push.loop q weak pos = some (some pos) := by
  induction weak with
  | nil => cases hweak
  | cons w weak ih =>
    rw [Push.loop]
    simp only [hzero, if_true]
    cases w with
    | false => simp [hpos]
    | true =>
      rw [if_neg (by simp), hpos]
      exact ih (by simpa using hweak)

theorem loop_of_neg {pos : Nat} (hneg : difference (q.node pos).sequence pos < 0)
    {weak : List Bool} (hweak : false ∈ weak) : Push.loop q weak pos = some none := by
  cases weak with
  | nil => cases hweak
  | cons w weak =>
    rw [Push.loop]
    simp only [hneg, Int.ne_of_lt hneg, if_true, if_false]

/-- The queue after a `Push` that claims its position. -/
def pushed (q : MPSCQueue T) (item : T) : MPSCQueue T :=
  { q with enqueue_pos_ := q.enqueue_pos_ + 1 }.setNode q.enqueue_pos_ ⟨q.enqueue_pos_ + 1, item⟩

theorem Represents.pushed (h : q.Represents f) (item : T) (hroom : f.held.length < f.capacity)
    (hpos : q.enqueue_pos_ < 2 ^ 63) : (q.pushed item).Represents (f.append [item]) := by
  have henq := h.enqueue
  have hheld : (f.append [item]).held = f.held ++ [item] := BoundedFifo.held_append_singleton hroom item
  have hself : (q.pushed item).node q.enqueue_pos_ = ⟨q.enqueue_pos_ + 1, item⟩ :=
    node_setNode_of_eq _ _ rfl
  have hother : ∀ t, q.dequeue_pos_ ≤ t → t < q.dequeue_pos_ + f.capacity → t ≠ q.enqueue_pos_ →
      (q.pushed item).node t = q.node t := by
    intro t ht ht' hne
    refine node_setNode_of_ne _ _ (fun hmod => hne ?_)
    exact eq_of_mod_eq ht ht' (by omega) (by omega) (h.capacity ▸ hmod)
  refine ⟨h.capacity, h.null, h.two_le, ?_, hpos, ?_, ?_⟩
  · change q.enqueue_pos_ + 1 = q.dequeue_pos_ + (f.append [item]).held.length
    rw [hheld, List.length_append, List.length_singleton]
    omega
  · intro i x hi
    change (q.pushed item).node (q.dequeue_pos_ + i) = ⟨q.dequeue_pos_ + i + 1, x⟩
    rw [hheld] at hi
    rcases Nat.lt_or_ge i f.held.length with hlt | hge
    · rw [List.getElem?_append_left hlt] at hi
      rw [hother _ (by omega) (by omega) (by omega)]
      exact h.taken i x hi
    · rw [List.getElem?_append_right hge, List.getElem?_singleton] at hi
      split_ifs at hi with hz
      cases hi
      rw [show q.dequeue_pos_ + i = q.enqueue_pos_ by omega]
      exact hself
  · intro t ht ht'
    change q.enqueue_pos_ + 1 ≤ t at ht
    change t < q.dequeue_pos_ + f.capacity at ht'
    rw [hother t (by omega) ht' (by omega)]
    exact h.free t (by omega) ht'

/-- `Push` succeeds exactly when there is room. -/
theorem Represents.push (h : q.Represents f) (item : T) {weak : List Bool} (hweak : false ∈ weak)
    (hpos : q.enqueue_pos_ < 2 ^ 63) : ∃ q', q.Push item weak = some ((f.push item).1, q') ∧
      q'.Represents (f.push item).2 ∧
      q'.enqueue_pos_ = q.enqueue_pos_ + min 1 f.free := by
  have henq := h.enqueue
  have hword : q.enqueue_pos_ + 1 < wordSize := by simp only [wordSize]; omega
  by_cases hroom : f.held.length < f.capacity
  · refine ⟨q.pushed item, ?_, h.pushed item hroom hpos, ?_⟩
    · have hq : q.allocated = true := by
        by_contra hq
        have := h.null (by simpa using hq)
        omega
      have hzero : difference (q.node q.enqueue_pos_).sequence q.enqueue_pos_ = 0 := by
        have hseq := h.free q.enqueue_pos_ (Nat.le_refl _) (by omega)
        rw [Nat.mod_eq_of_lt (by omega)] at hseq
        exact (difference_eq_zero_iff (by rw [hseq]; omega) (by omega)).mpr hseq
      rw [Push, if_neg (by simp [hq]), loop_of_zero rfl hzero hweak]
      simp [BoundedFifo.push, hroom, MPSCQueue.pushed, add_of_lt hword, setNode, node]
    · have := f.free_pos_iff.mpr hroom
      rw [Nat.min_eq_left this]
      rfl
  · have hfree : f.free = 0 := Nat.eq_zero_of_not_pos (mt f.free_pos_iff.mp hroom)
    have hsame : f.push item = (false, f) := by
      rw [BoundedFifo.push, BoundedFifo.append_of_full hfree, decide_eq_false hroom]
    rw [hsame, hfree]
    refine ⟨q, ?_, h, rfl⟩
    rw [Push]
    split_ifs with hq
    · rfl
    · -- the oldest item is in the slot, one round behind
      have htwo := h.two_le (by simpa using hq)
      have hfits := f.fits
      obtain ⟨x, hx⟩ : ∃ x, f.held[0]? = some x := ⟨_, List.getElem?_eq_getElem (by omega)⟩
      have hnode : q.node q.enqueue_pos_ = q.node (q.dequeue_pos_ + 0) := by
        rw [node, node, henq, show f.held.length = q.pool_capacity_ by rw [h.capacity]; omega]
        simp
      have hneg : difference (q.node q.enqueue_pos_).sequence q.enqueue_pos_ < 0 := by
        rw [hnode, h.taken 0 x hx, difference_of_lt (by simp only; omega) hpos]
        simp only
        omega
      rw [loop_of_neg hneg hweak]

/-! ## `Pop` -/

/-- The queue after a `Pop` that takes an item. -/
def dropped (q : MPSCQueue T) : MPSCQueue T :=
  { q with dequeue_pos_ := q.dequeue_pos_ + 1 }.setNode q.dequeue_pos_
    { q.node q.dequeue_pos_ with sequence := add q.dequeue_pos_ q.pool_capacity_ }

theorem Represents.dropped (h : q.Represents f) (hheld : f.held ≠ []) :
    q.dropped.Represents (f.drop 1) := by
  have henq := h.enqueue
  have hfits := f.fits
  have hlen : 0 < f.held.length := List.length_pos_iff.mpr hheld
  have hself : q.dropped.node (q.dequeue_pos_ + f.capacity) =
      { q.node q.dequeue_pos_ with sequence := add q.dequeue_pos_ q.pool_capacity_ } := by
    refine node_setNode_of_eq _ _ ?_
    change (q.dequeue_pos_ + f.capacity) % q.pool_capacity_ = q.dequeue_pos_ % q.pool_capacity_
    rw [h.capacity, Nat.add_mod_right]
  have hother : ∀ t, q.dequeue_pos_ < t → t < q.dequeue_pos_ + f.capacity →
      q.dropped.node t = q.node t := by
    intro t ht ht'
    refine node_setNode_of_ne _ _ (fun hmod => ?_)
    have := eq_of_mod_eq (r := q.dequeue_pos_) (Nat.le_of_lt ht) ht' (Nat.le_refl _) (by omega)
      (h.capacity ▸ hmod)
    omega
  refine ⟨h.capacity, h.null, h.two_le, ?_, h.below, ?_, ?_⟩
  · change q.enqueue_pos_ = q.dequeue_pos_ + 1 + (f.held.drop 1).length
    rw [List.length_drop]
    omega
  · intro i x hi
    change (f.held.drop 1)[i]? = some x at hi
    change q.dropped.node (q.dequeue_pos_ + 1 + i) = ⟨q.dequeue_pos_ + 1 + i + 1, x⟩
    rw [List.getElem?_drop] at hi
    have hlt : 1 + i < f.held.length := (List.getElem?_eq_some_iff.mp hi).choose
    rw [hother _ (by omega) (by omega), Nat.add_assoc q.dequeue_pos_]
    exact h.taken (1 + i) x hi
  · intro t ht ht'
    change t < q.dequeue_pos_ + 1 + f.capacity at ht'
    change q.enqueue_pos_ ≤ t at ht
    rcases Nat.lt_or_ge t (q.dequeue_pos_ + f.capacity) with hlt | hge
    · rw [hother t (by omega) hlt]
      exact h.free t ht hlt
    · obtain rfl : t = q.dequeue_pos_ + f.capacity := by omega
      rw [hself, ← h.capacity]
      rfl

/-- `Pop` takes the oldest item, and fails exactly when there is none. -/
theorem Represents.pop (h : q.Represents f) : q.Pop.1 = f.pop.1 ∧ q.Pop.2.Represents f.pop.2 := by
  have hbelow := h.below
  have henq := h.enqueue
  have hword : q.dequeue_pos_ + 1 < wordSize := by simp only [wordSize]; omega
  by_cases hheld : f.held = []
  · have hpop : q.Pop = (none, q) := by
      rw [Pop]
      by_cases hq : q.allocated = false
      · rw [if_pos hq]
      · have htwo := h.two_le (by simpa using hq)
        rw [hheld, List.length_nil] at henq
        have hfirst := h.free q.dequeue_pos_ (by omega) (by omega)
        rw [Nat.mod_eq_of_lt (by omega)] at hfirst
        have hne : difference (q.node q.dequeue_pos_).sequence (add q.dequeue_pos_ 1) ≠ 0 := by
          rw [add_of_lt hword, hfirst, ne_eq, difference_eq_zero_iff (by omega) hword]
          omega
        simp only [if_neg hq, if_pos hne]
    rw [BoundedFifo.pop_of_empty hheld, hpop]
    exact ⟨rfl, h⟩
  · obtain ⟨x, held, hcons⟩ : ∃ x held, f.held = x :: held := List.exists_cons_of_ne_nil hheld
    have hq : q.allocated = true := by
      by_contra hq
      have hfits := f.fits
      rw [h.null (by simpa using hq), hcons] at hfits
      simp at hfits
    have hfirst := h.taken 0 x (by rw [hcons]; rfl)
    rw [Nat.add_zero] at hfirst
    have hzero : difference (q.node q.dequeue_pos_).sequence (add q.dequeue_pos_ 1) = 0 := by
      rw [add_of_lt hword, hfirst]
      exact (difference_eq_zero_iff hword hword).mpr rfl
    have hpop : q.Pop = (some x, q.dropped) := by
      rw [Pop, if_neg (by simp [hq])]
      simp only [hzero, ne_eq, not_true_eq_false, if_false]
      rw [hfirst, add_of_lt hword]
      simp only [MPSCQueue.dropped, setNode, node] at hfirst ⊢
    rw [hpop, BoundedFifo.pop, hcons]
    exact ⟨rfl, h.dropped hheld⟩

/-! ## Batches -/

theorem Represents.pushBatch (h : q.Represents f) {items : List (T × List Bool)}
    (hweak : ∀ r ∈ items, false ∈ r.2) (hpos : q.enqueue_pos_ + min items.length f.free < 2 ^ 63) :
    ∃ q', q.PushBatch items = some ((f.pushBatch (items.map Prod.fst)).1, q') ∧
      q'.Represents (f.pushBatch (items.map Prod.fst)).2 := by
  induction items generalizing q f with
  | nil =>
    refine ⟨q, ?_, ?_⟩
    · simp [PushBatch, BoundedFifo.pushBatch]
    · simpa [BoundedFifo.pushBatch, BoundedFifo.append_nil] using h
  | cons r items ih =>
    obtain ⟨item, weak⟩ := r
    obtain ⟨q₁, hpush, h₁, henq⟩ := h.push item (hweak _ (List.mem_cons_self ..)) (by omega)
    simp only [BoundedFifo.pushBatch, List.map_cons, List.length_cons, List.length_map] at hpos ⊢
    rcases Nat.eq_zero_or_pos f.free with hfull | hroom
    · have hsame : f.push item = (false, f) := by
        rw [BoundedFifo.push, BoundedFifo.append_of_full hfull,
          decide_eq_false (mt f.free_pos_iff.mpr (by omega))]
      rw [hsame] at hpush h₁
      refine ⟨q₁, ?_, ?_⟩
      · rw [PushBatch, hpush, hfull]
        rfl
      · rw [BoundedFifo.append_of_full hfull]
        exact h₁
    · obtain ⟨happend, hfree⟩ := BoundedFifo.append_cons hroom item (items.map Prod.fst)
      have hyes : (f.push item).1 = true := decide_eq_true (f.free_pos_iff.mp hroom)
      rw [hyes] at hpush
      obtain ⟨q₂, hbatch, h₂⟩ := ih h₁ (fun r hr => hweak r (List.mem_cons_of_mem _ hr)) (by
        change q₁.enqueue_pos_ + min items.length (f.append [item]).free < 2 ^ 63
        omega)
      refine ⟨q₂, ?_, ?_⟩
      · rw [PushBatch, hpush]
        simp only [hbatch, Option.map_some, Option.some.injEq, Prod.mk.injEq, and_true]
        change min (items.map Prod.fst).length (f.append [item]).free + 1 = _
        rw [List.length_map]
        omega
      · rw [happend]
        exact h₂

theorem Represents.popBatch (h : q.Represents f) (count : Nat) :
    (q.PopBatch count).1 = (f.popBatch count).1 ∧
      (q.PopBatch count).2.Represents (f.popBatch count).2 := by
  induction count generalizing q f with
  | zero => exact ⟨rfl, h⟩
  | succ count ih =>
    obtain ⟨hitem, h₁⟩ := h.pop
    rw [PopBatch]
    cases hheld : f.held with
    | nil =>
      rw [BoundedFifo.pop_of_empty hheld] at hitem h₁
      rcases hq : q.Pop with ⟨item, q₁⟩
      rw [hq] at hitem h₁
      cases hitem
      refine ⟨?_, ?_⟩
      · simp [BoundedFifo.popBatch, hheld]
      · have hsame : f.drop (count + 1) = f := by
          cases f
          simp only at hheld
          subst hheld
          rfl
        simp only [BoundedFifo.popBatch]
        rw [hsame]
        exact h₁
    | cons x held =>
      rcases hq : q.Pop with ⟨item, q₁⟩
      rw [hq] at hitem h₁
      obtain rfl : item = some x := by
        change item = f.held.head? at hitem
        rw [hitem, hheld]
        rfl
      obtain ⟨hitems, h₂⟩ := ih h₁
      constructor
      · simp only [hitems, BoundedFifo.popBatch, BoundedFifo.pop, BoundedFifo.drop, hheld]
        rfl
      · simp only [BoundedFifo.popBatch]
        rw [← BoundedFifo.drop_succ]
        exact h₂

/-! ## Sessions -/

/-- Each call of a session is answered as the bounded queue answers it. -/
theorem Represents.call (h : q.Represents f) (c : Call T) (hrange : q.InRange c)
    (htwo : q.KeepsTwo c) : ∃ q', q.call c = some ((fifoCall f c).1, q') ∧
      q'.Represents (fifoCall f c).2 := by
  cases c with
  | Init capacity fresh =>
    simp only [MPSCQueue.call, fifoCall, MPSCQueue.Init]
    split_ifs with hc
    · exact ⟨_, rfl, represents_destroy q⟩
    · exact ⟨_, rfl, represents_fresh (Nat.not_lt.mp hc) hrange fresh⟩
  | Reserve new_capacity fresh =>
    have hsame : q.enqueue_pos_ ≠ q.dequeue_pos_ ↔ f.held ≠ [] := by
      rw [h.enqueue, ne_eq, ne_eq, ← List.length_eq_zero_iff]
      omega
    simp only [MPSCQueue.call, fifoCall, MPSCQueue.Reserve, h.capacity, hsame]
    split_ifs with hle hheld
    · exact ⟨_, rfl, h⟩
    · exact ⟨_, rfl, h⟩
    · refine ⟨_, rfl, represents_fresh ?_ hrange fresh⟩
      -- a ring of one slot would need `Reserve(1)` at capacity 0
      have hone : new_capacity = 1 → q.pool_capacity_ ≠ 0 := htwo
      have hcap := h.capacity
      omega
  | Destroy => exact ⟨_, rfl, represents_destroy q⟩
  | Push item weak =>
    obtain ⟨q', hpush, hq', -⟩ := h.push item hrange.1 hrange.2
    exact ⟨q', by simp [MPSCQueue.call, hpush, fifoCall], hq'⟩
  | Pop =>
    obtain ⟨hitem, hq'⟩ := h.pop
    exact ⟨_, by simp [MPSCQueue.call, fifoCall, hitem], hq'⟩
  | PushBatch items =>
    obtain ⟨hweak, hpos⟩ := hrange
    rw [h.size, h.capacity] at hpos
    obtain ⟨q', hpush, hq'⟩ := h.pushBatch hweak hpos
    exact ⟨q', by simp [MPSCQueue.call, hpush, fifoCall], hq'⟩
  | PopBatch count =>
    obtain ⟨hitems, hq'⟩ := h.popBatch count
    exact ⟨_, by simp [MPSCQueue.call, fifoCall, hitems], hq'⟩
  | Empty => exact ⟨q, by simp [MPSCQueue.call, fifoCall, h.empty_eq], h⟩
  | SizeApprox => exact ⟨q, by simp [MPSCQueue.call, fifoCall, h.size], h⟩

/-- Two sessions with the same answers. -/
def Agrees (s : MPSCQueue T × List (Answer T)) (t : BoundedFifo T × List (Answer T)) : Prop :=
  s.1.Represents t.1 ∧ s.2 = t.2

theorem Agrees.callStep {s : MPSCQueue T × List (Answer T)} {t : BoundedFifo T × List (Answer T)}
    (h : Agrees s t) (c : Call T) (hrange : s.1.InRange c) (htwo : s.1.KeepsTwo c) :
    ∃ s' t', MPSCQueue.callStep s c = some s' ∧ fifoStep t c = some t' ∧ Agrees s' t' := by
  obtain ⟨q', hcall, hq'⟩ := h.1.call c hrange htwo
  refine ⟨(q', s.2 ++ [(fifoCall t.1 c).1]), _, ?_, rfl, hq', ?_⟩
  · simp [MPSCQueue.callStep, hcall]
  · simp only [h.2]

/-- Two items, a batch that is cut off, and a `Reserve` of a queue that holds items. -/
def batchCalls : List (Call Nat) :=
  [.Push 4 [false], .Init 3 fun _ => 0, .Push 5 [true, false], .PushBatch [(6, [false]),
    (7, [false]), (8, [false])], .Push 9 [false], .Reserve 4 fun _ => 0, .Pop, .PopBatch 3, .Empty,
    .Reserve 4 fun _ => 0, .SizeApprox]

/-- `Reserve(1)` at capacity 0 makes a ring of one slot, and the second `Push` overwrites it. -/
def oneSlotCalls : List (Call Nat) :=
  [.Reserve 1 fun _ => 0, .Push 5 [false], .Push 6 [false], .Pop]

end MPSCQueue

end sci.bridges
