-- The bounded queue of many producers and one consumer
-- (include/bridges/impl/ipc_queue_impl.hpp): a ring of slots, each with a
-- sequence number. `Push` claims a ticket by a compare-exchange of
-- `enqueue_pos_`, writes the slot and publishes it. `Pop` takes the slots in
-- ticket order. Each atomic access and each copy of a value is one step.
import Scicompute.Transition
import Scicompute.Word
import Scicompute.RingBuffer

open Word

namespace sci.bridges

/-! ## The queue -/

structure Node (T : Type*) where
  sequence : Nat
  data : T

/-- The fields of `MPSCQueue`. `pool_` is a pointer: `allocated` says that it is not null,
and `pool_` gives the slots that it points to. -/
structure MPSCQueue (T : Type*) where
  allocated : Bool
  pool_ : Nat → Node T
  pool_capacity_ : Nat
  enqueue_pos_ : Nat
  dequeue_pos_ : Nat

variable {ι T : Type*}

namespace MPSCQueue

def Destroy (q : MPSCQueue T) : MPSCQueue T :=
  { q with allocated := false, pool_capacity_ := 0, enqueue_pos_ := 0, dequeue_pos_ := 0 }

/-- `fresh` is what `new Node[capacity]` leaves in the data of the slots. -/
def Init (q : MPSCQueue T) (capacity : Nat) (fresh : Nat → T) : Bool × MPSCQueue T :=
  if capacity < 2 then (false, q.Destroy)
  else (true,
    { allocated := true
      pool_ := fun i => { sequence := i, data := fresh i }
      pool_capacity_ := capacity
      enqueue_pos_ := 0
      dequeue_pos_ := 0 })

/-- `pool_[pos % pool_capacity_]` -/
def node (q : MPSCQueue T) (pos : Nat) : Node T := q.pool_ (pos % q.pool_capacity_)

def setNode (q : MPSCQueue T) (pos : Nat) (n : Node T) : MPSCQueue T :=
  { q with pool_ := Function.update q.pool_ (pos % q.pool_capacity_) n }

@[simp] theorem setNode_pool_capacity_ (q : MPSCQueue T) (pos : Nat) (n : Node T) :
    (q.setNode pos n).pool_capacity_ = q.pool_capacity_ := rfl

theorem node_setNode_of_eq (q : MPSCQueue T) {pos t : Nat} (n : Node T)
    (h : t % q.pool_capacity_ = pos % q.pool_capacity_) : (q.setNode pos n).node t = n := by
  simp [node, setNode, h]

theorem node_setNode_of_ne (q : MPSCQueue T) {pos t : Nat} (n : Node T)
    (h : t % q.pool_capacity_ ≠ pos % q.pool_capacity_) :
    (q.setNode pos n).node t = q.node t := by
  simp [node, setNode, h]

end MPSCQueue

/-! ## The threads -/

/-- Where a producer stands in `Push(item)`: the step that it takes next. -/
inductive PushPc (T : Type*)
  | idle
  | load_pos (item : T)
  | load_sequence (item : T) (pos : Nat)
  | compare_exchange (item : T) (pos : Nat)
  | copy (item : T) (pos : Nat)
  | publish (item : T) (pos : Nat)

/-- Where the consumer stands in `Pop`. -/
inductive PopPc (T : Type*)
  | idle
  | load_pos
  | load_sequence (pos : Nat)
  | copy (pos : Nat)
  | store_pos (item : T) (pos : Nat)
  | release (item : T) (pos : Nat)

/-- A `Push` that won its compare-exchange: the position it claimed, the thread, the value. -/
structure Ticket (ι T : Type*) where
  pos : Nat
  producer : ι
  item : T

/-- The queue, its threads, and three records that no thread reads: the tickets in the order
in which they were won, the values that each producer pushed, and the values that were popped. -/
structure MPSCSystem (ι T : Type*) where
  queue : MPSCQueue T
  producer : ι → PushPc T
  consumer : PopPc T
  won : List (Ticket ι T)
  pushed : ι → List T
  popped : List T

inductive MPSCAction (ι T : Type*)
  /-- The producer calls `Push(item)`. -/
  | push (p : ι) (item : T)
  /-- The next step of its call. A `weak` compare-exchange fails though the values agree. -/
  | producer (p : ι) (weak : Bool)
  /-- The consumer calls `Pop`. -/
  | pop
  /-- The next step of its call. -/
  | consumer

namespace MPSCSystem

def start (q : MPSCQueue T) : MPSCSystem ι T :=
  { queue := q, producer := fun _ => .idle, consumer := .idle, won := [], pushed := fun _ => [],
    popped := [] }

variable [DecidableEq ι]

def setProducer (s : MPSCSystem ι T) (p : ι) (pc : PushPc T) : MPSCSystem ι T :=
  { s with producer := Function.update s.producer p pc }

section
variable (s : MPSCSystem ι T) (p : ι) (pc : PushPc T)

@[simp] theorem setProducer_won : (s.setProducer p pc).won = s.won := rfl

@[simp] theorem setProducer_pushed : (s.setProducer p pc).pushed = s.pushed := rfl

@[simp] theorem setProducer_popped : (s.setProducer p pc).popped = s.popped := rfl

@[simp] theorem setProducer_self : (s.setProducer p pc).producer p = pc := by
  simp [setProducer]

theorem setProducer_of_ne {p' : ι} (h : p' ≠ p) :
    (s.setProducer p pc).producer p' = s.producer p' := by
  simp [setProducer, h]

end

/-- The next step of a `Push`. -/
def Push (s : MPSCSystem ι T) (p : ι) (weak : Bool) : Option (MPSCSystem ι T) :=
  match s.producer p with
  | .idle => none
  | .load_pos item =>
    if s.queue.allocated then some (s.setProducer p (.load_sequence item s.queue.enqueue_pos_))
    else some (s.setProducer p .idle)
  | .load_sequence item pos =>
    let diff := difference (s.queue.node pos).sequence pos
    if diff = 0 then some (s.setProducer p (.compare_exchange item pos))
    else if diff < 0 then some (s.setProducer p .idle)
    else some (s.setProducer p (.load_pos item))
  | .compare_exchange item pos =>
    if s.queue.enqueue_pos_ = pos ∧ weak = false then
      some { s.setProducer p (.copy item pos) with
        queue := { s.queue with enqueue_pos_ := add pos 1 }
        won := s.won ++ [⟨pos, p, item⟩] }
    else some (s.setProducer p (.load_sequence item s.queue.enqueue_pos_))
  | .copy item pos =>
    some { s.setProducer p (.publish item pos) with
      queue := s.queue.setNode pos { s.queue.node pos with data := item } }
  | .publish item pos =>
    some { s.setProducer p .idle with
      queue := s.queue.setNode pos { s.queue.node pos with sequence := add pos 1 }
      pushed := Function.update s.pushed p (s.pushed p ++ [item]) }

/-- The next step of a `Pop`. -/
def Pop (s : MPSCSystem ι T) : Option (MPSCSystem ι T) :=
  match s.consumer with
  | .idle => none
  | .load_pos =>
    if s.queue.allocated then some { s with consumer := .load_sequence s.queue.dequeue_pos_ }
    else some { s with consumer := .idle }
  | .load_sequence pos =>
    if difference (s.queue.node pos).sequence (add pos 1) ≠ 0 then
      some { s with consumer := .idle }
    else some { s with consumer := .copy pos }
  | .copy pos => some { s with consumer := .store_pos (s.queue.node pos).data pos }
  | .store_pos item pos =>
    some { s with
      consumer := .release item pos
      queue := { s.queue with dequeue_pos_ := add pos 1 } }
  | .release item pos =>
    some { s with
      consumer := .idle
      queue := s.queue.setNode pos
        { s.queue.node pos with sequence := add pos s.queue.pool_capacity_ }
      popped := s.popped ++ [item] }

def step (s : MPSCSystem ι T) : MPSCAction ι T → Option (MPSCSystem ι T)
  | .push p item =>
    match s.producer p with
    | .idle => some (s.setProducer p (.load_pos item))
    | _ => none
  | .producer p weak => s.Push p weak
  | .pop =>
    match s.consumer with
    | .idle => some { s with consumer := .load_pos }
    | _ => none
  | .consumer => s.Pop

/-! ## Races on the data of a slot -/

/-- The next step of the producer writes the data of slot `i`. -/
def Writes (s : MPSCSystem ι T) (p : ι) (i : Nat) : Prop :=
  ∃ item pos, s.producer p = .copy item pos ∧ pos % s.queue.pool_capacity_ = i

/-- The next step of the consumer reads the data of slot `i`. -/
def Reads (s : MPSCSystem ι T) (i : Nat) : Prop :=
  ∃ pos, s.consumer = .copy pos ∧ pos % s.queue.pool_capacity_ = i

/-- Two accesses to the data of one slot, one of them a write, are never both at hand. -/
def RaceFree (s : MPSCSystem ι T) : Prop :=
  ∀ p i, s.Writes p i → ¬ s.Reads i ∧ ∀ p', s.Writes p' i → p' = p

end MPSCSystem

end sci.bridges
