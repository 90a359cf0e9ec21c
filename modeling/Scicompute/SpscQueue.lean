-- The queue of one producer and one consumer (include/bridges/impl/ipc_queue_impl.hpp,
-- 20-128): a ring of slots between `read_idx_` and `write_idx_`, one of which stays free.
-- Each load or store of an index and each access to the buffer is one step.
import Scicompute.Transition
import Scicompute.Word
import Scicompute.RingBuffer

open Word

namespace sci.bridges

/-! ## The queue -/

/-- The fields of `SPSCQueue`. `buffer_` is a pointer: `allocated` says that it is not null. -/
structure SPSCQueue (T : Type*) where
  allocated : Bool
  buffer_ : Nat → T
  capacity_ : Nat
  read_idx_ : Nat
  write_idx_ : Nat

variable {T : Type*}

namespace SPSCQueue

/-- A default-constructed queue. -/
def empty [Inhabited T] : SPSCQueue T := ⟨false, fun _ => default, 0, 0, 0⟩

def Destroy (q : SPSCQueue T) : SPSCQueue T := { q with allocated := false, capacity_ := 0 }

/-- `fresh` is what `new T[capacity]` leaves in the slots. -/
def Init (q : SPSCQueue T) (capacity : Nat) (fresh : Nat → T) : Bool × SPSCQueue T :=
  if capacity = 0 then (false, q.Destroy)
  else (true,
    { allocated := true, buffer_ := fresh, capacity_ := capacity, read_idx_ := 0, write_idx_ := 0 })

/-- `(idx + 1) % capacity_` -/
def next (q : SPSCQueue T) (idx : Nat) : Nat := add idx 1 % q.capacity_

end SPSCQueue

/-! ## The two threads -/

/-- Where the producer stands in `Push(item)`, or what its last call has returned. -/
inductive SPSCPushPc (T : Type*)
  | idle
  | load_write (item : T)
  | load_read (item : T) (write : Nat)
  | copy (item : T) (write next : Nat)
  | store_write (item : T) (next : Nat)
  | returned (ok : Bool)

/-- Where the consumer stands in `Pop`, or what its last call has returned. -/
inductive SPSCPopPc (T : Type*)
  | idle
  | load_read
  | load_write (read : Nat)
  | copy (read : Nat)
  | store_read (item : T) (read : Nat)
  | returned (item : Option T)

/-- The queue, its threads, and three records that no thread reads: the values that `Push` has
accepted and that `Pop` has returned, and the slots that were written and not popped since. -/
structure SPSCSystem (T : Type*) where
  queue : SPSCQueue T
  producer : SPSCPushPc T
  consumer : SPSCPopPc T
  pushed : List T
  popped : List T
  unpopped : Finset Nat

inductive SPSCAction (T : Type*)
  /-- The producer calls `Push(item)`. -/
  | push (item : T)
  /-- The next step of its call. -/
  | producer
  /-- The consumer calls `Pop`. -/
  | pop
  /-- The next step of its call. -/
  | consumer

namespace SPSCSystem

def start (q : SPSCQueue T) : SPSCSystem T :=
  { queue := q, producer := .idle, consumer := .idle, pushed := [], popped := [], unpopped := ∅ }

/-- The next step of a `Push`. -/
def Push (s : SPSCSystem T) : Option (SPSCSystem T) :=
  match s.producer with
  | .idle => none
  | .load_write item => some { s with producer := .load_read item s.queue.write_idx_ }
  | .load_read item write =>
    if s.queue.next write = s.queue.read_idx_ then some { s with producer := .returned false }
    else some { s with producer := .copy item write (s.queue.next write) }
  | .copy item write next =>
    some { s with
      producer := .store_write item next
      queue := { s.queue with buffer_ := Function.update s.queue.buffer_ write item }
      unpopped := insert write s.unpopped }
  | .store_write item next =>
    some { s with
      producer := .returned true
      queue := { s.queue with write_idx_ := next }
      pushed := s.pushed ++ [item] }
  | .returned _ => none

/-- The next step of a `Pop`. -/
def Pop (s : SPSCSystem T) : Option (SPSCSystem T) :=
  match s.consumer with
  | .idle => none
  | .load_read => some { s with consumer := .load_write s.queue.read_idx_ }
  | .load_write read =>
    if read = s.queue.write_idx_ then some { s with consumer := .returned none }
    else some { s with consumer := .copy read }
  | .copy read => some { s with consumer := .store_read (s.queue.buffer_ read) read }
  | .store_read item read =>
    some { s with
      consumer := .returned (some item)
      queue := { s.queue with read_idx_ := s.queue.next read }
      popped := s.popped ++ [item]
      unpopped := s.unpopped.erase read }
  | .returned _ => none

def step (s : SPSCSystem T) : SPSCAction T → Option (SPSCSystem T)
  | .push item =>
    match s.producer with
    | .idle | .returned _ => some { s with producer := .load_write item }
    | _ => none
  | .producer => s.Push
  | .pop =>
    match s.consumer with
    | .idle | .returned _ => some { s with consumer := .load_read }
    | _ => none
  | .consumer => s.Pop

/-! ## Accesses to the buffer -/

/-- The next step of the producer writes slot `i`. -/
def Writes (s : SPSCSystem T) (i : Nat) : Prop := ∃ item next, s.producer = .copy item i next

/-- The next step of the consumer reads slot `i`. -/
def Reads (s : SPSCSystem T) (i : Nat) : Prop := s.consumer = .copy i

end SPSCSystem

end sci.bridges
