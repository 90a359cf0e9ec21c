-- `sci::bridges::LegacyThreadPool` (include/bridges/thread_pool_bridge.hpp,
-- src/bridges/thread_pool_bridge.cpp): the older pool, whose workers take a task under
-- `mtx_` and count it in `active_` after they have given the mutex up. Each access to an
-- atomic, each change of the queue and each operation on the mutex or on a condition
-- variable is one step. Tasks are numbered in the order in which they are pushed.
import Scicompute.Transition
import Scicompute.Monitor

open Monitor

namespace sci

namespace bridges

/-- The members of a pool; `workers_` lists its threads by their numbers. -/
structure LegacyThreadPool where
  workers_ : List Nat
  tasks_ : List Nat
  stop_ : Bool
  pause_ : Bool
  active_ : Nat
  queued_ : Nat
  completed_ : Nat

namespace LegacyThreadPool

/-- Where a worker stands in `WorkerLoop`. In `stop`, `empty` and `pause` it evaluates the
predicate of `cv_.wait`, and from `block` it goes to sleep. -/
inductive WorkerPc
  | lock
  | stop
  | empty
  | pause
  | block
  | asleep
  | test_return
  | return
  | pop
  | unlock (task : Option Nat)
  | add_active (task : Nat)
  | sub_queued (task : Nat)
  | run (task : Nat)
  | add_completed
  | sub_active
  | notify_all
  | exited
  deriving DecidableEq

/-- The public calls, and the destructor's `Shutdown`. -/
inductive Call
  | Enqueue
  | WaitAll
  | Pause
  | Resume
  | Resize (n : Nat)
  | Shutdown
  deriving DecidableEq

/-- Where a calling thread stands. -/
inductive CallerPc
  | idle
  | enqueue_lock
  | enqueue_push
  | enqueue_count (task : Nat)
  | enqueue_unlock (task : Nat)
  | enqueue_notify_one (task : Nat)
  | wait_lock
  | wait_empty
  | wait_active
  | wait_block
  | wait_asleep
  | wait_unlock
  | pause
  | resume
  | resume_notify_all
  | resize (n : Nat)
  | shutdown
  | shutdown_notify_all
  | join
  | clear
  deriving DecidableEq

/-- The pool and its threads. `threads` is the number of workers ever started, `accepted` that of
the tasks pushed; `enqueued` lists the tasks whose `Enqueue` has returned, and `finished` those whose
run has ended. `awaits` is what was enqueued when the caller made its call, and `waited` lists that
for each `WaitAll` that has returned. -/
structure System (κ : Type*) where
  pool : LegacyThreadPool
  threads : Nat
  mtx_ : Option (Nat ⊕ κ)
  worker : Nat → WorkerPc
  caller : κ → CallerPc
  accepted : Nat
  enqueued : List Nat
  finished : List Nat
  awaits : κ → List Nat
  waited : List (List Nat)

inductive Action (κ : Type*)
  | call (c : κ) (call : Call)
  /-- The next step of a worker. -/
  | worker (w : Nat)
  /-- The next step of a caller. Its `notify_one` wakes `woken`. -/
  | caller (c : κ) (woken : Option Nat)
  /-- A thread that waits wakes up without a notification. -/
  | spurious (t : Nat ⊕ κ)

namespace System

variable {κ : Type*}

/-- A pool of `n` workers. -/
def start (n : Nat) : System κ where
  pool :=
    { workers_ := List.range n, tasks_ := [], stop_ := false, pause_ := false, active_ := 0,
      queued_ := 0, completed_ := 0 }
  threads := n
  mtx_ := none
  worker _ := .lock
  caller _ := .idle
  accepted := 0
  enqueued := []
  finished := []
  awaits _ := []
  waited := []

def setWorker (s : System κ) (w : Nat) (pc : WorkerPc) : System κ :=
  { s with worker := Function.update s.worker w pc }

/-- `WorkerLoop`. -/
def workerStep (s : System κ) (w : Nat) : Option (System κ) :=
  match s.worker w with
  | .lock => if s.mtx_.isSome then none else some { s.setWorker w .stop with mtx_ := some (.inl w) }
  | .stop => if s.pool.stop_ then some (s.setWorker w .test_return) else some (s.setWorker w .empty)
  | .empty =>
    if s.pool.tasks_ = [] then some (s.setWorker w .pause) else some (s.setWorker w .test_return)
  | .pause => if s.pool.pause_ then some (s.setWorker w .test_return) else some (s.setWorker w .block)
  | .block => some { s.setWorker w .asleep with mtx_ := none }
  | .asleep => none
  | .test_return =>
    if s.pool.stop_ = true ∧ s.pool.tasks_ = [] then some (s.setWorker w .return)
    else some (s.setWorker w .pop)
  | .return => some { s.setWorker w .exited with mtx_ := none }
  | .pop =>
    match s.pool.tasks_ with
    | [] => some (s.setWorker w (.unlock none))
    | task :: tasks =>
      some { s.setWorker w (.unlock (some task)) with pool := { s.pool with tasks_ := tasks } }
  | .unlock none => some { s.setWorker w .lock with mtx_ := none }
  | .unlock (some task) => some { s.setWorker w (.add_active task) with mtx_ := none }
  | .add_active task =>
    some { s.setWorker w (.sub_queued task) with
      pool := { s.pool with active_ := s.pool.active_ + 1 } }
  | .sub_queued task =>
    some { s.setWorker w (.run task) with
      pool := { s.pool with queued_ := s.pool.queued_ - 1 } }
  -- an exception of the task goes to its future
  | .run task => some { s.setWorker w .add_completed with finished := task :: s.finished }
  | .add_completed =>
    some { s.setWorker w .sub_active with
      pool := { s.pool with completed_ := s.pool.completed_ + 1 } }
  | .sub_active =>
    some { s.setWorker w .notify_all with
      pool := { s.pool with active_ := s.pool.active_ - 1 } }
  | .notify_all =>
    some { s.setWorker w .lock with caller := wakeAll .wait_asleep .wait_lock s.caller }
  | .exited => none

variable [DecidableEq κ]

def setCaller (s : System κ) (c : κ) (pc : CallerPc) : System κ :=
  { s with caller := Function.update s.caller c pc }

/-- `cv_.notify_all()` -/
def wakeWorkers (s : System κ) : System κ := { s with worker := wakeAll .asleep .lock s.worker }

/-- `Enqueue` does not test `stop_`, and `Start` adds threads without the mutex. -/
def callerStep (s : System κ) (c : κ) (woken : Option Nat) : Option (System κ) :=
  match s.caller c with
  | .idle => none
  | .enqueue_lock =>
    if s.mtx_.isSome then none else some { s.setCaller c .enqueue_push with mtx_ := some (.inr c) }
  | .enqueue_push =>
    some { s.setCaller c (.enqueue_count s.accepted) with
      pool := { s.pool with tasks_ := s.pool.tasks_ ++ [s.accepted] }
      accepted := s.accepted + 1 }
  | .enqueue_count task =>
    some { s.setCaller c (.enqueue_unlock task) with
      pool := { s.pool with queued_ := s.pool.queued_ + 1 } }
  | .enqueue_unlock task => some { s.setCaller c (.enqueue_notify_one task) with mtx_ := none }
  | .enqueue_notify_one task =>
    match woken with
    | some w =>
      if w < s.threads ∧ s.worker w = .asleep then
        some { (s.setCaller c .idle).setWorker w .lock with enqueued := task :: s.enqueued }
      else none
    | none =>
      if ∀ w < s.threads, s.worker w ≠ .asleep then
        some { s.setCaller c .idle with enqueued := task :: s.enqueued }
      else none
  | .wait_lock =>
    if s.mtx_.isSome then none else some { s.setCaller c .wait_empty with mtx_ := some (.inr c) }
  | .wait_empty =>
    if s.pool.tasks_ = [] then some (s.setCaller c .wait_active)
    else some (s.setCaller c .wait_block)
  | .wait_active =>
    if s.pool.active_ = 0 then some (s.setCaller c .wait_unlock)
    else some (s.setCaller c .wait_block)
  | .wait_block => some { s.setCaller c .wait_asleep with mtx_ := none }
  | .wait_asleep => none
  | .wait_unlock => some { s.setCaller c .idle with mtx_ := none, waited := s.awaits c :: s.waited }
  | .pause => some { s.setCaller c .idle with pool := { s.pool with pause_ := true } }
  | .resume => some { s.setCaller c .resume_notify_all with pool := { s.pool with pause_ := false } }
  | .resume_notify_all => some (s.setCaller c .idle).wakeWorkers
  | .resize 0 => some (s.setCaller c .idle)
  | .resize (n + 1) =>
    some { s.setCaller c (.resize n) with
      pool := { s.pool with workers_ := s.pool.workers_ ++ [s.threads] }
      threads := s.threads + 1 }
  | .shutdown => some { s.setCaller c .shutdown_notify_all with pool := { s.pool with stop_ := true } }
  | .shutdown_notify_all => some (s.setCaller c .join).wakeWorkers
  | .join =>
    if ∀ w ∈ s.pool.workers_, s.worker w = .exited then some (s.setCaller c .clear) else none
  | .clear => some { s.setCaller c .idle with pool := { s.pool with workers_ := [] } }

/-- The first step of a call. -/
def enter : Call → CallerPc
  | .Enqueue => .enqueue_lock
  | .WaitAll => .wait_lock
  | .Pause => .pause
  | .Resume => .resume
  | .Resize n => .resize n
  | .Shutdown => .shutdown

def step (s : System κ) : Action κ → Option (System κ)
  | .call c call =>
    if s.caller c = .idle then
      some { s.setCaller c (enter call) with awaits := Function.update s.awaits c s.enqueued }
    else none
  | .worker w => if w < s.threads then s.workerStep w else none
  | .caller c woken => s.callerStep c woken
  | .spurious (.inl w) => if s.worker w = .asleep then some (s.setWorker w .lock) else none
  | .spurious (.inr c) =>
    if s.caller c = .wait_asleep then some (s.setCaller c .wait_lock) else none

/-! ## What `WaitAll` promises -/

/-- The tasks that were enqueued before a `WaitAll` have been run when it has returned. -/
def WaitsForAll (s : System κ) : Prop := ∀ tasks ∈ s.waited, ∀ task ∈ tasks, task ∈ s.finished

/-- The condition on a step: when `WaitAll` reads `active_` as 0, no worker has taken one of its
tasks that it has not yet counted in `active_`. -/
def Counted (s : System κ) : Action κ → Prop
  | .caller c _ => s.caller c = .wait_active → s.pool.active_ = 0 →
      ∀ w < s.threads, ∀ task ∈ s.awaits c, s.worker w ≠ .add_active task
  | _ => True

instance (s : System κ) : ∀ a, Decidable (Counted s a)
  | .caller c _ => inferInstanceAs (Decidable (s.caller c = .wait_active → s.pool.active_ = 0 →
      ∀ w < s.threads, ∀ task ∈ s.awaits c, s.worker w ≠ .add_active task))
  | .call _ _ => isTrue trivial
  | .worker _ => isTrue trivial
  | .spurious _ => isTrue trivial

end System

end LegacyThreadPool

end bridges

end sci
