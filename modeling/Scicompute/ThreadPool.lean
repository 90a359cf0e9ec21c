-- `sci::ThreadPool` (include/scheduler/thread_pool.hpp, src/scheduler/thread_pool.cpp):
-- workers that take tasks from a queue under `mtx_`, and threads that call the pool. Each
-- access to an atomic, each change of the queue and each operation on the mutex or on a
-- condition variable is one step. Tasks are numbered in the order of their acceptance.
import Scicompute.Transition
import Scicompute.Monitor

open Monitor

namespace sci

/-- The members of a pool; `workers_` is the number of its threads. -/
structure ThreadPool where
  workers_ : Nat
  tasks_ : List Nat
  stop_ : Bool
  pause_ : Bool
  active_ : Nat
  queued_ : Nat
  completed_ : Nat

/-- Where a worker stands in `worker_loop`. In `stop`, `pause` and `empty` it evaluates the
predicate of `cv_.wait`, and from `block` it goes to sleep. -/
inductive WorkerPc
  | lock
  | stop
  | pause
  | empty
  | block
  | asleep
  | test_return
  | return
  | test_continue
  | continue
  | pop
  | sub_queued (task : Nat)
  | add_active (task : Nat)
  | unlock (task : Nat)
  | run (task : Nat)
  | sub_active
  | add_completed
  | notify_all
  | exited
  deriving DecidableEq

/-- The public calls, and the destructor's `shutdown`. -/
inductive Call
  | enqueue
  | wait_all
  | pause
  | resume
  | resize (n : Nat)
  | shutdown

/-- Where a calling thread stands. -/
inductive CallerPc
  | idle
  | enqueue_lock
  | enqueue_stop
  | enqueue_throw
  | enqueue_push
  | enqueue_count
  | enqueue_unlock
  | enqueue_notify_one
  | wait_lock
  | wait_empty
  | wait_active
  | wait_block
  | wait_asleep
  | wait_unlock
  | pause
  | resume
  | resume_notify_all
  | resize_lock (n : Nat)
  | resize (n : Nat)
  | shutdown
  | shutdown_notify_all
  | join
  | joined
  deriving DecidableEq

/-- The pool and its threads: `accepted` is the number of tasks that `enqueue` has accepted, and
`finished` lists the tasks whose run has ended. -/
structure ThreadPoolSystem (κ : Type*) where
  pool : ThreadPool
  mtx_ : Option (Nat ⊕ κ)
  worker : Nat → WorkerPc
  caller : κ → CallerPc
  accepted : Nat
  finished : List Nat

inductive ThreadPoolAction (κ : Type*)
  | call (c : κ) (call : Call)
  /-- The next step of a worker. -/
  | worker (w : Nat)
  /-- The next step of a caller. Its `notify_one` wakes `woken`. -/
  | caller (c : κ) (woken : Option Nat)
  /-- A thread that waits wakes up without a notification. -/
  | spurious (t : Nat ⊕ κ)

variable {κ : Type*}

namespace ThreadPoolSystem

/-- A pool of `n` workers. -/
def start (n : Nat) : ThreadPoolSystem κ where
  pool :=
    { workers_ := n, tasks_ := [], stop_ := false, pause_ := false, active_ := 0, queued_ := 0,
      completed_ := 0 }
  mtx_ := none
  worker _ := .lock
  caller _ := .idle
  accepted := 0
  finished := []

def setWorker (s : ThreadPoolSystem κ) (w : Nat) (pc : WorkerPc) : ThreadPoolSystem κ :=
  { s with worker := Function.update s.worker w pc }

/-- `worker_loop`. -/
def workerStep (s : ThreadPoolSystem κ) (w : Nat) : Option (ThreadPoolSystem κ) :=
  match s.worker w with
  | .lock => if s.mtx_.isSome then none else some { s.setWorker w .stop with mtx_ := some (.inl w) }
  | .stop => if s.pool.stop_ then some (s.setWorker w .test_return) else some (s.setWorker w .pause)
  | .pause => if s.pool.pause_ then some (s.setWorker w .block) else some (s.setWorker w .empty)
  | .empty =>
    if s.pool.tasks_ = [] then some (s.setWorker w .block) else some (s.setWorker w .test_return)
  | .block => some { s.setWorker w .asleep with mtx_ := none }
  | .asleep => none
  | .test_return =>
    if s.pool.stop_ = true ∧ s.pool.tasks_ = [] then some (s.setWorker w .return)
    else some (s.setWorker w .test_continue)
  | .return => some { s.setWorker w .exited with mtx_ := none }
  | .test_continue =>
    if s.pool.pause_ = true ∧ s.pool.tasks_ = [] then some (s.setWorker w .continue)
    else some (s.setWorker w .pop)
  | .continue => some { s.setWorker w .lock with mtx_ := none }
  | .pop =>
    match s.pool.tasks_ with
    | [] => none
    | task :: tasks =>
      some { s.setWorker w (.sub_queued task) with pool := { s.pool with tasks_ := tasks } }
  | .sub_queued task =>
    some { s.setWorker w (.add_active task) with
      pool := { s.pool with queued_ := s.pool.queued_ - 1 } }
  | .add_active task =>
    some { s.setWorker w (.unlock task) with
      pool := { s.pool with active_ := s.pool.active_ + 1 } }
  | .unlock task => some { s.setWorker w (.run task) with mtx_ := none }
  -- an exception of the task is caught
  | .run task => some { s.setWorker w .sub_active with finished := task :: s.finished }
  | .sub_active =>
    some { s.setWorker w .add_completed with
      pool := { s.pool with active_ := s.pool.active_ - 1 } }
  | .add_completed =>
    some { s.setWorker w .notify_all with
      pool := { s.pool with completed_ := s.pool.completed_ + 1 } }
  | .notify_all =>
    some { s.setWorker w .lock with caller := wakeAll .wait_asleep .wait_lock s.caller }
  | .exited => none

variable [DecidableEq κ]

def setCaller (s : ThreadPoolSystem κ) (c : κ) (pc : CallerPc) : ThreadPoolSystem κ :=
  { s with caller := Function.update s.caller c pc }

/-- `cv_.notify_all()` -/
def wakeWorkers (s : ThreadPoolSystem κ) : ThreadPoolSystem κ :=
  { s with worker := wakeAll .asleep .lock s.worker }

def callerStep (s : ThreadPoolSystem κ) (c : κ) (woken : Option Nat) :
    Option (ThreadPoolSystem κ) :=
  match s.caller c with
  | .idle => none
  | .enqueue_lock =>
    if s.mtx_.isSome then none else some { s.setCaller c .enqueue_stop with mtx_ := some (.inr c) }
  | .enqueue_stop =>
    if s.pool.stop_ then some (s.setCaller c .enqueue_throw)
    else some (s.setCaller c .enqueue_push)
  | .enqueue_throw => some { s.setCaller c .idle with mtx_ := none }
  | .enqueue_push =>
    some { s.setCaller c .enqueue_count with
      pool := { s.pool with tasks_ := s.pool.tasks_ ++ [s.accepted] }
      accepted := s.accepted + 1 }
  | .enqueue_count =>
    some { s.setCaller c .enqueue_unlock with
      pool := { s.pool with queued_ := s.pool.queued_ + 1 } }
  | .enqueue_unlock => some { s.setCaller c .enqueue_notify_one with mtx_ := none }
  | .enqueue_notify_one =>
    match woken with
    | some w =>
      if w < s.pool.workers_ ∧ s.worker w = .asleep then
        some ((s.setCaller c .idle).setWorker w .lock)
      else none
    | none =>
      if ∀ w < s.pool.workers_, s.worker w ≠ .asleep then some (s.setCaller c .idle) else none
  | .wait_lock =>
    if s.mtx_.isSome then none else some { s.setCaller c .wait_empty with mtx_ := some (.inr c) }
  | .wait_empty =>
    if s.pool.tasks_ = [] then some (s.setCaller c .wait_active)
    else some (s.setCaller c .wait_block)
  | .wait_active =>
    if s.pool.active_ = 0 then some (s.setCaller c .wait_unlock)
    else some (s.setCaller c .wait_block)
  | .wait_block => some { s.setCaller c .wait_asleep with mtx_ := none }
  | .wait_asleep => none
  | .wait_unlock => some { s.setCaller c .idle with mtx_ := none }
  | .pause => some { s.setCaller c .idle with pool := { s.pool with pause_ := true } }
  | .resume => some { s.setCaller c .resume_notify_all with pool := { s.pool with pause_ := false } }
  | .resume_notify_all => some (s.setCaller c .idle).wakeWorkers
  | .resize_lock n =>
    if s.mtx_.isSome then none else some { s.setCaller c (.resize n) with mtx_ := some (.inr c) }
  | .resize n =>
    if n ≤ s.pool.workers_ then some { s.setCaller c .idle with mtx_ := none }
    else some { s with pool := { s.pool with workers_ := s.pool.workers_ + 1 } }
  | .shutdown => some { s.setCaller c .shutdown_notify_all with pool := { s.pool with stop_ := true } }
  | .shutdown_notify_all => some (s.setCaller c .join).wakeWorkers
  | .join =>
    if ∀ w < s.pool.workers_, s.worker w = .exited then some (s.setCaller c .joined) else none
  | .joined => none

/-- The first step of a call. -/
def enter : Call → CallerPc
  | .enqueue => .enqueue_lock
  | .wait_all => .wait_lock
  | .pause => .pause
  | .resume => .resume
  | .resize n => .resize_lock n
  | .shutdown => .shutdown

def step (s : ThreadPoolSystem κ) : ThreadPoolAction κ → Option (ThreadPoolSystem κ)
  | .call c call => if s.caller c = .idle then some (s.setCaller c (enter call)) else none
  | .worker w => if w < s.pool.workers_ then s.workerStep w else none
  | .caller c woken => s.callerStep c woken
  | .spurious (.inl w) => if s.worker w = .asleep then some (s.setWorker w .lock) else none
  | .spurious (.inr c) =>
    if s.caller c = .wait_asleep then some (s.setCaller c .wait_lock) else none

/-! ## What the pool promises -/

/-- The task that a worker has taken and not yet run to its end. -/
def inFlight : WorkerPc → Option Nat
  | .sub_queued task => some task
  | .add_active task => some task
  | .unlock task => some task
  | .run task => some task
  | _ => none

/-- The worker has taken a task, and will still notify `done_cv_`. -/
def busy : WorkerPc → Bool
  | .sub_queued _ => true
  | .add_active _ => true
  | .unlock _ => true
  | .run _ => true
  | .sub_active => true
  | .add_completed => true
  | .notify_all => true
  | _ => false

/-- The caller will still notify `cv_`. -/
def notifies : CallerPc → Bool
  | .enqueue_count => true
  | .enqueue_unlock => true
  | .enqueue_notify_one => true
  | .resume_notify_all => true
  | .shutdown_notify_all => true
  | _ => false

/-- A caller of `wait_all` sleeps though the pool has nothing to do and nothing to notify. -/
def WaiterLost (s : ThreadPoolSystem κ) : Prop :=
  (∃ c, s.caller c = .wait_asleep) ∧ s.pool.tasks_ = [] ∧ s.pool.active_ = 0 ∧
    ∀ w < s.pool.workers_, busy (s.worker w) = false

/-- `shutdown` has issued its notification. -/
def shutDown : CallerPc → Bool
  | .join => true
  | .joined => true
  | _ => false

/-- A worker sleeps though `shutdown` has notified. -/
def JoinLost (s : ThreadPoolSystem κ) : Prop :=
  (∃ c, shutDown (s.caller c) = true) ∧ ∃ w < s.pool.workers_, s.worker w = .asleep

/-- Every worker sleeps though there are tasks, the pool is not paused, and no one will notify. -/
def TasksLost (s : ThreadPoolSystem κ) : Prop :=
  s.pool.pause_ = false ∧ s.pool.tasks_ ≠ [] ∧ (∀ w < s.pool.workers_, s.worker w = .asleep) ∧
    ∀ c, notifies (s.caller c) = false

end ThreadPoolSystem

end sci
