-- `sci::GraphExecutor` (src/scheduler/task_graph.cpp) running graphs of
-- `sci::FunctionalTask` (src/scheduler/task.cpp). One thread calls `execute` and at
-- last the destructor, the workers of the pool run the jobs that it enqueues, and any
-- thread may call `cancel`. Each atomic access is one step, and so is each change of the
-- two sets under `mtx_`. The pool is a queue of jobs and what each worker is running.
import Scicompute.Transition
import Scicompute.TaskGraph

namespace sci

open sci.Task (Id)

/-! ## Tasks -/

/-- What a call of `func_` does. -/
inductive Outcome
  | returns (status : Task.Status)
  | throws_exception
  | throws_other

/-- The status that `FunctionalTask::execute` stores. What is not a `std::exception` leaves it. -/
def FunctionalTask.execute : Outcome → Option Task.Status
  | .returns .kCompleted => some .kCompleted
  | .returns _ => some .kFailed
  | .throws_exception => some .kFailed
  | .throws_other => none

/-! ## The executor -/

structure GraphExecutor where
  thread_pool_ : Bool
  running_tasks_ : Finset Id
  completed_tasks_ : Finset Id
  running_ : Nat
  completed_ : Nat
  cancelled_ : Bool
  mtx_ : Bool

/-- The executor, the `status_` of every task, and a record of the call: the statuses at its
start, and the tasks whose run was started, whose run ended, that `completed_` counts, and
whose job ended without `mark_completed`. -/
structure Memory extends GraphExecutor where
  status : Id → Task.Status
  initial : Id → Task.Status
  started : List Id
  ended : List Id
  counted : List Id
  lost : List Id

/-- Where a thread stands in a job: in `task->execute()`, in the locked `mark_completed`, or
at `cv_.notify_all()`. -/
inductive JobPc
  | execute
  | run
  | set_status (status : Task.Status)
  | lock
  | mark
  | sub_running
  | add_completed
  | unlock
  | notify
  deriving DecidableEq

/-- One step of the job of a task; `none` when the job ends. -/
def runJob (m : Memory) (id : Id) (o : Outcome) : JobPc → Option (Memory × Option JobPc)
  | .execute => some ({ m with started := id :: m.started }, some .run)
  | .run =>
    match FunctionalTask.execute o with
    | some status => some (m, some (.set_status status))
    | none => some ({ m with ended := id :: m.ended, lost := id :: m.lost }, none)
  | .set_status status =>
    some ({ m with status := Function.update m.status id status, ended := id :: m.ended },
      some .lock)
  | .lock => if m.mtx_ then none else some ({ m with mtx_ := true }, some .mark)
  | .mark =>
    some ({ m with
      running_tasks_ := m.running_tasks_.erase id
      completed_tasks_ := insert id m.completed_tasks_ }, some .sub_running)
  | .sub_running => some ({ m with running_ := m.running_ - 1 }, some .add_completed)
  | .add_completed =>
    some ({ m with completed_ := m.completed_ + 1, counted := id :: m.counted }, some .unlock)
  | .unlock => some ({ m with mtx_ := false }, some .notify)
  | .notify => some (m, none)

/-! ## Calls -/

inductive Result
  | Ok
  | Error (message : String)
  | InvalidArgument (message : String)
  /-- An exception of a task that the caller ran itself. -/
  | exception
  deriving DecidableEq

/-- Where the calling thread stands in `execute`, in `process_ready_tasks`, in
`get_ready_tasks`, or in the destructor. -/
inductive MainPc
  | idle
  | store_cancelled
  | store_completed
  | clear
  | is_valid
  | all_complete
  | load_cancelled
  | get_ready_tasks (todo ready : List Id)
  | load_dependency (id : Id) (deps todo ready : List Id)
  | process (ready : List Id)
  | lock (id : Id) (ready : List Id)
  | add_running (id : Id) (ready : List Id)
  | dispatch (id : Id) (ready : List Id)
  | inline (id : Id) (pc : JobPc) (ready : List Id)
  | sleep
  | load_result
  | returned (result : Result)
  | cancel
  | join
  | destroyed
  deriving DecidableEq

/-- `worker_thread_` says that the loop of the executor's own thread is still running. -/
structure ExecutorSystem (ι : Type*) where
  memory : Memory
  worker_thread_ : Bool
  graph : { g : TaskGraph // g.Built }
  order : List Id
  main : MainPc
  queue : List Id
  worker : ι → Option (Id × JobPc)

inductive ExecutorAction (ι : Type*)
  /-- The caller enters `execute`. The argument `order` is the order of `tasks_`. -/
  | call (graph : { g : TaskGraph // g.Built }) (order : List Id)
  /-- The caller enters the destructor. -/
  | destroy
  /-- The next step of the caller. -/
  | main (o : Outcome)
  /-- A worker takes the first job of the queue. -/
  | take (w : ι)
  /-- The next step of the job of a worker. -/
  | work (w : ι) (o : Outcome)
  /-- Another thread calls `cancel`. -/
  | cancel
  /-- The loop of `worker_thread_` sees `cancelled_`. -/
  | worker_loop

variable {ι : Type*}

namespace ExecutorSystem

/-- `get_ready_tasks` and `process_ready_tasks` by the caller. -/
def processStep (s : ExecutorSystem ι) (o : Outcome) : MainPc → Option (ExecutorSystem ι)
  | .get_ready_tasks [] ready => some { s with main := .process ready }
  | .get_ready_tasks (id :: todo) ready =>
    if s.memory.status id ≠ .kPending then some { s with main := .get_ready_tasks todo ready }
    else some { s with
      main := .load_dependency id (s.graph.1.get_dependencies id) todo ready }
  | .load_dependency id [] todo ready =>
    some { s with main := .get_ready_tasks todo (ready ++ [id]) }
  | .load_dependency id (dep :: deps) todo ready =>
    if s.graph.1.has_task dep = false ∨ s.memory.status dep ≠ .kCompleted then
      some { s with main := .get_ready_tasks todo ready }
    else some { s with main := .load_dependency id deps todo ready }
  | .process [] => some { s with main := .sleep }
  | .process (id :: ready) =>
    if s.memory.cancelled_ then some { s with main := .sleep }
    else if s.graph.1.has_task id then some { s with main := .lock id ready }
    else some { s with main := .process ready }
  | .lock id ready =>
    if s.memory.mtx_ then none
    else if id ∈ s.memory.running_tasks_ ∨ id ∈ s.memory.completed_tasks_ then
      some { s with main := .process ready }
    else some { s with
      main := .add_running id ready
      memory := { s.memory with running_tasks_ := insert id s.memory.running_tasks_ } }
  | .add_running id ready =>
    some { s with
      main := .dispatch id ready
      memory := { s.memory with running_ := s.memory.running_ + 1 } }
  | .dispatch id ready =>
    if s.memory.thread_pool_ then
      some { s with main := .process ready, queue := s.queue ++ [id] }
    else some { s with main := .inline id .execute ready }
  | .inline id pc ready =>
    match runJob s.memory id o pc with
    | none => none
    | some (m, none) => some { s with main := .returned .exception, memory := m }
    -- no one is notified
    | some (m, some .notify) => some { s with main := .process ready, memory := m }
    | some (m, some pc) => some { s with main := .inline id pc ready, memory := m }
  | _ => none

/-- The next step of the caller. -/
def mainStep (s : ExecutorSystem ι) (o : Outcome) : Option (ExecutorSystem ι) :=
  match s.main with
  | .idle => none
  | .store_cancelled =>
    some { s with main := .store_completed, memory := { s.memory with cancelled_ := false } }
  | .store_completed =>
    some { s with main := .clear, memory := { s.memory with completed_ := 0 } }
  | .clear =>
    if s.memory.mtx_ then none
    else some { s with
      main := .is_valid
      memory := { s.memory with running_tasks_ := ∅, completed_tasks_ := ∅ } }
  | .is_valid =>
    match s.graph.1.is_valid s.order with
    | none => none
    | some true => some { s with main := .all_complete }
    | some false => some { s with main := .returned (.InvalidArgument "Invalid task graph") }
  | .all_complete =>
    if s.memory.completed_ = s.graph.1.num_tasks then some { s with main := .load_result }
    else some { s with main := .load_cancelled }
  | .load_cancelled =>
    if s.memory.cancelled_ then some { s with main := .load_result }
    else some { s with main := .get_ready_tasks s.order [] }
  | .sleep => some { s with main := .all_complete }
  | .load_result =>
    if s.memory.cancelled_ then some { s with main := .returned (.Error "Cancelled") }
    else some { s with main := .returned .Ok }
  | .returned _ => none
  | .cancel => some { s with main := .join, memory := { s.memory with cancelled_ := true } }
  | .join => if s.worker_thread_ then none else some { s with main := .destroyed }
  | .destroyed => none
  | pc => s.processStep o pc

/-- The thread is in no call. -/
def ready : MainPc → Bool
  | .idle => true
  | .returned _ => true
  | _ => false

variable [DecidableEq ι]

def setWorker (s : ExecutorSystem ι) (w : ι) (job : Option (Id × JobPc)) : ExecutorSystem ι :=
  { s with worker := Function.update s.worker w job }

def step (s : ExecutorSystem ι) : ExecutorAction ι → Option (ExecutorSystem ι)
  | .call graph order =>
    if ready s.main ∧ graph.1.Iterates order then
      some { s with
        main := .store_cancelled
        graph := graph
        order := order
        memory := { s.memory with
          initial := s.memory.status
          started := []
          ended := []
          counted := []
          lost := [] } }
    else none
  | .destroy => if ready s.main then some { s with main := .cancel } else none
  | .main o => s.mainStep o
  | .take w =>
    match s.worker w, s.queue with
    | none, id :: queue => some { s.setWorker w (some (id, .execute)) with queue := queue }
    | _, _ => none
  | .work w o =>
    match s.worker w with
    | none => none
    | some (id, pc) =>
      match runJob s.memory id o pc with
      | none => none
      | some (m, next) => some { s.setWorker w (next.map (id, ·)) with memory := m }
  | .cancel =>
    if s.main = .destroyed then none
    else some { s with memory := { s.memory with cancelled_ := true } }
  | .worker_loop =>
    if s.memory.cancelled_ then some { s with worker_thread_ := false } else none

/-- An executor before its first call. The default constructor starts no thread. -/
def construct (thread_pool worker_thread : Bool) (status : Id → Task.Status) :
    ExecutorSystem ι where
  memory :=
    { thread_pool_ := thread_pool, running_tasks_ := ∅, completed_tasks_ := ∅, running_ := 0,
      completed_ := 0, cancelled_ := false, mtx_ := false, status := status, initial := status,
      started := [], ended := [], counted := [], lost := [] }
  worker_thread_ := worker_thread
  graph := ⟨.empty, .empty⟩
  order := []
  main := .idle
  queue := []
  worker _ := none

/-! ## What the executor promises -/

/-- The steps of a job up to the one that counts it. -/
def uncounted : JobPc → Bool
  | .unlock => false
  | .notify => false
  | _ => true

/-- No job is queued, and no worker has one that it will still count. -/
def NoneOutstanding (s : ExecutorSystem ι) : Prop :=
  s.queue = [] ∧ ∀ w, ∀ j ∈ s.worker w, uncounted j.2 = false

/-- The task whose `func_` returns or throws in this step, and how. -/
def ends (s : ExecutorSystem ι) : ExecutorAction ι → Option (Id × Outcome)
  | .work w o =>
    match s.worker w with
    | some (id, .run) => some (id, o)
    | _ => none
  | .main o =>
    match s.main with
    | .inline id .run _ => some (id, o)
    | _ => none
  | _ => none

/-- The next step of a thread calls `execute()` of the task. -/
def AboutToStart (s : ExecutorSystem ι) (id : Id) : Prop :=
  (∃ w, s.worker w = some (id, .execute)) ∨ ∃ ready, s.main = .inline id .execute ready

/-- The worker is in `execute()` of the task. -/
def Runs (s : ExecutorSystem ι) (w : ι) (id : Id) : Prop :=
  s.worker w = some (id, .run) ∨ ∃ status, s.worker w = some (id, .set_status status)

/-- The loop goes on, no job is queued or will be counted, and no task can be started. -/
def Stuck (s : ExecutorSystem ι) : Prop :=
  s.main = .all_complete ∧ s.memory.completed_ ≠ s.graph.1.num_tasks ∧
  s.memory.cancelled_ = false ∧ s.NoneOutstanding ∧
  ∀ id ∈ s.graph.1.tasks_, s.memory.status id = .kPending →
    (∀ dep ∈ s.graph.1.get_dependencies id,
      s.graph.1.has_task dep ∧ s.memory.status dep = .kCompleted) →
    id ∈ s.memory.running_tasks_ ∨ id ∈ s.memory.completed_tasks_

/-- The next step of the job of the worker is on a member of the executor. -/
def UsesExecutor (s : ExecutorSystem ι) (w : ι) : Prop :=
  ∃ id pc, s.worker w = some (id, pc) ∧
    match pc with
    | .execute | .run | .set_status _ => False
    | _ => True

section
variable [Fintype ι] (s : ExecutorSystem ι)

instance : Decidable s.NoneOutstanding := inferInstanceAs (Decidable (_ ∧ _))

instance : Decidable s.Stuck := inferInstanceAs (Decidable (_ ∧ _))

end

end ExecutorSystem

end sci
