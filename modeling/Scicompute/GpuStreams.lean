-- The streams of `GpuScheduler` (src/gpu/gpu_scheduler.cpp, 85-160, with CUDA), after
-- `initialize`: `submit` gives a task the current stream, the worker uses it later, and
-- `destroy_stream` and `shutdown` destroy streams. Each call is one step, but for `shutdown`, of
-- which each line and each stream of its loop is a step.
import Scicompute.Transition

open Transition

namespace sci.gpu.streams

/-- A task with its stream, where null is the default stream. CUDA may use the handle of a
destroyed stream again, so `created` has the number of the stream that the task was given. -/
structure GpuTask where
  stream_ : Option Nat
  created : Option Nat
  deriving DecidableEq

/-- Where the worker stands: at the test of its loop, in `process_queue`, with a task out of the
queue, in the task's `execute`, or past its end. -/
inductive WorkerPc
  | test
  | process_queue
  | taken (task : GpuTask)
  | execute (task : GpuTask)
  | exited
  deriving DecidableEq

/-- Where a call of `shutdown` stands. In `destroy` it has the rest of `streams_` left. -/
inductive CallerPc
  | idle
  | test_running
  | stop
  | synchronize
  | destroy (rest : List Nat)
  | join

/-- The members, the worker and the callers. `cuda` has the streams that exist, by their handles,
and `created` is the number of the next one. -/
structure GpuScheduler (ι : Type*) where
  task_queue_ : List GpuTask
  current_stream_ : Option Nat
  streams_ : List Nat
  running_ : Bool
  joinable : Bool
  worker : WorkerPc
  caller : ι → CallerPc
  cuda : Nat → Option Nat
  created : Nat

inductive Action (ι : Type*)
  | create_stream (handle : Nat)
  | set_stream (stream : Option Nat)
  | submit
  | destroy_stream (handle : Nat)
  | shutdown (t : ι)
  /-- The next step of a `shutdown`. -/
  | step (t : ι)
  /-- The next step of the worker. -/
  | worker

/-- The task that the worker has taken out of the queue. -/
def hand : WorkerPc → List GpuTask
  | .taken task => [task]
  | .execute task => [task]
  | _ => []

theorem mem_hand_iff {task : GpuTask} {pc : WorkerPc} :
    task ∈ hand pc ↔ pc = .taken task ∨ pc = .execute task := by
  cases pc <;> simp [hand, eq_comm]

namespace GpuScheduler

variable {ι : Type*}

/-- The first stream is the current one, and not in `streams_`. -/
def start (handle : Nat) : GpuScheduler ι where
  task_queue_ := []
  current_stream_ := some handle
  streams_ := []
  running_ := true
  joinable := true
  worker := .test
  caller := fun _ => .idle
  cuda := Function.update (fun _ => none) handle (some 0)
  created := 1

/-- The tasks that are not finished. -/
def pending (s : GpuScheduler ι) : List GpuTask := hand s.worker ++ s.task_queue_

/-- `cudaStreamDestroy(stream)`. -/
def cudaStreamDestroy (s : GpuScheduler ι) (handle : Nat) : GpuScheduler ι :=
  { s with cuda := Function.update s.cuda handle none }

def workerStep (s : GpuScheduler ι) : Option (GpuScheduler ι) :=
  match s.worker with
  | .test => some { s with worker := if s.running_ then .process_queue else .exited }
  | .process_queue =>
    match s.task_queue_ with
    | [] => some { s with worker := .test }
    | task :: queue => some { s with task_queue_ := queue, worker := .taken task }
  | .taken task => some { s with worker := .execute task }
  | .execute _ => some { s with worker := .test }
  | .exited => none

variable [DecidableEq ι]

def setCaller (s : GpuScheduler ι) (t : ι) (pc : CallerPc) : GpuScheduler ι :=
  { s with caller := Function.update s.caller t pc }

/-- A stream that does not exist fails `CUDA_CHECK` in `synchronize`, which ends the program. -/
def callerStep (s : GpuScheduler ι) (t : ι) : Option (GpuScheduler ι) :=
  match s.caller t with
  | .idle => none
  | .test_running => some (s.setCaller t (if s.running_ then .stop else .idle))
  | .stop => some { s.setCaller t .synchronize with running_ := false }
  | .synchronize =>
    if ∀ handle ∈ s.current_stream_, (s.cuda handle).isSome then
      some (s.setCaller t (.destroy s.streams_)) else none
  | .destroy (handle :: rest) => some ((s.cudaStreamDestroy handle).setCaller t (.destroy rest))
  | .destroy [] => some { s.setCaller t .join with streams_ := [] }
  | .join =>
    if s.joinable then
      if s.worker = .exited then some { s.setCaller t .idle with joinable := false } else none
    else some (s.setCaller t .idle)

/-- The callers of `destroy_stream` give it no stream that a pending task uses. -/
def step (s : GpuScheduler ι) : Action ι → Option (GpuScheduler ι)
  | .create_stream handle =>
    if s.cuda handle = none then
      some { s with
        cuda := Function.update s.cuda handle (some s.created)
        created := s.created + 1
        streams_ := s.streams_ ++ [handle] }
    else none
  | .set_stream stream => some { s with current_stream_ := stream }
  | .submit => some { s with
      task_queue_ := s.task_queue_ ++ [⟨s.current_stream_, s.current_stream_.bind s.cuda⟩] }
  | .destroy_stream handle =>
    if ∀ task ∈ s.pending, task.stream_ ≠ some handle then
      some { s.cudaStreamDestroy handle with streams_ := s.streams_.erase handle }
    else none
  | .shutdown t =>
    match s.caller t with
    | .idle => some (s.setCaller t .test_running)
    | _ => none
  | .step t => s.callerStep t
  | .worker => s.workerStep

/-! ## What the worker may use -/

/-- The stream that the task was given still exists. -/
def HasStream (s : GpuScheduler ι) (task : GpuTask) : Prop :=
  ∀ handle, task.stream_ = some handle →
    ∃ number, task.created = some number ∧ s.cuda handle = some number

/-- The task in execution has its stream. -/
def Safe (s : GpuScheduler ι) : Prop := ∀ task, s.worker = .execute task → s.HasStream task

/-- The tasks that the worker may still take: all of the queue while the scheduler runs, and then
the first one, if the test of the loop is passed. -/
def mayStart (s : GpuScheduler ι) : List GpuTask :=
  if s.running_ then s.task_queue_
  else if s.worker = .process_queue then s.task_queue_.take 1 else []

/-- The tasks that the worker has, or may still take. -/
def active (s : GpuScheduler ι) : List GpuTask := hand s.worker ++ s.mayStart

/-- The condition on the next step of a `shutdown`. -/
def CallKeeps (s : GpuScheduler ι) : CallerPc → Prop
  | .destroy (handle :: _) => ∀ task ∈ s.active, task.stream_ ≠ some handle
  | _ => True

/-- The condition on a step: a task that the worker may still take is submitted with a stream that
exists, and `shutdown` destroys no stream of a task that the worker has or may still take. -/
def KeepsStreams (s : GpuScheduler ι) : Action ι → Prop
  | .submit => (s.running_ = true ∨ (s.worker = .process_queue ∧ s.task_queue_ = [])) →
      ∀ handle ∈ s.current_stream_, (s.cuda handle).isSome
  | .step t => s.CallKeeps (s.caller t)
  | _ => True

/-- The worker alone comes to execute a task whose stream does not exist. -/
def MayFail (s : GpuScheduler ι) : Prop :=
  ∃ n s', run step s (List.replicate n .worker) = some s' ∧ ¬ s'.Safe

omit [DecidableEq ι]

instance (s : GpuScheduler ι) : ∀ pc, Decidable (s.CallKeeps pc)
  | .destroy (_ :: _) => inferInstanceAs (Decidable (∀ task ∈ s.active, _))
  | .destroy [] => isTrue trivial
  | .idle => isTrue trivial
  | .test_running => isTrue trivial
  | .stop => isTrue trivial
  | .synchronize => isTrue trivial
  | .join => isTrue trivial

instance (s : GpuScheduler ι) : ∀ a, Decidable (s.KeepsStreams a)
  | .submit => inferInstanceAs (Decidable (_ → ∀ handle ∈ s.current_stream_, _))
  | .step t => inferInstanceAs (Decidable (s.CallKeeps (s.caller t)))
  | .create_stream _ => isTrue trivial
  | .set_stream _ => isTrue trivial
  | .destroy_stream _ => isTrue trivial
  | .shutdown _ => isTrue trivial
  | .worker => isTrue trivial

/-- Each task that the worker has or may still take has its stream. -/
def Inv (s : GpuScheduler ι) : Prop := ∀ task ∈ s.active, s.HasStream task

variable {s s' : GpuScheduler ι} {t : ι} {handle : Nat} {task : GpuTask}

theorem inv_start (handle : Nat) : (start handle : GpuScheduler ι).Inv := by
  intro task h
  cases h

theorem Inv.safe (h : s.Inv) : s.Safe := by
  intro task hworker
  exact h task (List.mem_append_left _ (mem_hand_iff.mpr (Or.inr hworker)))

theorem mem_pending_of_mem_active (h : task ∈ s.active) : task ∈ s.pending := by
  unfold active mayStart at h
  unfold pending
  rw [List.mem_append] at h ⊢
  refine h.imp_right fun hmay => ?_
  split_ifs at hmay
  · exact hmay
  · exact List.mem_of_mem_take hmay
  · cases hmay

/-- The streams are those of before, and no task is new. -/
theorem Inv.of_active (h : s.Inv) (hcuda : s'.cuda = s.cuda)
    (hsub : ∀ task ∈ s'.active, task ∈ s.active) : s'.Inv := by
  intro task ht handle hhandle
  rw [hcuda]
  exact h task (hsub task ht) handle hhandle

theorem HasStream.update_of_none (h : s.HasStream task) (hnone : s.cuda handle = none)
    (hcuda : s'.cuda = Function.update s.cuda handle (some s.created)) : s'.HasStream task := by
  intro other hother
  obtain ⟨number, hnumber, hother⟩ := h other hother
  refine ⟨number, hnumber, ?_⟩
  have hne : other ≠ handle := by
    rintro rfl
    rw [hnone] at hother
    cases hother
  rw [hcuda, Function.update_of_ne hne]
  exact hother

theorem HasStream.update_of_ne (h : s.HasStream task) (hne : task.stream_ ≠ some handle)
    (hcuda : s'.cuda = Function.update s.cuda handle none) : s'.HasStream task := by
  intro other hother
  obtain ⟨number, hnumber, hstream⟩ := h other hother
  refine ⟨number, hnumber, ?_⟩
  have hother : other ≠ handle := by
    rintro rfl
    exact hne hother
  rw [hcuda, Function.update_of_ne hother]
  exact hstream

/-- A task that is submitted with a stream that exists has it. -/
theorem hasStream_of_isSome (h : ∀ handle ∈ s.current_stream_, (s.cuda handle).isSome)
    (hcuda : s'.cuda = s.cuda) :
    s'.HasStream ⟨s.current_stream_, s.current_stream_.bind s.cuda⟩ := by
  intro handle hhandle
  have hcurrent : s.current_stream_ = some handle := hhandle
  obtain ⟨number, hnumber⟩ := Option.isSome_iff_exists.mp (h handle hcurrent)
  refine ⟨number, ?_, ?_⟩
  · simp only [hcurrent, Option.bind_some, hnumber]
  · rw [hcuda, hnumber]

theorem inv_submit (h : s.Inv)
    (hok : (s.running_ = true ∨ (s.worker = .process_queue ∧ s.task_queue_ = [])) →
      ∀ handle ∈ s.current_stream_, (s.cuda handle).isSome)
    (hs : s' = { s with
      task_queue_ := s.task_queue_ ++ [⟨s.current_stream_, s.current_stream_.bind s.cuda⟩] }) :
    s'.Inv := by
  have hcuda : s'.cuda = s.cuda := by rw [hs]
  have hold : ∀ task ∈ s.active, s'.HasStream task := by
    intro task ht handle hhandle
    rw [hcuda]
    exact h task ht handle hhandle
  intro task ht
  unfold active mayStart at ht hold
  simp only [hs] at ht
  rw [List.mem_append] at ht
  rcases ht with hhand | hmay
  · exact hold task (List.mem_append_left _ hhand)
  · split_ifs at hmay hold with hrunning hworker
    · rw [List.mem_append, List.mem_singleton] at hmay
      rcases hmay with hqueue | rfl
      · exact hold task (List.mem_append_right _ hqueue)
      · exact hasStream_of_isSome (hok (Or.inl hrunning)) hcuda
    · -- only the first task counts, which is the new one where the queue was empty
      cases hqueue : s.task_queue_ with
      | nil =>
        rw [hqueue, List.nil_append, List.take_succ_cons, List.take_zero,
          List.mem_singleton] at hmay
        subst hmay
        exact hasStream_of_isSome (hok (Or.inr ⟨hworker, hqueue⟩)) hcuda
      | cons first queue =>
        rw [hqueue, List.cons_append, List.take_succ_cons, List.take_zero] at hmay
        apply hold task
        rw [hqueue, List.take_succ_cons, List.take_zero]
        exact List.mem_append_right _ hmay
    · cases hmay

theorem cuda_workerStep (hs : s.workerStep = some s') : s'.cuda = s.cuda := by
  unfold workerStep at hs
  split at hs
  · cases hs
    rfl
  · split at hs
    all_goals
      cases hs
      rfl
  · cases hs
    rfl
  · cases hs
    rfl
  · cases hs

/-- The worker takes tasks that it may take, and none once the test of its loop has found that the
scheduler has stopped. -/
theorem active_workerStep (hs : s.workerStep = some s') : ∀ task ∈ s'.active, task ∈ s.active := by
  unfold workerStep at hs
  intro task ht
  cases hworker : s.worker with
  | test =>
    rw [hworker] at hs
    cases hs
    by_cases hrunning : s.running_ = true
    · simpa [active, mayStart, hand, hrunning, hworker] using ht
    · simp [active, mayStart, hand, hrunning] at ht
  | process_queue =>
    rw [hworker] at hs
    cases hqueue : s.task_queue_ with
    | nil =>
      rw [hqueue] at hs
      cases hs
      simp [active, mayStart, hand] at ht
    | cons first queue =>
      rw [hqueue] at hs
      cases hs
      by_cases hrunning : s.running_ = true
      · simpa [active, mayStart, hand, hrunning, hworker, hqueue] using ht
      · simpa [active, mayStart, hand, hrunning, hworker, hqueue] using ht
  | taken held =>
    rw [hworker] at hs
    cases hs
    simpa [active, mayStart, hand, hworker] using ht
  | execute held =>
    rw [hworker] at hs
    cases hs
    have hmay : task ∈ s.mayStart := by simpa [active, mayStart, hand, hworker] using ht
    exact List.mem_append_right _ hmay
  | exited =>
    rw [hworker] at hs
    cases hs

/-- The stop leaves at most the first task to be taken. -/
theorem mem_active_of_stop (ht : task ∈ s'.active) (hrunning : s'.running_ = false)
    (hworker : s'.worker = s.worker) (hqueue : s'.task_queue_ = s.task_queue_) :
    task ∈ s.active := by
  unfold active mayStart at ht ⊢
  rw [hrunning, hworker, hqueue, if_neg Bool.false_ne_true] at ht
  rw [List.mem_append] at ht ⊢
  refine ht.imp_right fun hmay => ?_
  split_ifs at hmay with htested
  · split_ifs
    · exact List.mem_of_mem_take hmay
    · exact hmay
  · cases hmay

section
variable [DecidableEq ι]

/-- A step of a `shutdown` leaves the tasks and the worker. It stops the scheduler, or it destroys
a stream, or it does neither. -/
theorem callerStep_cases (hs : s.callerStep t = some s') :
    s'.task_queue_ = s.task_queue_ ∧ s'.worker = s.worker ∧
      ((s'.running_ = false ∧ s'.cuda = s.cuda) ∨
        (s'.running_ = s.running_ ∧ s'.cuda = s.cuda) ∨
        (s'.running_ = s.running_ ∧ ∃ handle rest, s.caller t = .destroy (handle :: rest) ∧
          s'.cuda = Function.update s.cuda handle none)) := by
  unfold callerStep at hs
  cases hpc : s.caller t with
  | idle =>
    rw [hpc] at hs
    cases hs
  | test_running =>
    rw [hpc] at hs
    cases hs
    exact ⟨rfl, rfl, Or.inr (Or.inl ⟨rfl, rfl⟩)⟩
  | stop =>
    rw [hpc] at hs
    cases hs
    exact ⟨rfl, rfl, Or.inl ⟨rfl, rfl⟩⟩
  | synchronize =>
    rw [hpc] at hs
    simp only at hs
    split_ifs at hs
    cases hs
    exact ⟨rfl, rfl, Or.inr (Or.inl ⟨rfl, rfl⟩)⟩
  | destroy rest =>
    rw [hpc] at hs
    cases rest with
    | nil =>
      cases hs
      exact ⟨rfl, rfl, Or.inr (Or.inl ⟨rfl, rfl⟩)⟩
    | cons handle rest =>
      cases hs
      exact ⟨rfl, rfl, Or.inr (Or.inr ⟨rfl, handle, rest, rfl, rfl⟩)⟩
  | join =>
    rw [hpc] at hs
    simp only at hs
    split_ifs at hs
    all_goals
      cases hs
      exact ⟨rfl, rfl, Or.inr (Or.inl ⟨rfl, rfl⟩)⟩

omit [DecidableEq ι] in
theorem active_congr (hrunning : s'.running_ = s.running_) (hworker : s'.worker = s.worker)
    (hqueue : s'.task_queue_ = s.task_queue_) : s'.active = s.active := by
  unfold active mayStart
  rw [hrunning, hworker, hqueue]

theorem inv_callerStep (h : s.Inv) (hok : s.CallKeeps (s.caller t))
    (hs : s.callerStep t = some s') : s'.Inv := by
  obtain ⟨hqueue, hworker, hcases⟩ := callerStep_cases hs
  rcases hcases with ⟨hrunning, hcuda⟩ | ⟨hrunning, hcuda⟩ | ⟨hrunning, handle, rest, hpc, hcuda⟩
  · exact h.of_active hcuda fun task ht => mem_active_of_stop ht hrunning hworker hqueue
  · exact h.of_active hcuda fun task ht => active_congr hrunning hworker hqueue ▸ ht
  · rw [hpc] at hok
    intro task ht
    rw [active_congr hrunning hworker hqueue] at ht
    exact (h task ht).update_of_ne (hok task ht) hcuda

theorem inv_step {a : Action ι} (h : s.Inv) (hok : s.KeepsStreams a) (hs : s.step a = some s') :
    s'.Inv := by
  cases a with
  | create_stream handle =>
    simp only [step] at hs
    split_ifs at hs with hnone
    cases hs
    intro task ht
    exact (h task ht).update_of_none hnone rfl
  | set_stream stream =>
    cases hs
    exact h
  | submit =>
    cases hs
    exact inv_submit h hok rfl
  | destroy_stream handle =>
    simp only [step] at hs
    split_ifs at hs with hunused
    cases hs
    intro task ht
    exact (h task ht).update_of_ne (hunused task (mem_pending_of_mem_active ht)) rfl
  | shutdown t =>
    simp only [step] at hs
    split at hs
    · cases hs
      exact h
    · cases hs
  | step t => exact inv_callerStep h hok hs
  | worker => exact h.of_active (cuda_workerStep hs) (active_workerStep hs)

/-! ## What the worker does without a stream -/

theorem mayFail_of_not_safe (h : ¬ s.Safe) : s.MayFail := ⟨0, s, rfl, h⟩

theorem MayFail.of_workerStep {u : GpuScheduler ι} (h : u.MayFail)
    (hs : s.workerStep = some u) : s.MayFail := by
  obtain ⟨n, s', hr, hs'⟩ := h
  exact ⟨n + 1, s', (run_cons ..).mpr ⟨u, hs, hr⟩, hs'⟩

theorem mayFail_of_execute (hworker : s.worker = .execute task) (h : ¬ s.HasStream task) :
    s.MayFail :=
  mayFail_of_not_safe fun hsafe => h (hsafe task hworker)

theorem mayFail_of_taken (hworker : s.worker = .taken task) (h : ¬ s.HasStream task) :
    s.MayFail := by
  apply MayFail.of_workerStep (u := { s with worker := .execute task })
  · exact mayFail_of_execute rfl h
  · unfold workerStep
    rw [hworker]

theorem mayFail_of_first {queue : List GpuTask} (hworker : s.worker = .process_queue)
    (hqueue : s.task_queue_ = task :: queue) (h : ¬ s.HasStream task) : s.MayFail := by
  apply MayFail.of_workerStep (u := { s with task_queue_ := queue, worker := .taken task })
  · exact mayFail_of_taken rfl h
  · unfold workerStep
    rw [hworker, hqueue]

/-- While the scheduler runs, the worker gets to the queue. -/
theorem mayFail_of_running (hrunning : s.running_ = true) (hexited : s.worker ≠ .exited)
    (h : MayFail { s with worker := .process_queue }) : s.MayFail := by
  have htest : MayFail { s with worker := .test } := by
    apply h.of_workerStep
    unfold workerStep
    rw [if_pos hrunning]
  have hexecute : ∀ task, MayFail { s with worker := .execute task } :=
    fun task => htest.of_workerStep rfl
  cases hworker : s.worker with
  | test =>
    rw [← hworker] at htest
    exact htest
  | process_queue =>
    rw [← hworker] at h
    exact h
  | taken task =>
    apply (hexecute task).of_workerStep
    unfold workerStep
    rw [hworker]
  | execute task =>
    have hself := hexecute task
    rw [← hworker] at hself
    exact hself
  | exited => exact absurd hworker hexited

/-- While the scheduler runs, the worker gets to each task of the queue. -/
theorem mayFail_of_mem_queue (hrunning : s.running_ = true) (hworker : s.worker = .process_queue)
    (hmem : task ∈ s.task_queue_) (h : ¬ s.HasStream task) : s.MayFail := by
  induction hqueue : s.task_queue_ generalizing s with
  | nil =>
    rw [hqueue] at hmem
    cases hmem
  | cons first queue ih =>
    rw [hqueue, List.mem_cons] at hmem
    rcases hmem with rfl | hmem
    · exact mayFail_of_first hworker hqueue h
    · apply MayFail.of_workerStep (u := { s with task_queue_ := queue, worker := .taken first })
      · apply mayFail_of_running (by exact hrunning) WorkerPc.noConfusion
        exact ih hrunning rfl hmem h rfl
      · unfold workerStep
        rw [hworker, hqueue]

/-- The worker gets to each active task. -/
theorem mayFail_of_mem_active (hexited : s.running_ = true → s.worker ≠ .exited)
    (hmem : task ∈ s.active) (h : ¬ s.HasStream task) : s.MayFail := by
  unfold active at hmem
  rw [List.mem_append] at hmem
  rcases hmem with hhand | hmay
  · rcases mem_hand_iff.mp hhand with hworker | hworker
    · exact mayFail_of_taken hworker h
    · exact mayFail_of_execute hworker h
  · unfold mayStart at hmay
    split_ifs at hmay with hrunning hworker
    · apply mayFail_of_running hrunning (hexited hrunning)
      exact mayFail_of_mem_queue hrunning rfl hmay h
    · cases hqueue : s.task_queue_ with
      | nil =>
        rw [hqueue] at hmay
        cases hmay
      | cons first queue =>
        rw [hqueue, List.take_succ_cons, List.take_zero, List.mem_singleton] at hmay
        subst hmay
        exact mayFail_of_first hworker hqueue h
    · cases hmay

/-- The worker does not leave its loop while the scheduler runs. -/
theorem not_exited_step {a : Action ι} (h : s.running_ = true → s.worker ≠ .exited)
    (hs : s.step a = some s') : s'.running_ = true → s'.worker ≠ .exited := by
  cases a with
  | create_stream handle =>
    simp only [step] at hs
    split_ifs at hs
    cases hs
    exact h
  | set_stream stream =>
    cases hs
    exact h
  | submit =>
    cases hs
    exact h
  | destroy_stream handle =>
    simp only [step] at hs
    split_ifs at hs
    cases hs
    exact h
  | shutdown t =>
    simp only [step] at hs
    split at hs
    · cases hs
      exact h
    · cases hs
  | step t =>
    obtain ⟨-, hworker, hcases⟩ := callerStep_cases hs
    rw [hworker]
    intro hrunning
    rcases hcases with ⟨hstop, -⟩ | ⟨hsame, -⟩ | ⟨hsame, -⟩
    · rw [hstop] at hrunning
      cases hrunning
    · exact h (hsame ▸ hrunning)
    · exact h (hsame ▸ hrunning)
  | worker =>
    simp only [step, workerStep] at hs
    split at hs
    · cases hs
      intro hrunning
      have hrunning : s.running_ = true := hrunning
      rw [if_pos hrunning]
      exact WorkerPc.noConfusion
    · split at hs
      all_goals
        cases hs
        exact fun _ => WorkerPc.noConfusion
    · cases hs
      exact fun _ => WorkerPc.noConfusion
    · cases hs
      exact fun _ => WorkerPc.noConfusion
    · cases hs

/-- A step that does not keep the streams leaves an active task without its stream. -/
theorem exists_active_of_not_keepsStreams {a : Action ι} (hok : ¬ s.KeepsStreams a)
    (hs : s.step a = some s') : ∃ task ∈ s'.active, ¬ s'.HasStream task := by
  cases a with
  | submit =>
    unfold KeepsStreams at hok
    push Not at hok
    obtain ⟨hmay, handle, hcurrent, hnone⟩ := hok
    cases hs
    refine ⟨⟨s.current_stream_, s.current_stream_.bind s.cuda⟩, ?_, ?_⟩
    · unfold active mayStart
      apply List.mem_append_right
      rcases hmay with hrunning | ⟨hworker, hqueue⟩
      · simp [hrunning]
      · simp [hworker, hqueue]
    · intro hstream
      obtain ⟨number, -, hnumber⟩ := hstream handle hcurrent
      simp only at hnumber
      simp [hnumber] at hnone
  | step t =>
    have hok : ¬ s.CallKeeps (s.caller t) := hok
    unfold CallKeeps at hok
    split at hok
    · rename_i handle rest hpc
      push Not at hok
      obtain ⟨task, hmem, hhandle⟩ := hok
      have hs : s.callerStep t = some s' := hs
      unfold callerStep at hs
      rw [hpc] at hs
      cases hs
      refine ⟨task, hmem, ?_⟩
      intro hstream
      obtain ⟨number, -, hnumber⟩ := hstream handle hhandle
      simp [setCaller, cudaStreamDestroy] at hnumber
    · exact absurd trivial hok
  | create_stream handle => exact absurd trivial hok
  | set_stream stream => exact absurd trivial hok
  | destroy_stream handle => exact absurd trivial hok
  | shutdown t => exact absurd trivial hok
  | worker => exact absurd trivial hok

/-- A task in execution has the stream that it was given, in each state that is reached by steps
that keep the streams of the active tasks. After another step the worker may fail. -/
theorem executed_tasks_have_streams {as : List (Action ι)}
    (hr : run step (start handle) as = some s) :
    (Meets step KeepsStreams (start handle) as → s.Safe) ∧
      ∀ a s', ¬ s.KeepsStreams a → s.step a = some s' → s'.MayFail := by
  constructor
  · intro hm
    exact (invariant_of_meets (fun _ _ _ => inv_step) (inv_start handle) hm hr).safe
  · intro a s' hok hs
    have hexited : s.running_ = true → s.worker ≠ .exited :=
      invariant_of_run (I := fun s : GpuScheduler ι => s.running_ = true → s.worker ≠ .exited)
        (fun _ _ _ => not_exited_step) (fun _ => WorkerPc.noConfusion) hr
    obtain ⟨task, hmem, hstream⟩ := exists_active_of_not_keepsStreams hok hs
    exact mayFail_of_mem_active (not_exited_step hexited hs) hmem hstream

end

/-- A task is executed on a stream of its own, which the scheduler destroys at its end. -/
def ownStream : List (Action Unit) :=
  [.create_stream 1, .set_stream (some 1), .submit, .worker, .worker, .worker, .worker,
    .shutdown (), .step (), .step (), .step (), .step (), .worker, .step (), .step ()]

theorem own_stream_is_safe :
    ∃ s, run step (start 0) ownStream = some s ∧ s.Safe ∧ s.cuda 1 = none ∧ s.worker = .exited := by
  have hrun : ∃ s : GpuScheduler Unit, run step (start 0) ownStream = some s ∧
      s.cuda 1 = none ∧ s.worker = .exited := exists_of_any (by decide +kernel)
  obtain ⟨s, hr, hdestroyed, hworker⟩ := hrun
  exact ⟨s, hr, (executed_tasks_have_streams hr).1 (by decide +kernel), hdestroyed, hworker⟩

/-- The worker has passed the test of its loop when the scheduler stops, and takes the task after
its stream is gone. -/
theorem shutdown_destroys_before_it_joins :
    ¬ ∀ (handle : Nat) (as : List (Action Unit)) (s : GpuScheduler Unit),
      run step (start handle) as = some s → s.Safe := by
  intro h
  have hrun : ∃ s : GpuScheduler Unit, run step (start 0) [.create_stream 1,
      .set_stream (some 1), .submit, .worker, .shutdown (), .step (), .step (), .step (), .step (),
      .worker, .worker] = some s ∧ s.worker = .execute ⟨some 1, some 1⟩ ∧ s.cuda 1 = none :=
    exists_of_any (by decide +kernel)
  obtain ⟨s, hr, hworker, hdestroyed⟩ := hrun
  obtain ⟨number, -, hstream⟩ := h 0 _ s hr _ hworker 1 rfl
  rw [hdestroyed] at hstream
  cases hstream

end GpuScheduler

end sci.gpu.streams
