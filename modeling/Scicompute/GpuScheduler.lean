-- `sci::gpu::GpuScheduler` with its worker thread and its stream (include/gpu/gpu_scheduler.hpp,
-- src/gpu/gpu_scheduler.cpp, 79-145, with CUDA), after `initialize`. Submitted tasks wait in a
-- queue of the host; the worker takes them out and issues their work to the stream, which
-- completes it in order. `synchronize` waits for the stream alone. Tasks are numbered in the
-- order in which they are pushed, and each critical section is one step.
import Scicompute.Transition

open Transition

namespace sci.gpu

/-- Where the worker stands: at the test of its loop, in `process_queue`, or past its end. -/
inductive WorkerPc
  | test
  | process_queue
  | execute (task : Nat)
  | exited
  deriving DecidableEq

/-- A call of `synchronize` or `shutdown`; `before` are the tasks whose `submit` had returned when
the call started. -/
structure WaitCall where
  shutdown : Bool
  before : List Nat
  deriving DecidableEq

/-- Where a calling thread stands. In `wait` it has called `cudaStreamSynchronize` while the stream
had been given `issued` tasks. -/
inductive CallerPc
  | idle
  | submitted (task : Nat)
  | test_running (c : WaitCall)
  | stop (c : WaitCall)
  | synchronize (c : WaitCall)
  | wait (c : WaitCall) (issued : Nat)
  | join (c : WaitCall)
  | finish (c : WaitCall)
  deriving DecidableEq

/-- The tasks that a call had to wait for, and those executed when it returned. -/
structure Returned where
  before : List Nat
  executed : List Nat
  deriving DecidableEq

/-- Each task that the call had to wait for was executed once, and the tasks in order. -/
def Returned.Settled (r : Returned) : Prop :=
  r.executed.Pairwise (· < ·) ∧ ∀ task ∈ r.before, r.executed.count task = 1

/-- The members, the worker, the stream and the callers. `pushed` counts the tasks pushed, `issued`
lists those whose `execute` has run, of which the stream has completed the first `completed`. No
stream but the one of `initialize` is in use, so `streams_` is empty. -/
structure GpuScheduler (ι : Type*) where
  task_queue_ : List Nat
  running_ : Bool
  initialized_ : Bool
  joinable : Bool
  worker : WorkerPc
  pushed : Nat
  submitted : List Nat
  issued : List Nat
  completed : Nat
  caller : ι → CallerPc
  returned : List Returned

inductive SchedulerAction (ι : Type*)
  | submit (t : ι)
  | synchronize (t : ι)
  | shutdown (t : ι)
  /-- The next step of a call. -/
  | step (t : ι)
  /-- The next step of the worker. -/
  | worker
  /-- The stream completes the work of a task. -/
  | complete

namespace GpuScheduler

variable {ι : Type*}

def start : GpuScheduler ι where
  task_queue_ := []
  running_ := true
  initialized_ := true
  joinable := true
  worker := .test
  pushed := 0
  submitted := []
  issued := []
  completed := 0
  caller := fun _ => .idle
  returned := []

/-- The tasks that are executed to their end. -/
def executed (s : GpuScheduler ι) : List Nat := s.issued.take s.completed

/-- The task that the worker has taken out of the queue. -/
def hand : WorkerPc → List Nat
  | .execute task => [task]
  | _ => []

def workerStep (s : GpuScheduler ι) : Option (GpuScheduler ι) :=
  match s.worker with
  | .test => some { s with worker := if s.running_ then .process_queue else .exited }
  | .process_queue =>
    match s.task_queue_ with
    | [] => some { s with worker := .test }
    | task :: queue => some { s with task_queue_ := queue, worker := .execute task }
  | .execute task => some { s with issued := s.issued ++ [task], worker := .test }
  | .exited => none

variable [DecidableEq ι]

def setCaller (s : GpuScheduler ι) (t : ι) (pc : CallerPc) : GpuScheduler ι :=
  { s with caller := Function.update s.caller t pc }

/-- The call returns. -/
def ret (s : GpuScheduler ι) (t : ι) (c : WaitCall) : GpuScheduler ι :=
  { s.setCaller t .idle with returned := s.returned ++ [⟨c.before, s.executed⟩] }

def callerStep (s : GpuScheduler ι) (t : ι) : Option (GpuScheduler ι) :=
  match s.caller t with
  | .idle => none
  | .submitted task => some { s.setCaller t .idle with submitted := s.submitted ++ [task] }
  | .test_running c => if s.running_ then some (s.setCaller t (.stop c)) else some (s.ret t c)
  | .stop c => some { s.setCaller t (.synchronize c) with running_ := false }
  | .synchronize c => some (s.setCaller t (.wait c s.issued.length))
  | .wait c issued =>
    if issued ≤ s.completed then
      if c.shutdown then some (s.setCaller t (.join c)) else some (s.ret t c)
    else none
  | .join c =>
    if s.joinable then
      if s.worker = .exited then some { s.setCaller t (.finish c) with joinable := false }
      else none
    else some (s.setCaller t (.finish c))
  | .finish c => some { s.ret t c with initialized_ := false }

def step (s : GpuScheduler ι) : SchedulerAction ι → Option (GpuScheduler ι)
  | .submit t =>
    match s.caller t with
    | .idle => some { s.setCaller t (.submitted s.pushed) with
        task_queue_ := s.task_queue_ ++ [s.pushed], pushed := s.pushed + 1 }
    | _ => none
  | .synchronize t =>
    match s.caller t with
    | .idle => some (s.setCaller t (.synchronize ⟨false, s.submitted⟩))
    | _ => none
  | .shutdown t =>
    match s.caller t with
    | .idle => some (s.setCaller t (.test_running ⟨true, s.submitted⟩))
    | _ => none
  | .step t => s.callerStep t
  | .worker => s.workerStep
  | .complete =>
    if s.completed < s.issued.length then some { s with completed := s.completed + 1 } else none

/-! ## What the calls promise -/

/-- The condition on the next step of a call: when the call turns to the stream, the tasks that were
submitted before it have left the queue and the worker's hands; when `shutdown` finds `running_`
false, they are executed already. -/
def CallDrained (s : GpuScheduler ι) : CallerPc → Prop
  | .synchronize c => ∀ task ∈ c.before, task ∉ s.task_queue_ ∧ task ∉ hand s.worker
  | .test_running c => s.running_ = false → ∀ task ∈ c.before, task ∈ s.executed
  | _ => True

def Drained (s : GpuScheduler ι) : SchedulerAction ι → Prop
  | .step t => s.CallDrained (s.caller t)
  | _ => True

omit [DecidableEq ι]

instance (s : GpuScheduler ι) : ∀ pc, Decidable (s.CallDrained pc)
  | .synchronize c => inferInstanceAs (Decidable (∀ task ∈ c.before, _ ∧ _))
  | .test_running c => inferInstanceAs (Decidable (_ → ∀ task ∈ c.before, _))
  | .idle => isTrue trivial
  | .submitted _ => isTrue trivial
  | .stop _ => isTrue trivial
  | .wait _ _ => isTrue trivial
  | .join _ => isTrue trivial
  | .finish _ => isTrue trivial

instance (s : GpuScheduler ι) : ∀ a, Decidable (s.Drained a)
  | .step t => inferInstanceAs (Decidable (s.CallDrained (s.caller t)))
  | .submit _ => isTrue trivial
  | .synchronize _ => isTrue trivial
  | .shutdown _ => isTrue trivial
  | .worker => isTrue trivial
  | .complete => isTrue trivial

/-! ## What a step keeps -/

/-- What is known of the tasks that a call waits for. -/
def CallOk (s : GpuScheduler ι) : CallerPc → Prop
  | .idle => True
  | .submitted task => task < s.pushed
  | .test_running c => ∀ task ∈ c.before, task < s.pushed
  | .stop c => ∀ task ∈ c.before, task < s.pushed
  | .synchronize c => ∀ task ∈ c.before, task < s.pushed
  | .wait c issued => ∀ task ∈ c.before, task < issued
  | .join c => ∀ task ∈ c.before, task < s.completed
  | .finish c => ∀ task ∈ c.before, task < s.completed

/-- The stream, the worker and the queue hold the tasks in the order of their numbers. -/
structure Inv (s : GpuScheduler ι) : Prop where
  tasks : s.issued ++ hand s.worker ++ s.task_queue_ = List.range s.pushed
  completed_le : s.completed ≤ s.issued.length
  submitted_lt : ∀ task ∈ s.submitted, task < s.pushed
  calls : ∀ t, s.CallOk (s.caller t)
  returned : ∀ r ∈ s.returned, r.Settled

variable {s s' : GpuScheduler ι} {t : ι}

theorem inv_start : (start : GpuScheduler ι).Inv where
  tasks := rfl
  completed_le := Nat.le_refl _
  submitted_lt task h := by cases h
  calls t := trivial
  returned r h := by cases h

theorem CallOk.mono {pc : CallerPc} (h : s.CallOk pc) (hp : s.pushed ≤ s'.pushed)
    (hc : s.completed ≤ s'.completed) : s'.CallOk pc := by
  cases pc with
  | idle => trivial
  | submitted task => exact Nat.lt_of_lt_of_le h hp
  | test_running c => exact fun task ht => Nat.lt_of_lt_of_le (h task ht) hp
  | stop c => exact fun task ht => Nat.lt_of_lt_of_le (h task ht) hp
  | synchronize c => exact fun task ht => Nat.lt_of_lt_of_le (h task ht) hp
  | wait c issued => exact h
  | join c => exact fun task ht => Nat.lt_of_lt_of_le (h task ht) hc
  | finish c => exact fun task ht => Nat.lt_of_lt_of_le (h task ht) hc

/-- The tasks that are executed are the first ones. -/
theorem Inv.executed_eq (hs : s.Inv) : s.executed = List.range s.completed := by
  have hlen := congrArg List.length hs.tasks
  simp only [List.length_append, List.length_range] at hlen
  have htake := congrArg (List.take s.completed) hs.tasks
  rw [List.append_assoc, List.take_append_of_le_length hs.completed_le, List.take_range] at htake
  have hle := hs.completed_le
  rw [executed, htake, Nat.min_eq_left (by omega)]

theorem Inv.mem_executed (hs : s.Inv) {task : Nat} : task ∈ s.executed ↔ task < s.completed := by
  rw [hs.executed_eq, List.mem_range]

/-- A task that has left the queue and the worker's hands was issued. -/
theorem Inv.lt_issued (hs : s.Inv) {task : Nat} (hlt : task < s.pushed)
    (hq : task ∉ s.task_queue_) (hh : task ∉ hand s.worker) : task < s.issued.length := by
  have hmem : task ∈ s.issued ++ hand s.worker ++ s.task_queue_ := by
    rw [hs.tasks]
    exact List.mem_range.mpr hlt
  have hissued : task ∈ s.issued := by
    rcases List.mem_append.mp hmem with hmem | hmem
    · exact (List.mem_append.mp hmem).resolve_right hh
    · exact absurd hmem hq
  have hrange : s.issued = List.range s.issued.length := by
    have htake := congrArg (List.take s.issued.length) hs.tasks
    have hlen := congrArg List.length hs.tasks
    simp only [List.length_append, List.length_range] at hlen
    rw [List.append_assoc, List.take_left, List.take_range, Nat.min_eq_left (by omega)] at htake
    exact htake
  rw [hrange] at hissued
  exact List.mem_range.mp hissued

theorem Inv.settled (hs : s.Inv) {c : WaitCall} (hc : ∀ task ∈ c.before, task < s.completed) :
    Returned.Settled ⟨c.before, s.executed⟩ := by
  have hrange := hs.executed_eq
  refine ⟨?_, ?_⟩
  · rw [hrange]
    exact List.pairwise_lt_range
  · intro task ht
    simp only [hrange]
    exact List.count_eq_one_of_mem List.nodup_range (List.mem_range.mpr (hc task ht))

section
variable [DecidableEq ι]

/-- A call takes a step that leaves the tasks where they are. -/
theorem Inv.setCaller (hs : s.Inv) (pc : CallerPc) (hpc : s.CallOk pc) :
    (s.setCaller t pc).Inv where
  tasks := hs.tasks
  completed_le := hs.completed_le
  submitted_lt := hs.submitted_lt
  calls u := by
    have hmono : ∀ pc, s.CallOk pc → (s.setCaller t pc).CallOk pc :=
      fun pc h => h.mono (Nat.le_refl _) (Nat.le_refl _)
    by_cases hu : u = t
    · subst hu
      simp only [GpuScheduler.setCaller, Function.update_self]
      exact hmono pc hpc
    · simp only [GpuScheduler.setCaller, Function.update_of_ne hu]
      exact (hs.calls u).mono (Nat.le_refl _) (Nat.le_refl _)
  returned := hs.returned

theorem Inv.ret (hs : s.Inv) {c : WaitCall} (hc : ∀ task ∈ c.before, task < s.completed) :
    (s.ret t c).Inv := by
  have hidle := hs.setCaller (t := t) .idle trivial
  refine ⟨hidle.tasks, hidle.completed_le, hidle.submitted_lt, hidle.calls, ?_⟩
  intro r hr
  rcases List.mem_append.mp hr with hr | hr
  · exact hs.returned r hr
  · rw [List.mem_singleton.mp hr]
    exact hs.settled hc

theorem Inv.callerStep (hs : s.Inv) (hok : s.CallDrained (s.caller t))
    (h : s.callerStep t = some s') : s'.Inv := by
  have hcall := hs.calls t
  unfold GpuScheduler.callerStep at h
  cases hpc : s.caller t with
  | idle => simp [hpc] at h
  | submitted task =>
    rw [hpc] at h hcall
    cases h
    have hidle := hs.setCaller (t := t) .idle trivial
    refine ⟨hidle.tasks, hidle.completed_le, ?_, hidle.calls, hidle.returned⟩
    intro task' hmem
    rcases List.mem_append.mp hmem with hmem | hmem
    · exact hs.submitted_lt task' hmem
    · rw [List.mem_singleton.mp hmem]
      exact hcall
  | test_running c =>
    rw [hpc] at h hcall hok
    simp only at h
    split_ifs at h with hrun
    · cases h
      exact hs.setCaller _ hcall
    · cases h
      apply hs.ret
      intro task ht
      exact hs.mem_executed.mp (hok (by simpa using hrun) task ht)
  | stop c =>
    rw [hpc] at h hcall
    cases h
    have hnext := hs.setCaller (t := t) (.synchronize c) hcall
    exact ⟨hnext.tasks, hnext.completed_le, hnext.submitted_lt, hnext.calls, hnext.returned⟩
  | synchronize c =>
    rw [hpc] at h hcall hok
    cases h
    apply hs.setCaller
    intro task ht
    exact hs.lt_issued (hcall task ht) (hok task ht).1 (hok task ht).2
  | wait c issued =>
    rw [hpc] at h hcall
    simp only at h
    split_ifs at h with hle hshut
    · cases h
      exact hs.setCaller (.join c) (fun task ht => Nat.lt_of_lt_of_le (hcall task ht) hle)
    · cases h
      exact hs.ret (fun task ht => Nat.lt_of_lt_of_le (hcall task ht) hle)
  | join c =>
    rw [hpc] at h hcall
    simp only at h
    have hnext := hs.setCaller (t := t) (.finish c) hcall
    split_ifs at h
    · cases h
      exact ⟨hnext.tasks, hnext.completed_le, hnext.submitted_lt, hnext.calls, hnext.returned⟩
    · cases h
      exact hnext
  | finish c =>
    rw [hpc] at h hcall
    cases h
    have hret := hs.ret (t := t) hcall
    exact ⟨hret.tasks, hret.completed_le, hret.submitted_lt, hret.calls, hret.returned⟩

omit [DecidableEq ι] in
/-- The worker hands the tasks on in their order. -/
theorem Inv.workerStep (hs : s.Inv) (h : s.workerStep = some s') : s'.Inv := by
  have htasks := hs.tasks
  unfold GpuScheduler.workerStep at h
  cases hw : s.worker with
  | test =>
    rw [hw] at h htasks
    cases h
    refine ⟨?_, hs.completed_le, hs.submitted_lt, hs.calls, hs.returned⟩
    simp only
    split <;> exact htasks
  | process_queue =>
    rw [hw] at h htasks
    cases hq : s.task_queue_ with
    | nil =>
      simp only [hq] at h
      cases h
      refine ⟨?_, hs.completed_le, hs.submitted_lt, hs.calls, hs.returned⟩
      rw [hq] at htasks
      exact htasks
    | cons task queue =>
      simp only [hq] at h
      cases h
      refine ⟨?_, hs.completed_le, hs.submitted_lt, hs.calls, hs.returned⟩
      rw [hq] at htasks
      simpa [hand] using htasks
  | execute task =>
    rw [hw] at h htasks
    cases h
    refine ⟨?_, ?_, hs.submitted_lt, hs.calls, hs.returned⟩
    · simpa [hand] using htasks
    · have hle := hs.completed_le
      simp only [List.length_append, List.length_singleton]
      omega
  | exited => simp [hw] at h

theorem Inv.step (hs : s.Inv) (a : SchedulerAction ι) (hok : s.Drained a)
    (h : GpuScheduler.step s a = some s') : s'.Inv := by
  cases a with
  | submit t =>
    simp only [GpuScheduler.step] at h
    cases hpc : s.caller t with
    | idle =>
      rw [hpc] at h
      cases h
      constructor
      · change s.issued ++ hand s.worker ++ (s.task_queue_ ++ [s.pushed]) = _
        rw [← List.append_assoc, hs.tasks, List.range_succ]
      · exact hs.completed_le
      · exact fun task ht => Nat.lt_succ_of_lt (hs.submitted_lt task ht)
      · intro u
        by_cases hu : u = t
        · subst hu
          simp only [GpuScheduler.setCaller, Function.update_self]
          exact Nat.lt_succ_self s.pushed
        · simp only [GpuScheduler.setCaller, Function.update_of_ne hu]
          exact (hs.calls u).mono (Nat.le_succ _) (Nat.le_refl _)
      · exact hs.returned
    | _ => simp [hpc] at h
  | synchronize t =>
    simp only [GpuScheduler.step] at h
    cases hpc : s.caller t with
    | idle =>
      rw [hpc] at h
      cases h
      exact hs.setCaller (.synchronize ⟨false, s.submitted⟩) hs.submitted_lt
    | _ => simp [hpc] at h
  | shutdown t =>
    simp only [GpuScheduler.step] at h
    cases hpc : s.caller t with
    | idle =>
      rw [hpc] at h
      cases h
      exact hs.setCaller (.test_running ⟨true, s.submitted⟩) hs.submitted_lt
    | _ => simp [hpc] at h
  | step t => exact hs.callerStep hok h
  | worker => exact hs.workerStep h
  | complete =>
    simp only [GpuScheduler.step] at h
    split_ifs at h with hlt
    cases h
    exact ⟨hs.tasks, hlt, hs.submitted_lt,
      fun u => (hs.calls u).mono (Nat.le_refl _) (Nat.le_succ _), hs.returned⟩

/-- In every run whose steps meet the condition, `synchronize` and `shutdown` return when the tasks
that were submitted before the call are executed, each once and in order. -/
theorem calls_return_after_the_tasks_while_the_queue_is_drained {as : List (SchedulerAction ι)}
    {s : GpuScheduler ι} (hm : Meets step Drained start as) (hr : run step start as = some s) :
    ∀ r ∈ s.returned, r.Settled :=
  (invariant_of_meets (fun _ a _ hs hok ht => hs.step a hok ht) inv_start hm hr).returned

/-! ## A call that returns early -/

theorem run_complete (k : Nat) (hk : s.completed + k ≤ s.issued.length) :
    run step s (List.replicate k .complete) = some { s with completed := s.completed + k } := by
  induction k generalizing s with
  | zero => rfl
  | succ k ih =>
    rw [List.replicate_succ, run_cons]
    refine ⟨{ s with completed := s.completed + 1 }, ?_, ?_⟩
    · simp only [GpuScheduler.step]
      rw [if_pos (by omega)]
    · rw [ih (by simp only; omega)]
      simp only [Option.some.injEq, GpuScheduler.mk.injEq, and_true, true_and]
      omega

/-- The condition on `synchronize` is exact: where a task is still in the queue or in the worker's
hands, the stream can complete its work and the call return without that task. -/
theorem returns_early_when_a_task_is_pending (hs : s.Inv) {before : List Nat} {task : Nat}
    (hpc : s.caller t = .synchronize ⟨false, before⟩) (hb : task ∈ before)
    (hp : task ∈ s.task_queue_ ∨ task ∈ hand s.worker) :
    ∃ as s', run step s as = some s' ∧ ⟨before, s.issued⟩ ∈ s'.returned ∧
      ¬ Returned.Settled ⟨before, s.issued⟩ := by
  let w := s.setCaller t (.wait ⟨false, before⟩ s.issued.length)
  let d := { w with completed := s.completed + (s.issued.length - s.completed) }
  have hle := hs.completed_le
  have hcall : step s (.step t) = some w := by
    simp only [GpuScheduler.step, GpuScheduler.callerStep, hpc]
    rfl
  have hdone : run step w (List.replicate (s.issued.length - s.completed) .complete) = some d :=
    run_complete _ (by simp only [w, GpuScheduler.setCaller]; omega)
  have hret : run step d [.step t] = some (d.ret t ⟨false, before⟩) := by
    rw [run_cons]
    refine ⟨_, ?_, rfl⟩
    simp only [GpuScheduler.step, GpuScheduler.callerStep, d, w, GpuScheduler.setCaller,
      Function.update_self]
    rw [if_pos (by omega)]
    rfl
  have hexec : d.executed = s.issued := by
    simp only [executed, d, w, GpuScheduler.setCaller]
    rw [List.take_of_length_le (by omega)]
  refine ⟨_, _, run_append ((run_cons ..).mpr ⟨w, hcall, hdone⟩) hret, ?_, ?_⟩
  · rw [← hexec]
    exact List.mem_append_right _ (List.mem_singleton_self _)
  · intro hset
    have hnodup : (s.issued ++ hand s.worker ++ s.task_queue_).Nodup := by
      rw [hs.tasks]
      exact List.nodup_range
    have hissued : task ∈ s.issued := by
      have hcount := hset.2 task hb
      exact List.count_pos_iff.mp (by simp only at hcount; omega)
    rw [List.append_assoc, List.nodup_append] at hnodup
    have hrest : task ∈ hand s.worker ++ s.task_queue_ := List.mem_append.mpr hp.symm
    exact hnodup.2.2 task hissued task hrest rfl

end

/-- One thread submits two tasks and waits for them, another one shuts the scheduler down. -/
def drainThenShutdown : List (SchedulerAction Bool) :=
  [.submit false, .step false, .worker, .worker, .submit false, .step false, .worker, .worker,
    .worker, .worker, .synchronize false, .step false, .complete, .complete, .step false,
    .shutdown true, .step true, .step true, .step true, .step true, .worker, .step true,
    .step true, .shutdown false, .step false]

theorem drained_tasks_are_executed :
    ∃ s : GpuScheduler Bool, run step start drainThenShutdown = some s ∧
      s.returned = [⟨[0, 1], [0, 1]⟩, ⟨[0, 1], [0, 1]⟩, ⟨[0, 1], [0, 1]⟩] ∧
      ∀ r ∈ s.returned, r.Settled := by
  have hr : ∃ s : GpuScheduler Bool, run step start drainThenShutdown = some s ∧
      s.returned = [⟨[0, 1], [0, 1]⟩, ⟨[0, 1], [0, 1]⟩, ⟨[0, 1], [0, 1]⟩] :=
    exists_of_any (by decide +kernel)
  obtain ⟨s, hr, hret⟩ := hr
  exact ⟨s, hr, hret, calls_return_after_the_tasks_while_the_queue_is_drained
    (by decide +kernel) hr⟩

/-- `synchronize` does not look at the queue, and neither does `shutdown`. -/
def waitForTheStream : List (SchedulerAction Bool) :=
  [.submit false, .step false, .synchronize false, .step false, .step false, .shutdown true,
    .step true, .step true, .worker, .step true, .step true, .step true, .step true]

theorem calls_return_before_the_task_is_executed :
    ∃ s : GpuScheduler Bool, run step start waitForTheStream = some s ∧
      (s.returned = [⟨[0], []⟩, ⟨[0], []⟩] ∧ s.worker = .exited ∧ s.task_queue_ = [0]) :=
  exists_of_any (by decide +kernel)

end GpuScheduler

end sci.gpu
