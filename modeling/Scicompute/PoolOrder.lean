-- Both thread pools and the GPU scheduler are work queues (src/scheduler/thread_pool.cpp,
-- src/bridges/thread_pool_bridge.cpp, src/gpu/gpu_scheduler.cpp): whatever the threads do, tasks
-- are taken in the order in which they were accepted, and a single worker runs them one after the
-- other.
import Scicompute.WorkQueue
import Scicompute.PausedPools
import Scicompute.GpuScheduler

open Transition

namespace sci

/-! ## `ThreadPool` -/

namespace ThreadPoolSystem

variable {κ : Type*} {s t : ThreadPoolSystem κ} {w : Nat}

/-- What a work queue sees of the pool. -/
def view (s : ThreadPoolSystem κ) : WorkQueue.State where
  queue := s.pool.tasks_
  held w := inFlight (s.worker w)
  finished := s.finished
  accepted := s.accepted

theorem held_setWorker (s : ThreadPoolSystem κ) (w : Nat) (pc : WorkerPc) :
    (fun v => inFlight (Function.update s.worker w pc v)) =
      Function.update (fun v => inFlight (s.worker v)) w (inFlight pc) :=
  Function.comp_update inFlight s.worker w pc

/-- A worker that neither takes nor finishes a task. -/
theorem view_of_held {pc : WorkerPc} (hworker : t.worker = Function.update s.worker w pc)
    (hheld : inFlight pc = inFlight (s.worker w)) (htasks : t.pool.tasks_ = s.pool.tasks_)
    (hfinished : t.finished = s.finished) (haccepted : t.accepted = s.accepted) :
    t.view = s.view := by
  rw [view, view, hworker, held_setWorker, hheld, Function.update_eq_self, htasks, hfinished,
    haccepted]

theorem view_workerStep (hs : s.workerStep w = some t) : t.view = s.view ∨
    ∃ b, WorkQueue.step s.view b = some t.view ∧ b.By (w + 1) := by
  cases hpc : s.worker w with
  | pop =>
    simp only [workerStep, hpc] at hs
    split at hs
    · cases hs
    · rename_i task tasks htasks
      cases hs
      refine Or.inr ⟨.take w, ?_, Nat.lt_succ_self w⟩
      have hheld : s.view.held w = none := by
        simp only [view, hpc]
        rfl
      have hqueue : s.view.queue = task :: tasks := htasks
      simp only [WorkQueue.step, hheld, hqueue, Option.some.injEq]
      simp only [view, setWorker, held_setWorker]
      rfl
  | run task =>
    simp only [workerStep, hpc] at hs
    cases hs
    refine Or.inr ⟨.finish w, ?_, Nat.lt_succ_self w⟩
    have hheld : s.view.held w = some task := by
      simp only [view, hpc]
      rfl
    simp only [WorkQueue.step, hheld, Option.some.injEq]
    simp only [view, setWorker, held_setWorker]
    rfl
  | asleep => simp [workerStep, hpc] at hs
  | exited => simp [workerStep, hpc] at hs
  | _ =>
    left
    simp only [workerStep, hpc] at hs
    try split_ifs at hs
    all_goals
      cases hs
      exact view_of_held rfl (by rw [hpc]; rfl) rfl rfl rfl

theorem held_wakeWorkers (worker : Nat → WorkerPc) (v : Nat) :
    inFlight (Monitor.wakeAll .asleep .lock worker v) = inFlight (worker v) := by
  unfold Monitor.wakeAll
  split_ifs with h
  · rw [h]
    rfl
  · rfl

variable [DecidableEq κ]

theorem view_callerStep {c : κ} {woken : Option Nat} (hs : s.callerStep c woken = some t) :
    t.view = s.view ∨ WorkQueue.step s.view .push = some t.view := by
  cases hpc : s.caller c with
  | enqueue_push =>
    right
    simp only [callerStep, hpc] at hs
    cases hs
    rfl
  | enqueue_notify_one =>
    left
    cases woken with
    | none =>
      simp only [callerStep, hpc] at hs
      split_ifs at hs
      cases hs
      rfl
    | some v =>
      simp only [callerStep, hpc] at hs
      split_ifs at hs with hasleep
      cases hs
      exact view_of_held (s := s) (w := v) rfl (by rw [hasleep.2]; rfl) rfl rfl rfl
  | idle => simp [callerStep, hpc] at hs
  | wait_asleep => simp [callerStep, hpc] at hs
  | joined => simp [callerStep, hpc] at hs
  | _ =>
    left
    simp only [callerStep, hpc] at hs
    try split_ifs at hs
    all_goals
      cases hs
      simp only [view, setCaller, wakeWorkers, held_wakeWorkers]

/-- A step of the pool is one of the work queue, or none. -/
theorem view_step {a : ThreadPoolAction κ} (hs : s.step a = some t) : t.view = s.view ∨
    ∃ b, WorkQueue.step s.view b = some t.view ∧ b.By t.pool.workers_ := by
  cases a with
  | call c call =>
    simp only [step] at hs
    split_ifs at hs
    cases hs
    exact Or.inl rfl
  | worker w =>
    have hworkers := workers_le_of_step hs
    simp only [step] at hs
    split_ifs at hs with hw
    refine (view_workerStep hs).imp_right ?_
    rintro ⟨b, hb, hby⟩
    exact ⟨b, hb, hby.mono (hw.trans_le hworkers)⟩
  | caller c woken =>
    refine (view_callerStep hs).imp_right ?_
    intro hpush
    exact ⟨.push, hpush, trivial⟩
  | spurious u =>
    cases u with
    | inl w =>
      simp only [step] at hs
      split_ifs at hs with hasleep
      cases hs
      exact Or.inl (view_of_held (s := s) (w := w) rfl (by rw [hasleep]; rfl) rfl rfl rfl)
    | inr c =>
      simp only [step] at hs
      split_ifs at hs
      cases hs
      exact Or.inl rfl

theorem exists_workQueue_run {n : Nat} {as : List (ThreadPoolAction κ)}
    (hr : run step (start n) as = some s) : ∃ bs,
      run WorkQueue.step WorkQueue.start bs = some s.view ∧ ∀ b ∈ bs, b.By s.pool.workers_ := by
  refine (exists_run_of_simulation (f := view) (I := fun _ => True)
    (P := fun s (b : WorkQueue.Action) => b.By s.pool.workers_) ?_ trivial hr).1
  intro s a t _ hs
  exact ⟨trivial, view_step hs, fun b hb => hb.mono (workers_le_of_step hs)⟩

end ThreadPoolSystem

/-! ## `LegacyThreadPool` -/

namespace bridges.LegacyThreadPool.System

variable {κ : Type*} {s t : System κ}

def view (s : System κ) : WorkQueue.State where
  queue := s.pool.tasks_
  held w := inFlight (s.worker w)
  finished := s.finished
  accepted := s.accepted

theorem held_of_update {w : Nat} {pc : WorkerPc}
    (hworker : t.worker = Function.update s.worker w pc) :
    t.view.held = Function.update s.view.held w (inFlight pc) := by
  simp only [view, hworker]
  exact Function.comp_update inFlight s.worker w pc

theorem view_eq {u : WorkQueue.State} (hqueue : s.pool.tasks_ = u.queue)
    (hheld : s.view.held = u.held)
    (hfinished : s.finished = u.finished) (haccepted : s.accepted = u.accepted) : s.view = u := by
  cases u
  simp only at hqueue hheld hfinished haccepted
  subst hqueue hheld hfinished haccepted
  rfl

theorem view_workerMove {w : Nat} {pc : WorkerPc} (hm : WorkerMove s t w pc) : t.view = s.view ∨
    ∃ b, WorkQueue.step s.view b = some t.view ∧ b.By t.threads := by
  have hheld := held_of_update hm.worker
  have hw : w < t.threads := hm.threads.symm ▸ hm.live
  cases hm.moves with
  | stay htasks hsame hfinished =>
    left
    refine view_eq htasks ?_ hfinished hm.accepted
    rw [hheld, hsame]
    exact Function.update_eq_self w s.view.held
  | take task htasks hbefore hafter hfinished =>
    right
    refine ⟨.take w, ?_, hw⟩
    have hnone : s.view.held w = none := hbefore
    have hqueue : s.view.queue = task :: t.pool.tasks_ := htasks
    simp only [WorkQueue.step, hnone, hqueue, Option.some.injEq]
    symm
    exact view_eq rfl (by rw [hheld, hafter]) hfinished hm.accepted
  | finish task htasks hbefore hafter hfinished =>
    right
    refine ⟨.finish w, ?_, hw⟩
    have hsome : s.view.held w = some task := hbefore
    simp only [WorkQueue.step, hsome, Option.some.injEq]
    symm
    exact view_eq htasks (by rw [hheld, hafter]) hfinished hm.accepted

variable [DecidableEq κ]

theorem view_callerMove {c : κ} {pc : CallerPc} (hm : CallerMove s t c pc) : t.view = s.view ∨
    ∃ b, WorkQueue.step s.view b = some t.view ∧ b.By t.threads := by
  have hheld : t.view.held = s.view.held := by
    funext w
    exact hm.worker_congr inFlight rfl w
  rcases hm.tasks with ⟨htasks, haccepted, -⟩ | ⟨htasks, haccepted, -, -⟩
  · exact Or.inl (view_eq htasks hheld hm.finished haccepted)
  · refine Or.inr ⟨.push, ?_, trivial⟩
    simp only [WorkQueue.step, Option.some.injEq]
    symm
    exact view_eq htasks hheld hm.finished haccepted

theorem exists_workQueue_run {n : Nat} {as : List (Action κ)}
    (hr : run step (start n) as = some s) : ∃ bs,
      run WorkQueue.step WorkQueue.start bs = some s.view ∧ ∀ b ∈ bs, b.By s.threads := by
  refine (exists_run_of_simulation (f := view) (I := Inv)
    (P := fun s (b : WorkQueue.Action) => b.By s.threads) ?_ (inv_start n) hr).1
  intro s a t hinv hs
  refine ⟨inv_step a hinv hs, ?_⟩
  rcases exists_move hinv.absent hs with ⟨w, pc, hm⟩ | ⟨c, pc, hm, -⟩
  · exact ⟨view_workerMove hm, fun b hb => hb.mono (Nat.le_of_eq hm.threads.symm)⟩
  · exact ⟨view_callerMove hm, fun b hb => hb.mono hm.threads⟩

end bridges.LegacyThreadPool.System

/-! ## `GpuScheduler` -/

namespace gpu.GpuScheduler

variable {ι : Type*} {s t : GpuScheduler ι}

/-- The worker has finished a task when it has issued its work to the stream. -/
def view (s : GpuScheduler ι) : WorkQueue.State where
  queue := s.task_queue_
  held w := if w = 0 then (hand s.worker).head? else none
  finished := s.issued.reverse
  accepted := s.pushed

theorem held_update_zero (pc pc' : WorkerPc) :
    (fun w => if w = 0 then (hand pc').head? else none) =
      Function.update (fun w => if w = 0 then (hand pc).head? else none) 0 (hand pc').head? := by
  funext w
  by_cases hw : w = 0
  · rw [hw, if_pos rfl, Function.update_self]
  · rw [if_neg hw, Function.update_of_ne hw, if_neg hw]

theorem view_workerStep (hs : s.workerStep = some t) : t.view = s.view ∨
    ∃ b, WorkQueue.step s.view b = some t.view ∧ b.By 1 := by
  unfold workerStep at hs
  cases hpc : s.worker with
  | test =>
    left
    simp only [hpc, Option.some.injEq] at hs
    subst hs
    simp only [view, hpc]
    split_ifs <;> rfl
  | process_queue =>
    simp only [hpc] at hs
    split at hs
    · left
      cases hs
      simp only [view, hpc]
      rfl
    · rename_i task queue htasks
      right
      refine ⟨.take 0, ?_, Nat.lt_one_iff.mpr rfl⟩
      cases hs
      have hheld : s.view.held 0 = none := by
        simp only [view, hpc]
        rfl
      have hqueue : s.view.queue = task :: queue := htasks
      simp only [WorkQueue.step, hheld, hqueue, Option.some.injEq]
      simp only [view, held_update_zero s.worker (.execute task)]
      rfl
  | execute task =>
    right
    simp only [hpc] at hs
    refine ⟨.finish 0, ?_, Nat.lt_one_iff.mpr rfl⟩
    cases hs
    have hheld : s.view.held 0 = some task := by
      simp only [view, hpc]
      rfl
    simp only [WorkQueue.step, hheld, Option.some.injEq]
    simp only [view, held_update_zero s.worker .test, List.reverse_append]
    rfl
  | exited =>
    simp only [hpc] at hs
    cases hs

variable [DecidableEq ι]

theorem view_callerStep {c : ι} (hs : s.callerStep c = some t) : t.view = s.view := by
  unfold callerStep at hs
  split at hs
  all_goals
    try split_ifs at hs
    all_goals
      cases hs
      try rfl

theorem view_step {a : SchedulerAction ι} (hs : s.step a = some t) : t.view = s.view ∨
    ∃ b, WorkQueue.step s.view b = some t.view ∧ b.By 1 := by
  cases a with
  | submit c =>
    simp only [step] at hs
    split at hs
    · cases hs
      exact Or.inr ⟨.push, rfl, trivial⟩
    · cases hs
  | synchronize c =>
    simp only [step] at hs
    split at hs
    · cases hs
      exact Or.inl rfl
    · cases hs
  | shutdown c =>
    simp only [step] at hs
    split at hs
    · cases hs
      exact Or.inl rfl
    · cases hs
  | step c => exact Or.inl (view_callerStep hs)
  | worker => exact view_workerStep hs
  | complete =>
    simp only [step] at hs
    split_ifs at hs
    cases hs
    exact Or.inl rfl

theorem exists_workQueue_run {as : List (SchedulerAction ι)} (hr : run step start as = some s) :
    ∃ bs, run WorkQueue.step WorkQueue.start bs = some s.view ∧
      ∀ b ∈ bs, WorkQueue.Action.By 1 b := by
  have hstart : WorkQueue.start = (start : GpuScheduler ι).view := by
    have hheld : (fun _ : Nat => (none : Option Nat)) = fun w => if w = 0 then none else none := by
      funext w
      rw [ite_self]
    unfold WorkQueue.start
    rw [hheld]
    rfl
  rw [hstart]
  refine (exists_run_of_simulation (f := view) (I := fun _ => True)
    (P := fun _ (b : WorkQueue.Action) => b.By 1) ?_ trivial hr).1
  intro s a t _ hs
  exact ⟨trivial, view_step hs, fun _ => id⟩

end gpu.GpuScheduler

/-! ## The queues -/

open WorkQueue (Fifo fifo_of_run)

/-- In every run of either pool, or of the scheduler, tasks are taken in the order of their
acceptance, all but as many as there are workers are finished, and a single worker finishes them in
order. -/
theorem tasks_are_taken_in_order {κ ι : Type*} [DecidableEq κ] [DecidableEq ι] {n : Nat}
    {as : List (ThreadPoolAction κ)} {s : ThreadPoolSystem κ}
    {bs : List (bridges.LegacyThreadPool.Action κ)} {t : bridges.LegacyThreadPool.System κ}
    {cs : List (gpu.SchedulerAction ι)} {u : gpu.GpuScheduler ι}
    (hs : run ThreadPoolSystem.step (.start n) as = some s)
    (ht : run bridges.LegacyThreadPool.System.step (.start n) bs = some t)
    (hu : run gpu.GpuScheduler.step .start cs = some u) :
    Fifo s.view s.pool.workers_ ∧ Fifo t.view t.threads ∧ Fifo u.view 1 := by
  refine ⟨?_, ?_, ?_⟩
  · obtain ⟨ds, hds, hby⟩ := ThreadPoolSystem.exists_workQueue_run hs
    exact fifo_of_run hby hds
  · obtain ⟨ds, hds, hby⟩ := bridges.LegacyThreadPool.System.exists_workQueue_run ht
    exact fifo_of_run hby hds
  · obtain ⟨ds, hds, hby⟩ := gpu.GpuScheduler.exists_workQueue_run hu
    exact fifo_of_run hby hds

/-- Two tasks are queued before the only worker looks. -/
def twoTasksRun : List (ThreadPoolAction Unit) :=
  [.call () .enqueue] ++ ThreadPoolSystem.callerSteps () 6 ++ [.call () .enqueue] ++
    ThreadPoolSystem.callerSteps () 6 ++ ThreadPoolSystem.workerSteps 0 26

def twoLegacyTasksRun : List (bridges.LegacyThreadPool.Action Unit) :=
  [.call () .Enqueue] ++ bridges.LegacyThreadPool.System.callerSteps () 5 ++ [.call () .Enqueue] ++
    bridges.LegacyThreadPool.System.callerSteps () 5 ++
    bridges.LegacyThreadPool.System.workerSteps 0 21

def twoGpuTasksRun : List (gpu.SchedulerAction Unit) :=
  [.submit (), .step (), .submit (), .step ()] ++ List.replicate 6 .worker

theorem two_tasks_are_run_in_order :
    ∃ (s : ThreadPoolSystem Unit) (t : bridges.LegacyThreadPool.System Unit)
      (u : gpu.GpuScheduler Unit),
      run ThreadPoolSystem.step (.start 1) twoTasksRun = some s ∧
      run bridges.LegacyThreadPool.System.step (.start 1) twoLegacyTasksRun = some t ∧
      run gpu.GpuScheduler.step .start twoGpuTasksRun = some u ∧
      s.finished.reverse = [0, 1] ∧ t.finished.reverse = [0, 1] ∧ u.issued = [0, 1] := by
  obtain ⟨s, hs, hworkers, hlength⟩ : ∃ s : ThreadPoolSystem Unit,
      run ThreadPoolSystem.step (.start 1) twoTasksRun = some s ∧ s.pool.workers_ = 1 ∧
        s.finished.length = 2 := exists_of_any (by decide +kernel)
  obtain ⟨t, ht, hthreads, hlength'⟩ : ∃ t : bridges.LegacyThreadPool.System Unit,
      run bridges.LegacyThreadPool.System.step (.start 1) twoLegacyTasksRun = some t ∧
        t.threads = 1 ∧ t.finished.length = 2 := exists_of_any (by decide +kernel)
  obtain ⟨u, hu, hlength''⟩ : ∃ u : gpu.GpuScheduler Unit,
      run gpu.GpuScheduler.step .start twoGpuTasksRun = some u ∧ u.issued.length = 2 :=
    exists_of_any (by decide +kernel)
  obtain ⟨h, h', h''⟩ := tasks_are_taken_in_order hs ht hu
  refine ⟨s, t, u, hs, ht, hu, ?_, ?_, ?_⟩
  · have hone := h.one (Nat.le_of_eq hworkers)
    simp only [ThreadPoolSystem.view, hlength] at hone
    exact hone
  · have hone := h'.one (Nat.le_of_eq hthreads)
    simp only [bridges.LegacyThreadPool.System.view, hlength'] at hone
    exact hone
  · have hone := h''.one (Nat.le_refl 1)
    simp only [gpu.GpuScheduler.view, List.reverse_reverse, List.length_reverse, hlength''] at hone
    exact hone

end sci
