-- What `GraphExecutor::execute` keeps, and what it does not. Tasks start once, after
-- their predecessors. The status that a job gets from its task is not read: a failed task
-- counts as done, so `execute` returns `Ok` for it, and waits for its dependents without
-- end. Jobs that outlive their call report into the next one, or into freed memory.
import Scicompute.GraphExecutorRuns

open Transition Holding

namespace sci

open sci.Task (Id)

variable {ι : Type*}

namespace ExecutorSystem

/-! ## Conditions on the steps of a run -/

/-- A call of `execute` starts with no job outstanding. -/
def QuietCall (s : ExecutorSystem ι) : ExecutorAction ι → Prop
  | .call _ _ => s.NoneOutstanding
  | _ => True

/-- A call of `execute` starts with no job outstanding, on tasks that are pending. -/
def FreshCall (s : ExecutorSystem ι) : ExecutorAction ι → Prop
  | .call graph _ => s.NoneOutstanding ∧ ∀ id ∈ graph.1.tasks_, s.memory.status id = .kPending
  | _ => True

/-- No task ends failed that no other task depends on. -/
def LastTasksSucceed (s : ExecutorSystem ι) (a : ExecutorAction ι) : Prop :=
  ∀ r ∈ s.ends a, s.graph.1.get_dependents r.1 = [] → FunctionalTask.execute r.2 ≠ some .kFailed

/-- No task ends failed that another task depends on. -/
def DependenciesSucceed (s : ExecutorSystem ι) (a : ExecutorAction ι) : Prop :=
  ∀ r ∈ s.ends a, s.graph.1.get_dependents r.1 ≠ [] → FunctionalTask.execute r.2 ≠ some .kFailed

/-- No task throws on a worker what is not a `std::exception`. -/
def NoJobLost (s : ExecutorSystem ι) : ExecutorAction ι → Prop
  | .work w o => ∀ r ∈ s.ends (.work w o), FunctionalTask.execute r.2 ≠ none
  | _ => True

/-- The destructor returns when no job is queued or on a worker. -/
def DrainedAtExit (s : ExecutorSystem ι) : ExecutorAction ι → Prop
  | .main _ => s.main = .join → s.queue = [] ∧ ∀ w, s.worker w = none
  | _ => True

section
variable [Fintype ι] (s : ExecutorSystem ι) (a : ExecutorAction ι)

instance : Decidable (QuietCall s a) :=
  match a with
  | .call _ _ => inferInstanceAs (Decidable s.NoneOutstanding)
  | .destroy | .main _ | .take _ | .work _ _ | .cancel | .worker_loop => isTrue trivial

instance : Decidable (FreshCall s a) :=
  match a with
  | .call _ _ => inferInstanceAs (Decidable (_ ∧ _))
  | .destroy | .main _ | .take _ | .work _ _ | .cancel | .worker_loop => isTrue trivial

instance : Decidable (LastTasksSucceed s a) := inferInstanceAs (Decidable (∀ r ∈ s.ends a, _))

instance : Decidable (DependenciesSucceed s a) := inferInstanceAs (Decidable (∀ r ∈ s.ends a, _))

instance : Decidable (NoJobLost s a) :=
  match a with
  | .work w o => inferInstanceAs (Decidable (∀ r ∈ s.ends (.work w o), _))
  | .destroy | .main _ | .take _ | .call _ _ | .cancel | .worker_loop => isTrue trivial

instance : Decidable (DrainedAtExit s a) :=
  match a with
  | .main _ => inferInstanceAs (Decidable (_ → _ ∧ _))
  | .destroy | .work _ _ | .take _ | .call _ _ | .cancel | .worker_loop => isTrue trivial

end

variable [DecidableEq ι] {s t : ExecutorSystem ι} {as : List (ExecutorAction ι)}

theorem execute_eq {o : Outcome} {status : Task.Status}
    (h : FunctionalTask.execute o = some status) : status = .kCompleted ∨ status = .kFailed := by
  revert h
  unfold FunctionalTask.execute
  split <;> simp_all

/-! ## Small runs -/

def oneTask (id : Id) : { g : TaskGraph // g.Built } :=
  ⟨TaskGraph.empty.add_task id, .add_task id .empty⟩

/-- Task 0 is before task 1. -/
def twoTasks : { g : TaskGraph // g.Built } :=
  ⟨((TaskGraph.empty.add_task 0).add_task 1).add_edge 0 1,
    .add_edge 0 1 (.add_task 1 (.add_task 0 .empty))⟩

/-- A new executor on a pool of two workers, and pending tasks. -/
def fresh : ExecutorSystem Bool := construct true true (fun _ => .kPending)

def mains (n : Nat) : List (ExecutorAction Bool) := List.replicate n (.main (.returns .kCompleted))

def works (w : Bool) (n : Nat) (o : Outcome) : List (ExecutorAction Bool) :=
  List.replicate n (.work w o)

/-- A call on one task: it is enqueued, and the first worker takes its job. -/
def callOne : List (ExecutorAction Bool) := .call (oneTask 0) [0] :: mains 15 ++ [.take false]

/-- A call on two tasks: the first one is enqueued, and the first worker runs its job. -/
def callTwo (o : Outcome) : List (ExecutorAction Bool) :=
  .call twoTasks [0, 1] :: mains 17 ++ [.take false] ++ works false 9 o

theorem start_fresh : Start fresh := ⟨rfl, by decide, rfl⟩

/-! ## What is known when `execute` returns `Ok` -/

variable {P : TaskGraph → (Id → Task.Status) → Prop} {Q : TaskGraph → Id → Task.Status → Prop}

omit [DecidableEq ι] in
theorem InCall.counted_subset (h : InCall P Q s) {id : Id} (hid : id ∈ s.memory.counted) :
    id ∈ s.graph.1.tasks_ := (h.facts.ready .counted id hid).1

omit [DecidableEq ι] in
/-- When as many tasks are counted as there are, every task is counted. -/
theorem InCall.all_counted (h : InCall P Q s)
    (hn : s.graph.1.num_tasks ≤ s.memory.counted.length) {id : Id} (hid : id ∈ s.graph.1.tasks_) :
    id ∈ s.memory.counted := by
  have hnodup : s.memory.counted.Nodup := h.facts.apart.nodup .counted
  have hsub : s.memory.counted.toFinset ⊆ s.graph.1.tasks_ := by
    intro x hx
    exact h.counted_subset (List.mem_toFinset.mp hx)
  have heq := Finset.eq_of_subset_of_card_le hsub (by
    rw [List.toFinset_card_of_nodup hnodup]
    exact hn)
  rw [← heq] at hid
  exact List.mem_toFinset.mp hid

omit [DecidableEq ι] in
/-- `Ok` is returned when every task of a valid graph is counted. -/
theorem Inv.ok (hI : Inv P Q s) (h : s.main = .returned .Ok) :
    InCall P Q s ∧ Valid s.graph.1 s.order ∧ ∀ id ∈ s.graph.1.tasks_, id ∈ s.memory.counted := by
  rcases hI with hI | hI
  · have hmain := hI.main
    rw [h] at hmain
    exact hmain.elim
  · have hmain := hI.main
    rw [h] at hmain
    exact ⟨hI, hmain.1, fun id hid => hI.all_counted hmain.2 hid⟩

omit [DecidableEq ι] in
/-- When every task is counted, no task is with a thread. -/
theorem InCall.none_outstanding (h : InCall P Q s)
    (hall : ∀ id ∈ s.graph.1.tasks_, id ∈ s.memory.counted) : s.NoneOutstanding := by
  have hnone : ∀ u, holds s.memory s.jobs (.thread u) = [] := by
    intro u
    refine List.eq_nil_iff_forall_not_mem.mpr ?_
    intro id hid
    have hcounted : id ∈ holds s.memory s.jobs .counted :=
      hall id (h.facts.ready (.thread u) id hid).1
    have := h.facts.apart.unique hid hcounted
    cases this
  constructor
  · simpa [holds, jobs] using hnone .queue
  · intro w j hj
    have hw := hnone (.worker w)
    simp only [holds, jobs, Option.mem_def.mp hj, List.map_eq_nil_iff] at hw
    simpa using hw

omit [DecidableEq ι] in
theorem InCall.stored_of_counted (h : InCall P Q s) {id : Id} (hid : id ∈ s.memory.counted) :
    Q s.graph.1 id (s.memory.status id) := by
  apply h.stored.2 id (h.facts.past id (Or.inl hid))
  intro hl
  have := h.facts.apart.unique (h := .counted) (k := .lost) (x := id) hid hl
  cases this

/-! ## Tasks start once, after their predecessors -/

/-- In calls on pending tasks with no job outstanding, a task starts at most once, and only when
every predecessor has ended and is completed. -/
theorem tasks_start_once_and_after_their_predecessors (h0 : Start s)
    (hok : Meets step FreshCall s as) (hr : run step s as = some t) :
    t.memory.started.Nodup ∧
      ∀ id, t.AboutToStart id → ∀ dep, id ∈ t.graph.1.get_dependents dep →
        dep ∈ t.memory.ended ∧ t.memory.status dep = .kCompleted := by
  have hI : Inv (fun g status => ∀ id ∈ g.tasks_, status id = .kPending)
      (fun _ _ _ => True) t := by
    refine inv_run h0 (hok.mono ?_) hr
    intro s a ha
    refine ⟨?_, fun _ _ _ _ => trivial⟩
    rintro graph order rfl
    exact ha
  rcases hI with hI | hI
  · refine ⟨by rw [hI.started]; exact List.nodup_nil, ?_⟩
    have hmain := hI.main
    rintro id (⟨w, hw⟩ | ⟨ready, hm⟩)
    · have := hI.none.2 w (id, .execute) hw
      cases this
    · rw [hm] at hmain
      exact hmain.elim
  · refine ⟨hI.facts.nodup, ?_⟩
    intro id hstart dep hdep
    -- the job of the task is not counted, so the task was found to be ready
    have hheld : ∃ k, id ∈ holds t.memory t.jobs k := by
      rcases hstart with ⟨w, hw⟩ | ⟨ready, hm⟩
      · exact ⟨.thread (.worker w), by simp [holds, jobs, hw, uncounted]⟩
      · exact ⟨.thread .caller, by simp [holds, jobs, hm, callerJob, uncounted]⟩
    obtain ⟨k, hk⟩ := hheld
    obtain ⟨-, -, hdeps⟩ := hI.facts.ready k id hk
    obtain ⟨htask, hdone⟩ := hdeps dep (t.graph.2.mem_get_dependencies.mpr hdep)
    refine ⟨?_, hdone⟩
    by_contra hend
    rw [hI.facts.untouched dep hend, hI.initial dep htask] at hdone
    cases hdone

/-- When the second task is about to start, the first one is completed. -/
theorem second_task_starts_after_the_first :
    ∃ t, run step fresh (callTwo (.returns .kCompleted) ++ mains 14 ++ [.take false]) = some t ∧
      t.AboutToStart 1 ∧ 0 ∈ t.memory.ended ∧ t.memory.status 0 = .kCompleted := by
  obtain ⟨t, ht, hw, hg⟩ : ∃ t,
      run step fresh (callTwo (.returns .kCompleted) ++ mains 14 ++ [.take false]) = some t ∧
        t.worker false = some (1, .execute) ∧ 1 ∈ t.graph.1.get_dependents 0 :=
    exists_of_any (by decide +kernel)
  have hstart : t.AboutToStart 1 := Or.inl ⟨false, hw⟩
  have hlaw := tasks_start_once_and_after_their_predecessors start_fresh (by decide +kernel) ht
  exact ⟨t, ht, hstart, hlaw.2 1 hstart 0 hg⟩

/-! ## `Ok` and failed tasks -/

/-- As long as no task fails that nothing depends on, `Ok` says that every task is completed. -/
theorem ok_means_completed_while_last_tasks_succeed (h0 : Start s)
    (hok : Meets step (fun s a => QuietCall s a ∧ LastTasksSucceed s a) s as)
    (hr : run step s as = some t) (hret : t.main = .returned .Ok) :
    ∀ id ∈ t.graph.1.tasks_, t.memory.status id = .kCompleted := by
  have hI : Inv (fun _ _ => True)
      (fun g id status => g.get_dependents id = [] → status = .kCompleted) t := by
    refine inv_run h0 (hok.mono ?_) hr
    rintro s a ⟨hq, hlast⟩
    refine ⟨?_, ?_⟩
    · rintro graph order rfl
      exact ⟨hq, trivial⟩
    · intro r hr status hst hnil
      rcases execute_eq hst with rfl | rfl
      · rfl
      · exact absurd hst (hlast r hr hnil)
  obtain ⟨hC, ⟨-, hvalid⟩, hall⟩ := hI.ok hret
  intro id hid
  cases hdep : t.graph.1.get_dependents id with
  | nil => exact hC.stored_of_counted (hall id hid) hdep
  | cons d l =>
    -- a dependent was counted, so it was started on completed tasks
    have hd : d ∈ t.graph.1.get_dependents id := by rw [hdep]; exact List.mem_cons_self ..
    have htask := (TaskGraph.mem_tasks_of_is_valid hvalid hd).2
    obtain ⟨-, -, hdeps⟩ := hC.facts.ready .counted d (hall d htask)
    exact (hdeps id (t.graph.2.mem_get_dependencies.mpr hd)).2

theorem one_task_completes :
    ∃ t, run step fresh (callOne ++ works false 9 (.returns .kCompleted) ++ mains 2) = some t ∧
      t.main = .returned .Ok ∧ t.memory.status 0 = .kCompleted := by
  obtain ⟨t, ht, hret, htask⟩ : ∃ t,
      run step fresh (callOne ++ works false 9 (.returns .kCompleted) ++ mains 2) = some t ∧
        t.main = .returned .Ok ∧ 0 ∈ t.graph.1.tasks_ := exists_of_any (by decide +kernel)
  exact ⟨t, ht, hret, ok_means_completed_while_last_tasks_succeed start_fresh (by decide +kernel)
    ht hret 0 htask⟩

/-- The only task of a graph returns `kFailed`, and `execute` returns `Ok`. -/
theorem ok_is_returned_for_a_failed_task :
    ∃ t, run step fresh (callOne ++ works false 9 (.returns .kFailed) ++ mains 2) = some t ∧
      t.main = .returned .Ok ∧ 0 ∈ t.graph.1.tasks_ ∧ t.memory.status 0 = .kFailed :=
  exists_of_any (by decide +kernel)

/-! ## Calls of one executor -/

theorem quiet_run (h0 : Start s) (hok : Meets step QuietCall s as) (hr : run step s as = some t) :
    Inv (fun _ _ => True) (fun _ _ _ => True) t := by
  refine inv_run h0 (hok.mono ?_) hr
  intro s a ha
  refine ⟨?_, fun _ _ _ _ => trivial⟩
  rintro graph order rfl
  exact ⟨ha, trivial⟩

/-- As long as each call starts with no job outstanding, `Ok` says that every task of the call was
run to its end, and no task is run by two workers at a time. -/
theorem calls_run_their_tasks_while_they_start_quiet (h0 : Start s)
    (hok : Meets step QuietCall s as) (hr : run step s as = some t) :
    (t.main = .returned .Ok → ∀ id ∈ t.graph.1.tasks_, id ∈ t.memory.ended) ∧
      ∀ w v id, t.Runs w id → t.Runs v id → w = v := by
  have hI := quiet_run h0 hok hr
  constructor
  · intro hret id hid
    obtain ⟨hC, -, hall⟩ := hI.ok hret
    exact hC.facts.past id (Or.inl (hall id hid))
  · have hpc : ∀ w id, t.Runs w id → ∃ pc, t.worker w = some (id, pc) ∧ uncounted pc = true := by
      rintro w id (hw | ⟨status, hw⟩)
      · exact ⟨_, hw, rfl⟩
      · exact ⟨_, hw, rfl⟩
    intro w v id hw hv
    obtain ⟨pc, hw, hpcw⟩ := hpc w id hw
    obtain ⟨pc', hv, hpcv⟩ := hpc v id hv
    rcases hI with hI | hI
    · have := hI.none.2 w (id, pc) hw
      rw [hpcw] at this
      cases this
    · have h1 : id ∈ holds t.memory t.jobs (.thread (.worker w)) := by
        simp [holds, jobs, hw, hpcw]
      have h2 : id ∈ holds t.memory t.jobs (.thread (.worker v)) := by
        simp [holds, jobs, hv, hpcv]
      cases hI.facts.apart.unique h1 h2
      rfl

theorem one_task_is_run_to_its_end :
    ∃ t, run step fresh (callOne ++ works false 9 (.returns .kCompleted) ++ mains 2) = some t ∧
      t.main = .returned .Ok ∧ 0 ∈ t.memory.ended := by
  obtain ⟨t, ht, hret, htask⟩ : ∃ t,
      run step fresh (callOne ++ works false 9 (.returns .kCompleted) ++ mains 2) = some t ∧
        t.main = .returned .Ok ∧ 0 ∈ t.graph.1.tasks_ := exists_of_any (by decide +kernel)
  have hlaw := calls_run_their_tasks_while_they_start_quiet start_fresh (by decide +kernel) ht
  exact ⟨t, ht, hret, hlaw.1 hret 0 htask⟩

/-- A job of a cancelled call counts for the next call, which returns `Ok` before its task has
run; and a task that is still run by the cancelled call is run by a second worker. -/
theorem cancelled_jobs_reach_into_the_next_call :
    (∃ t, run step fresh (callOne ++ works false 1 (.returns .kCompleted) ++ [.cancel] ++ mains 3 ++
        [.call (oneTask 1) [1]] ++ mains 4 ++ works false 6 (.returns .kCompleted) ++ mains 2) =
        some t ∧ t.main = .returned .Ok ∧ 1 ∈ t.graph.1.tasks_ ∧ 1 ∉ t.memory.ended) ∧
      ∃ t, run step fresh (callOne ++ works false 1 (.returns .kCompleted) ++ [.cancel] ++ mains 3 ++
        [.call (oneTask 0) [0]] ++ mains 13 ++ [.take true] ++
        works true 1 (.returns .kCompleted)) = some t ∧ t.Runs false 0 ∧ t.Runs true 0 := by
  refine ⟨exists_of_any (by decide +kernel), ?_⟩
  obtain ⟨t, ht, hw, hv⟩ : ∃ t,
      run step fresh (callOne ++ works false 1 (.returns .kCompleted) ++ [.cancel] ++ mains 3 ++
        [.call (oneTask 0) [0]] ++ mains 13 ++ [.take true] ++
        works true 1 (.returns .kCompleted)) = some t ∧
        t.worker false = some (0, .run) ∧ t.worker true = some (0, .run) :=
    exists_of_any (by decide +kernel)
  exact ⟨t, ht, Or.inl hw, Or.inl hv⟩

/-! ## The loop of `execute` -/

/-- Only a run that ends by an exception, and its job with it, is lost. -/
theorem runJob_lost {m m' : Memory} {id : Id} {o : Outcome} {pc : JobPc} {next : Option JobPc}
    (hr : runJob m id o pc = some (m', next))
    (hrun : pc = .run → next ≠ none ∨ FunctionalTask.execute o ≠ none) : m'.lost = m.lost := by
  cases pc with
  | run =>
    simp only [runJob] at hr
    split at hr
    · cases hr
      rfl
    · rename_i hnone
      cases hr
      rcases hrun rfl with h | h
      · exact absurd rfl h
      · exact absurd hnone h
  | lock =>
    simp only [runJob] at hr
    split_ifs at hr
    cases hr
    rfl
  | _ =>
    cases hr
    rfl

/-- The call of the thread that lost a job is over. -/
def leaves : MainPc → Bool
  | .returned _ => true
  | .cancel => true
  | .join => true
  | .destroyed => true
  | _ => false

def NoLoss (s : ExecutorSystem ι) : Prop := s.memory.lost = [] ∨ leaves s.main = true

omit [DecidableEq ι] in
/-- A task is lost by the caller only when the exception leaves `execute`. -/
theorem processStep_lost {pc : MainPc} {o : Outcome} (hs : s.processStep o pc = some t) :
    t.main ≠ .destroyed ∧
      (t.memory.lost = s.memory.lost ∨ t.main = .returned .exception) := by
  cases pc with
  | get_ready_tasks todo ready =>
    cases todo <;> simp only [processStep] at hs
    · cases hs
      simp
    · split_ifs at hs <;> cases hs <;> simp
  | load_dependency id deps todo ready =>
    cases deps <;> simp only [processStep] at hs
    · cases hs
      simp
    · split_ifs at hs <;> cases hs <;> simp
  | process ready =>
    cases ready <;> simp only [processStep] at hs
    · cases hs
      simp
    · split_ifs at hs <;> cases hs <;> simp
  | lock id ready =>
    simp only [processStep] at hs
    split_ifs at hs <;> cases hs <;> simp
  | add_running id ready =>
    cases hs
    simp
  | dispatch id ready =>
    simp only [processStep] at hs
    split_ifs at hs <;> cases hs <;> simp
  | inline id pc ready =>
    simp only [processStep] at hs
    split at hs
    · cases hs
    · cases hs
      simp
    · rename_i m hr
      cases hs
      exact ⟨by simp, Or.inl (runJob_lost hr (fun _ => Or.inl (by simp)))⟩
    · rename_i m pc' _ hr
      cases hs
      exact ⟨by simp, Or.inl (runJob_lost hr (fun _ => Or.inl (by simp)))⟩
  | _ => cases hs

theorem noLoss_step {a : ExecutorAction ι} (h : NoLoss s) (hok : NoJobLost s a)
    (hs : step s a = some t) : NoLoss t := by
  cases a with
  | call graph order =>
    simp only [step] at hs
    split_ifs at hs
    cases hs
    exact Or.inl rfl
  | destroy =>
    simp only [step] at hs
    split_ifs at hs
    cases hs
    exact Or.inr rfl
  | main o =>
    simp only [step, mainStep] at hs
    rcases h with h | h
    · split at hs
      all_goals first
        | exact (processStep_lost hs).2.imp (fun he => he.trans h) (fun he => by rw [he]; rfl)
        | (split_ifs at hs <;> cases hs <;> exact Or.inl h)
        | (split at hs <;> cases hs <;> exact Or.inl h)
        | (cases hs; exact Or.inl h)
        | cases hs
    · cases hpc : s.main with
      | cancel =>
        simp only [hpc] at hs
        cases hs
        exact Or.inr rfl
      | join =>
        simp only [hpc] at hs
        split_ifs at hs
        cases hs
        exact Or.inr rfl
      | _ => simp [hpc, leaves] at h hs
  | take w =>
    simp only [step] at hs
    split at hs
    · cases hs
      exact h
    · cases hs
  | work w o =>
    simp only [step] at hs
    split at hs
    · cases hs
    · rename_i id pc hw
      split at hs
      · cases hs
      · rename_i m next hr
        cases hs
        refine h.imp_left (fun hl => (runJob_lost hr ?_).trans hl)
        rintro rfl
        exact Or.inr (hok (id, o) (by simp [ends, hw]))
  | cancel =>
    simp only [step] at hs
    split_ifs at hs
    cases hs
    exact h
  | worker_loop =>
    simp only [step] at hs
    split_ifs at hs
    cases hs
    exact h

omit [DecidableEq ι] in
/-- In a graph without cycles, something can be started as long as something is not counted. -/
theorem InCall.not_stuck
    (h : InCall (fun g status => ∀ id ∈ g.tasks_, status id = .kPending)
      (fun g id status => g.get_dependents id ≠ [] → status = .kCompleted) s)
    (hlost : s.memory.lost = []) : ¬ s.Stuck := by
  rintro ⟨hpc, hne, -, ⟨hqueue, hworker⟩, hstuck⟩
  have hmain := h.main
  rw [hpc] at hmain
  obtain ⟨horder, hvalid⟩ := hmain
  have hholds : ∀ k id, id ∈ holds s.memory s.jobs k → id ∈ s.memory.counted := by
    intro k id hk
    cases k with
    | counted => exact hk
    | lost =>
      simp only [holds, hlost] at hk
      cases hk
    | thread u =>
      cases u with
      | caller => simp [holds, jobs, hpc, callerJob] at hk
      | queue => simp [holds, jobs, hqueue] at hk
      | worker w =>
        cases hw : s.worker w with
        | none => simp [holds, jobs, hw] at hk
        | some j => simp [holds, jobs, hw, hworker w j hw] at hk
  obtain ⟨rank, hrank⟩ := TaskGraph.is_dag_rank horder (TaskGraph.is_dag_of_is_valid hvalid)
  have hall : ∀ id ∈ s.graph.1.tasks_, id ∈ s.memory.counted := by
    by_contra hc
    push Not at hc
    -- an uncounted task that no uncounted task precedes
    have hnonempty : (s.graph.1.tasks_.filter (· ∉ s.memory.counted)).Nonempty := by
      obtain ⟨id, hid, hnot⟩ := hc
      exact ⟨id, Finset.mem_filter.mpr ⟨hid, hnot⟩⟩
    obtain ⟨id, hid, hmax⟩ := Finset.exists_max_image _ rank hnonempty
    obtain ⟨htask, hnot⟩ := Finset.mem_filter.mp hid
    have hended : id ∉ s.memory.ended := by
      intro he
      obtain ⟨k, hk⟩ := h.facts.known id (Or.inr he)
      exact hnot (hholds k id hk)
    have hin := hstuck id htask (by rw [h.facts.untouched id hended, h.initial id htask]) (by
      intro dep hdep
      have hedge : id ∈ s.graph.1.get_dependents dep := s.graph.2.mem_get_dependencies.mp hdep
      have hdtask := (TaskGraph.mem_tasks_of_is_valid hvalid hedge).1
      have hdcounted : dep ∈ s.memory.counted := by
        by_contra hdn
        have := hmax dep (Finset.mem_filter.mpr ⟨hdtask, hdn⟩)
        have := hrank dep hdtask id hedge
        omega
      exact ⟨decide_eq_true hdtask, h.stored_of_counted hdcounted
        (List.ne_nil_of_mem hedge)⟩)
    obtain ⟨k, hk⟩ := (h.facts.sets id).mp hin
    exact hnot (hholds k id hk)
  apply hne
  have hnodup : s.memory.counted.Nodup := h.facts.apart.nodup .counted
  have heq : s.memory.counted.toFinset = s.graph.1.tasks_ := by
    ext id
    rw [List.mem_toFinset]
    exact ⟨h.counted_subset, hall id⟩
  rw [h.facts.count, TaskGraph.num_tasks, ← heq, List.toFinset_card_of_nodup hnodup]

/-- As long as calls are on pending tasks with no job outstanding, no task fails that another one
depends on, and no job is lost, the loop of `execute` can always go on. -/
theorem execute_is_never_stuck_while_dependencies_succeed (h0 : Start s)
    (hlost : s.memory.lost = [])
    (hok : Meets step (fun s a => FreshCall s a ∧ DependenciesSucceed s a ∧ NoJobLost s a) s as)
    (hr : run step s as = some t) : ¬ t.Stuck := by
  have hI : Inv (fun g status => ∀ id ∈ g.tasks_, status id = .kPending)
      (fun g id status => g.get_dependents id ≠ [] → status = .kCompleted) t := by
    refine inv_run h0 (hok.mono ?_) hr
    rintro s a ⟨hf, hd, -⟩
    refine ⟨?_, ?_⟩
    · rintro graph order rfl
      exact hf
    · intro r hr status hst hne
      rcases execute_eq hst with rfl | rfl
      · rfl
      · exact absurd hst (hd r hr hne)
  have hloss : NoLoss t :=
    invariant_of_meets (fun _ _ _ h hok hs => noLoss_step h hok.2.2 hs) (Or.inl hlost) hok hr
  intro hstuck
  rcases hI with hI | hI
  · have hmain := hI.main
    rw [hstuck.1] at hmain
    exact hmain.elim
  · refine hI.not_stuck (hloss.resolve_right ?_) hstuck
    rw [hstuck.1]
    simp [leaves]

theorem two_tasks_are_not_stuck :
    ∃ t, run step fresh (callTwo (.returns .kCompleted)) = some t ∧ ¬ t.Stuck := by
  obtain ⟨t, ht, -⟩ : ∃ t, run step fresh (callTwo (.returns .kCompleted)) = some t ∧ True :=
    exists_of_any (by decide +kernel)
  exact ⟨t, ht, execute_is_never_stuck_while_dependencies_succeed start_fresh rfl
    (by decide +kernel) ht⟩

/-- The first of two tasks returns `kFailed`: the second one can never start, and `execute`
waits for it. -/
theorem execute_is_stuck_after_a_failed_dependency :
    ∃ t, run step fresh (callTwo (.returns .kFailed)) = some t ∧ t.Stuck :=
  exists_of_any (by decide +kernel)

/-! ## The destructor -/

omit [DecidableEq ι] in
/-- Only the last step of the destructor destroys the executor. -/
theorem mainStep_destroyed {o : Outcome} (hs : s.mainStep o = some t) (hd : t.main = .destroyed) :
    s.main = .join ∧ t.queue = s.queue ∧ t.worker = s.worker := by
  cases hpc : s.main with
  | join =>
    simp only [mainStep, hpc] at hs
    split_ifs at hs
    cases hs
    exact ⟨rfl, rfl, rfl⟩
  | is_valid =>
    simp only [mainStep, hpc] at hs
    split at hs <;> cases hs <;> cases hd
  | store_cancelled | store_completed | sleep | cancel =>
    simp only [mainStep, hpc] at hs
    cases hs
    cases hd
  | clear | all_complete | load_cancelled | load_result =>
    simp only [mainStep, hpc] at hs
    split_ifs at hs <;> cases hs <;> cases hd
  | idle | returned _ | destroyed => simp [mainStep, hpc] at hs
  | _ =>
    simp only [mainStep, hpc] at hs
    exact absurd hd (processStep_lost hs).1

theorem destroyed_step {a : ExecutorAction ι}
    (hI : s.main = .destroyed → s.queue = [] ∧ ∀ w, s.worker w = none) (hok : DrainedAtExit s a)
    (hs : step s a = some t) (hd : t.main = .destroyed) :
    t.queue = [] ∧ ∀ w, t.worker w = none := by
  cases a with
  | call graph order =>
    simp only [step] at hs
    split_ifs at hs
    cases hs
    cases hd
  | destroy =>
    simp only [step] at hs
    split_ifs at hs
    cases hs
    cases hd
  | main o =>
    obtain ⟨hjoin, hqueue, hworker⟩ := mainStep_destroyed hs hd
    rw [hqueue, hworker]
    exact hok hjoin
  | take w =>
    simp only [step] at hs
    split at hs
    · rename_i id queue hw hqueue
      cases hs
      rw [(hI hd).1] at hqueue
      cases hqueue
    · cases hs
  | work w o =>
    simp only [step] at hs
    split at hs
    · cases hs
    · rename_i id pc hw
      split at hs
      · cases hs
      · cases hs
        rw [(hI hd).2 w] at hw
        cases hw
  | cancel =>
    simp only [step] at hs
    split_ifs at hs
    cases hs
    exact hI hd
  | worker_loop =>
    simp only [step] at hs
    split_ifs at hs
    cases hs
    exact hI hd

/-- When calls that start quiet return `Ok`, all that is left of their jobs is the end of the
lock and the notification. -/
theorem quiet_run_ok (h0 : Start s) (hok : Meets step QuietCall s as)
    (hr : run step s as = some t) (hret : t.main = .returned .Ok) : t.NoneOutstanding := by
  obtain ⟨hC, -, hall⟩ := (quiet_run h0 hok hr).ok hret
  exact hC.none_outstanding hall

/-- As long as the destructor returns only when no job is left, no job uses the destroyed
executor. After an `Ok` the jobs that can be left are those past their count. -/
theorem no_job_uses_the_executor_while_it_is_drained_at_exit (h0 : s.main = .idle)
    (hok : Meets step DrainedAtExit s as) (hr : run step s as = some t) :
    (t.main = .destroyed → ∀ w, ¬ t.UsesExecutor w) ∧
      (Start s → Meets step QuietCall s as → t.main = .returned .Ok → t.NoneOutstanding) := by
  have hI : t.main = .destroyed → t.queue = [] ∧ ∀ w, t.worker w = none := by
    refine invariant_of_meets (I := fun s => s.main = .destroyed →
      s.queue = [] ∧ ∀ w, s.worker w = none) ?_ (by rw [h0]; simp) hok hr
    intro s a t hI ha hs hd
    exact destroyed_step hI ha hs hd
  refine ⟨?_, fun hstart hquiet => quiet_run_ok hstart hquiet hr⟩
  rintro hd w ⟨id, pc, hw, -⟩
  rw [(hI hd).2 w] at hw
  cases hw

/-- The caller of one task returns and destroys the executor after the job of the task has ended. -/
theorem drained_executor_is_not_used :
    ∃ t, run step fresh (callOne ++ works false 9 (.returns .kCompleted) ++ mains 2 ++ [.destroy] ++
      mains 1 ++ [.worker_loop] ++ mains 1) = some t ∧ t.main = .destroyed ∧
      ∀ w, ¬ t.UsesExecutor w := by
  obtain ⟨t, ht, hd⟩ : ∃ t,
      run step fresh (callOne ++ works false 9 (.returns .kCompleted) ++ mains 2 ++ [.destroy] ++
        mains 1 ++ [.worker_loop] ++ mains 1) = some t ∧ t.main = .destroyed :=
    exists_of_any (by decide +kernel)
  have hlaw := no_job_uses_the_executor_while_it_is_drained_at_exit rfl (by decide +kernel) ht
  exact ⟨t, ht, hd, hlaw.1 hd⟩

/-- The caller sees the count of the last job, returns, and destroys the executor while the job
still holds its lock. -/
theorem a_job_uses_the_destroyed_executor :
    ∃ t, run step fresh (callOne ++ works false 7 (.returns .kCompleted) ++ mains 2 ++ [.destroy] ++
      mains 1 ++ [.worker_loop] ++ mains 1) = some t ∧ t.main = .destroyed ∧
      t.UsesExecutor false := by
  obtain ⟨t, ht, hd, hw⟩ : ∃ t,
      run step fresh (callOne ++ works false 7 (.returns .kCompleted) ++ mains 2 ++ [.destroy] ++
        mains 1 ++ [.worker_loop] ++ mains 1) = some t ∧
        t.main = .destroyed ∧ t.worker false = some (0, .unlock) :=
    exists_of_any (by decide +kernel)
  exact ⟨t, ht, hd, 0, .unlock, hw, trivial⟩

end ExecutorSystem

end sci
