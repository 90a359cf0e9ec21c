-- An executor without a thread pool (src/scheduler/task_graph.cpp): `execute` runs the tasks
-- itself, pass by pass, and it returns if and only if no task fails that another one depends on.
import Scicompute.GraphExecutorLaws
import Scicompute.TaskGraphQueries

open Transition Relation

namespace sci

open sci.Task (Id)

variable {ι : Type*}

namespace ExecutorSystem

/-! ## The caller -/

/-- What `func_` does when the caller runs a task. -/
def outcome (out : Id → Outcome) : MainPc → Outcome
  | .inline id _ _ => out id
  | _ => .returns .kCompleted

/-- The next step of a caller that no other thread disturbs. -/
def alone (out : Id → Outcome) (s : ExecutorSystem ι) : Option (ExecutorSystem ι) :=
  s.mainStep (outcome out s.main)

/-- The status that a run of the task stores. -/
def ranStatus (out : Id → Outcome) (id : Id) : Task.Status :=
  (FunctionalTask.execute (out id)).getD .kPending

/-- The memory when some tasks have been run, the last one first. -/
def memoryAfter (out : Id → Outcome) (m : Memory) (done : List Id) : Memory :=
  { m with
    completed_tasks_ := done.toFinset
    completed_ := done.length
    status := fun id => if id ∈ done then ranStatus out id else m.status id
    started := done
    ended := done
    counted := done }

/-- The caller stands at `pc` and has run some tasks. -/
def after (out : Id → Outcome) (s : ExecutorSystem ι) (done : List Id) (pc : MainPc) :
    ExecutorSystem ι :=
  { s with main := pc, memory := memoryAfter out s.memory done }

/-- What `execute` has found and left when its loop begins. -/
structure Entered (s : ExecutorSystem ι) : Prop where
  thread_pool_ : s.memory.thread_pool_ = false
  running_tasks_ : s.memory.running_tasks_ = ∅
  cancelled_ : s.memory.cancelled_ = false
  mtx_ : s.memory.mtx_ = false

variable {out : Id → Outcome} {s : ExecutorSystem ι}

/-! ## One pass of the loop -/

/-- `get_ready_tasks` looks at the dependencies of a task. -/
theorem goes_load_dependency (done : List Id) (id : Id) (deps todo ready : List Id) :
    Goes (alone out) (after out s done (.load_dependency id deps todo ready))
      (after out s done (.get_ready_tasks todo
        (if ∀ dep ∈ deps, s.graph.1.has_task dep = true ∧
            (memoryAfter out s.memory done).status dep = .kCompleted then ready ++ [id]
          else ready))) := by
  induction deps with
  | nil =>
    refine goes_cons (t := after out s done (.get_ready_tasks todo (ready ++ [id]))) rfl ?_
    rw [if_pos (fun dep hd => absurd hd List.not_mem_nil)]
    exact .refl
  | cons dep deps ih =>
    by_cases hdep : s.graph.1.has_task dep = true ∧
        (memoryAfter out s.memory done).status dep = .kCompleted
    · refine goes_cons (t := after out s done (.load_dependency id deps todo ready)) ?_ ?_
      · have hnot : ¬ (s.graph.1.has_task dep = false ∨
            (memoryAfter out s.memory done).status dep ≠ .kCompleted) := by
          simp [hdep]
        exact if_neg hnot
      · simpa [hdep] using ih
    · refine goes_cons (t := after out s done (.get_ready_tasks todo ready)) ?_ ?_
      · have hor : s.graph.1.has_task dep = false ∨
            (memoryAfter out s.memory done).status dep ≠ .kCompleted := by
          rw [← Bool.not_eq_true]
          exact not_and_or.mp hdep
        exact if_pos hor
      · rw [if_neg (fun h => hdep (h dep (List.mem_cons_self ..)))]
        exact .refl

theorem goes_get_ready_tasks (done todo ready : List Id) :
    Goes (alone out) (after out s done (.get_ready_tasks todo ready))
      (after out s done (.process (ready ++
        s.graph.1.get_ready_tasks (memoryAfter out s.memory done).status todo))) := by
  induction todo generalizing ready with
  | nil =>
    refine goes_cons (t := after out s done (.process ready)) rfl ?_
    rw [TaskGraph.get_ready_tasks, List.filter_nil, List.append_nil]
    exact .refl
  | cons id todo ih =>
    rw [TaskGraph.get_ready_tasks_cons]
    by_cases hp : (memoryAfter out s.memory done).status id = .kPending
    · refine goes_cons (t := after out s done
        (.load_dependency id (s.graph.1.get_dependencies id) todo ready))
        (if_neg (not_not.mpr hp)) ?_
      refine (goes_load_dependency done id _ todo ready).trans ?_
      simp only [hp, true_and]
      split_ifs
      · have hassoc := ih (ready ++ [id])
        rw [List.append_assoc, List.singleton_append] at hassoc
        exact hassoc
      · exact ih ready
    · refine goes_cons (t := after out s done (.get_ready_tasks todo ready)) (if_pos hp) ?_
      rw [if_neg (fun h => hp h.1)]
      exact ih ready

theorem update_status (m : Memory) (done : List Id) {id : Id} {status : Task.Status}
    (hstatus : FunctionalTask.execute (out id) = some status) :
    Function.update (memoryAfter out m done).status id status =
      (memoryAfter out m (id :: done)).status := by
  funext x
  by_cases hx : x = id
  · subst hx
    simp [memoryAfter, ranStatus, hstatus]
  · simp [memoryAfter, hx]

/-- The caller runs a task that is in neither set. -/
theorem goes_run (h : Entered s) {done : List Id} {id : Id} (ready : List Id)
    (htask : s.graph.1.has_task id = true) (hnew : id ∉ done)
    (hout : (FunctionalTask.execute (out id)).isSome) :
    Goes (alone out) (after out s done (.process (id :: ready)))
      (after out s (id :: done) (.process ready)) := by
  obtain ⟨status, hstatus⟩ := Option.isSome_iff_exists.mp hout
  let m := memoryAfter out s.memory done
  refine goes_cons (t := after out s done (.lock id ready)) ?_ ?_
  · simp [alone, mainStep, processStep, after, memoryAfter, h.cancelled_, htask]
  let m1 : Memory := { m with running_tasks_ := {id} }
  refine goes_cons (t := { s with main := .add_running id ready, memory := m1 }) ?_ ?_
  · simp [alone, mainStep, processStep, after, memoryAfter, h.mtx_, h.running_tasks_, hnew, m1, m]
  let m2 : Memory := { m1 with running_ := m.running_ + 1 }
  refine goes_cons (t := { s with main := .dispatch id ready, memory := m2 }) rfl ?_
  refine goes_cons (t := { s with main := .inline id .execute ready, memory := m2 }) ?_ ?_
  · exact if_neg (by simp [m2, m1, m, memoryAfter, h.thread_pool_])
  let m3 : Memory := { m2 with started := id :: m.started }
  refine goes_cons (t := { s with main := .inline id .run ready, memory := m3 }) rfl ?_
  refine goes_cons
    (t := { s with main := .inline id (.set_status status) ready, memory := m3 }) ?_ ?_
  · simp [alone, mainStep, processStep, outcome, runJob, hstatus]
  let m4 : Memory :=
    { m3 with status := Function.update m3.status id status, ended := id :: m.ended }
  refine goes_cons (t := { s with main := .inline id .lock ready, memory := m4 }) rfl ?_
  let m5 : Memory := { m4 with mtx_ := true }
  refine goes_cons (t := { s with main := .inline id .mark ready, memory := m5 }) ?_ ?_
  · simp [alone, mainStep, processStep, runJob, m5, m4, m3, m2, m1, m, memoryAfter, h.mtx_]
  let m6 : Memory :=
    { m5 with running_tasks_ := ∅, completed_tasks_ := insert id m.completed_tasks_ }
  refine goes_cons (t := { s with main := .inline id .sub_running ready, memory := m6 }) ?_ ?_
  · simp [alone, mainStep, processStep, runJob, m6, m5, m4, m3, m2, m1]
  refine goes_cons rfl (goes_cons rfl (goes_cons rfl ?_))
  apply Eq.subst (motive := fun t => Goes (alone out) t _) ?_ ReflTransGen.refl
  have hupdate := update_status s.memory done hstatus
  simp only [after, ExecutorSystem.mk.injEq, and_true]
  simp only [m6, m5, m4, m3, m2, m1, m]
  rw [hupdate]
  simp only [memoryAfter, h.running_tasks_, h.mtx_, List.toFinset_cons, List.length_cons,
    Nat.add_sub_cancel]

/-- `process_ready_tasks` runs the tasks of its list that have not been run. -/
theorem goes_process (h : Entered s) (hout : ∀ id ∈ s.graph.1.tasks_,
      (FunctionalTask.execute (out id)).isSome) (ready done : List Id)
    (htasks : ∀ id ∈ ready, id ∈ s.graph.1.tasks_) (hnodup : ready.Nodup)
    (hnew : ∀ id ∈ ready, id ∉ done) :
    Goes (alone out) (after out s done (.process ready))
      (after out s (ready.reverse ++ done) .sleep) := by
  induction ready generalizing done with
  | nil => exact goes_cons rfl .refl
  | cons id ready ih =>
    obtain ⟨hid, hrest⟩ := List.nodup_cons.mp hnodup
    obtain ⟨htask, htasks'⟩ := List.forall_mem_cons.mp htasks
    obtain ⟨hidnew, hnew'⟩ := List.forall_mem_cons.mp hnew
    refine (goes_run h ready (decide_eq_true htask) hidnew (hout id htask)).trans ?_
    rw [List.reverse_cons, List.append_assoc, List.singleton_append]
    apply ih _ htasks' hrest
    intro x hx hmem
    rcases List.mem_cons.mp hmem with rfl | hmem
    · exact hid hx
    · exact hnew' x hx hmem

/-- The tasks that are ready when some have been run. -/
def readyAfter (out : Id → Outcome) (s : ExecutorSystem ι) (done : List Id) : List Id :=
  s.graph.1.get_ready_tasks (memoryAfter out s.memory done).status s.order

/-- A task is run when it was pending, after tasks of the graph that are completed. -/
def RunInOrder (out : Id → Outcome) (s : ExecutorSystem ι) : List Id → Prop
  | [] => True
  | id :: done => id ∉ done ∧ id ∈ s.graph.1.tasks_ ∧ s.memory.status id = .kPending ∧
      (∀ dep ∈ s.graph.1.get_dependencies id,
        (memoryAfter out s.memory done).status dep = .kCompleted) ∧ RunInOrder out s done

theorem status_append (m : Memory) (l done : List Id) {x : Id} (hx : x ∉ l) :
    (memoryAfter out m (l ++ done)).status x = (memoryAfter out m done).status x := by
  simp [memoryAfter, hx]

theorem ranStatus_ne_pending {id : Id} (hout : (FunctionalTask.execute (out id)).isSome) :
    ranStatus out id ≠ .kPending := by
  obtain ⟨status, hstatus⟩ := Option.isSome_iff_exists.mp hout
  rw [ranStatus, hstatus, Option.getD_some]
  rcases execute_eq hstatus with rfl | rfl <;> simp

section
variable (hiter : s.graph.1.Iterates s.order)
  (hout : ∀ id ∈ s.graph.1.tasks_, (FunctionalTask.execute (out id)).isSome)
include hiter

theorem mem_readyAfter {done : List Id} (id : Id) : id ∈ readyAfter out s done ↔
    id ∈ s.graph.1.tasks_ ∧ (memoryAfter out s.memory done).status id = .kPending ∧
      ∀ dep ∈ s.graph.1.get_dependencies id, s.graph.1.has_task dep = true ∧
        (memoryAfter out s.memory done).status dep = .kCompleted :=
  TaskGraph.mem_get_ready_tasks hiter id

theorem nodup_readyAfter (done : List Id) : (readyAfter out s done).Nodup :=
  hiter.nodup.filter _

include hout

/-- A task that has been run is ready no more. -/
theorem not_mem_of_ready {done : List Id} {id : Id} (h : id ∈ readyAfter out s done) :
    id ∉ done := by
  intro hmem
  obtain ⟨htask, hp, -⟩ := (mem_readyAfter hiter id).mp h
  simp only [memoryAfter, if_pos hmem] at hp
  exact ranStatus_ne_pending (hout id htask) hp

theorem RunInOrder.append {done : List Id} (h : RunInOrder out s done) (ready : List Id)
    (hready : ∀ id ∈ ready, id ∈ readyAfter out s done) (hnodup : ready.Nodup) :
    RunInOrder out s (ready ++ done) := by
  induction ready with
  | nil => exact h
  | cons id ready ih =>
    obtain ⟨hid, hrest⟩ := List.nodup_cons.mp hnodup
    obtain ⟨hthis, hothers⟩ := List.forall_mem_cons.mp hready
    obtain ⟨htask, hp, hdeps⟩ := (mem_readyAfter hiter id).mp hthis
    have hnew := not_mem_of_ready hiter hout hthis
    rw [List.cons_append, RunInOrder]
    refine ⟨?_, htask, ?_, ?_, ih hothers hrest⟩
    · rw [List.mem_append]
      exact not_or.mpr ⟨hid, hnew⟩
    · simpa [memoryAfter, hnew] using hp
    · intro dep hdep
      rw [status_append]
      · exact (hdeps dep hdep).2
      · -- the ready tasks are pending still
        intro hmem
        have hpending := ((mem_readyAfter hiter dep).mp (hothers dep hmem)).2.1
        rw [(hdeps dep hdep).2] at hpending
        cases hpending

end

theorem RunInOrder.nodup {done : List Id} (h : RunInOrder out s done) : done.Nodup := by
  induction done with
  | nil => exact List.nodup_nil
  | cons id done ih => exact List.nodup_cons.mpr ⟨h.1, ih h.2.2.2.2⟩

theorem RunInOrder.subset {done : List Id} (h : RunInOrder out s done) :
    ∀ id ∈ done, id ∈ s.graph.1.tasks_ ∧ s.memory.status id = .kPending := by
  induction done with
  | nil => exact fun id hid => absurd hid List.not_mem_nil
  | cons x done ih =>
    intro id hid
    rcases List.mem_cons.mp hid with rfl | hid
    · exact ⟨h.2.1, h.2.2.1⟩
    · exact ih h.2.2.2.2 id hid

theorem RunInOrder.length_le {done : List Id} (h : RunInOrder out s done) :
    done.length ≤ s.graph.1.num_tasks := by
  rw [← List.toFinset_card_of_nodup h.nodup]
  exact Finset.card_le_card fun id hid => (h.subset id (List.mem_toFinset.mp hid)).1

/-- When as many have run as there are tasks, all have run. -/
theorem RunInOrder.all {done : List Id} (h : RunInOrder out s done)
    (hlength : done.length = s.graph.1.num_tasks) (id : Id) :
    id ∈ done ↔ id ∈ s.graph.1.tasks_ := by
  have heq : done.toFinset = s.graph.1.tasks_ := by
    apply Finset.eq_of_subset_of_card_le
    · exact fun id hid => (h.subset id (List.mem_toFinset.mp hid)).1
    · rw [List.toFinset_card_of_nodup h.nodup, hlength]
      exact Nat.le_refl _
  rw [← heq, List.mem_toFinset]

/-! ## The loop of `execute` -/

/-- A turn of the loop runs the ready tasks. -/
theorem goes_turn (h : Entered s) (hiter : s.graph.1.Iterates s.order)
    (hout : ∀ id ∈ s.graph.1.tasks_, (FunctionalTask.execute (out id)).isSome) (done : List Id) :
    Goes (alone out) (after out s done .load_cancelled)
      (after out s ((readyAfter out s done).reverse ++ done) .all_complete) := by
  refine goes_cons (t := after out s done (.get_ready_tasks s.order [])) ?_ ?_
  · simp [alone, mainStep, after, memoryAfter, h.cancelled_]
  refine (goes_get_ready_tasks done s.order []).trans ?_
  rw [List.nil_append]
  have hprocess := goes_process h hout (readyAfter out s done) done
    (fun id hid => ((mem_readyAfter hiter id).mp hid).1) (nodup_readyAfter hiter done)
    (fun id hid => not_mem_of_ready hiter hout hid)
  exact hprocess.tail rfl

theorem alone_all_complete {done : List Id} (hne : done.length ≠ s.graph.1.num_tasks) :
    alone out (after out s done .all_complete) = some (after out s done .load_cancelled) :=
  if_neg hne

/-- The loop gets to a point where all tasks have been run, or none is ready. -/
theorem exists_last_turn (h : Entered s) (hiter : s.graph.1.Iterates s.order)
    (hout : ∀ id ∈ s.graph.1.tasks_, (FunctionalTask.execute (out id)).isSome) {done : List Id}
    (hdone : RunInOrder out s done) : ∃ last, RunInOrder out s last ∧
      Goes (alone out) (after out s done .all_complete) (after out s last .all_complete) ∧
      (last.length = s.graph.1.num_tasks ∨ readyAfter out s last = []) := by
  induction hk : s.graph.1.num_tasks - done.length using Nat.strong_induction_on
    generalizing done with
  | _ k ih =>
    by_cases hall : done.length = s.graph.1.num_tasks
    · exact ⟨done, hdone, .refl, Or.inl hall⟩
    by_cases hnone : readyAfter out s done = []
    · exact ⟨done, hdone, .refl, Or.inr hnone⟩
    have hle := hdone.length_le
    have hpos := List.length_pos_iff.mpr hnone
    have hnext := hdone.append hiter hout (readyAfter out s done).reverse
      (fun id hid => List.mem_reverse.mp hid)
      (List.nodup_reverse.mpr (nodup_readyAfter hiter done))
    obtain ⟨last, hlast, hgoes, hend⟩ := ih _ (by
      rw [← hk, List.length_append, List.length_reverse]
      omega) hnext rfl
    have hturn := goes_cons (alone_all_complete hall) (goes_turn h hiter hout done)
    exact ⟨last, hlast, hturn.trans hgoes, hend⟩

/-- A loop that finds no ready task turns for ever. -/
theorem turns_for_ever (h : Entered s) (hiter : s.graph.1.Iterates s.order)
    (hout : ∀ id ∈ s.graph.1.tasks_, (FunctionalTask.execute (out id)).isSome) {done : List Id}
    (hne : done.length ≠ s.graph.1.num_tasks) (hnone : readyAfter out s done = []) :
    TransGen (fun s t => alone out s = some t) (after out s done .all_complete)
      (after out s done .all_complete) := by
  have hturn := goes_turn h hiter hout done
  rw [hnone, List.reverse_nil, List.nil_append] at hturn
  exact .head' (alone_all_complete hne) hturn

/-- A loop that has run all tasks returns. -/
theorem goes_returned (h : Entered s) {done : List Id}
    (hall : done.length = s.graph.1.num_tasks) :
    Goes (alone out) (after out s done .all_complete) (after out s done (.returned .Ok)) := by
  refine goes_cons (t := after out s done .load_result) (if_pos hall) (goes_cons ?_ .refl)
  simp [alone, mainStep, after, memoryAfter, h.cancelled_]

/-! ## When `execute` returns -/

/-- All tasks are pending, and those that another one depends on do not fail. -/
def Completes (out : Id → Outcome) (g : TaskGraph) (status : Id → Task.Status) : Prop :=
  ∀ id ∈ g.tasks_, status id = .kPending ∧
    (g.get_dependents id ≠ [] → FunctionalTask.execute (out id) = some .kCompleted)

theorem ranStatus_eq_completed {id : Id} :
    ranStatus out id = .kCompleted ↔ FunctionalTask.execute (out id) = some .kCompleted := by
  rw [ranStatus]
  cases FunctionalTask.execute (out id) with
  | none => simp
  | some status => simp

theorem RunInOrder.completes {done : List Id} (h : RunInOrder out s done)
    (hlength : done.length = s.graph.1.num_tasks)
    (hjoin : s.graph.1.Joined) : Completes out s.graph.1 s.memory.status := by
  have hmem := h.all hlength
  intro id hid
  have hpending := (h.subset id ((hmem id).mpr hid)).2
  refine ⟨hpending, ?_⟩
  intro hne
  obtain ⟨b, hb⟩ := List.exists_mem_of_ne_nil _ hne
  have hbdone : b ∈ done := (hmem b).mpr (hjoin id b hb).2
  -- at the time of `b` the task was completed, so it had been run
  have hrun : ∀ l : List Id, RunInOrder out s l → b ∈ l → ranStatus out id = .kCompleted := by
    intro l hl hbl
    induction l with
    | nil => cases hbl
    | cons x l ih =>
      rcases List.mem_cons.mp hbl with rfl | hbl
      · have hstatus := hl.2.2.2.1 id (s.graph.2.mem_get_dependencies.mpr hb)
        simp only [memoryAfter, hpending] at hstatus
        split_ifs at hstatus
        exact hstatus
      · exact ih hl.2.2.2.2 hbl
  exact ranStatus_eq_completed.mp (hrun done h hbdone)

/-- When no task is ready that should be, a task that another one depends on has failed. -/
theorem RunInOrder.all_of_completes {done : List Id} (h : RunInOrder out s done)
    (hsound : s.graph.1.Sound) (hd : s.graph.1.IsDag) (hiter : s.graph.1.Iterates s.order)
    (hcompletes : Completes out s.graph.1 s.memory.status) (hnone : readyAfter out s done = []) :
    done.length = s.graph.1.num_tasks := by
  have hall : ∀ id ∈ s.graph.1.tasks_, id ∈ done := by
    by_contra hc
    push Not at hc
    obtain ⟨id, hid, hnot⟩ := hc
    have hstatus : ∀ x ∉ done, x ∈ s.graph.1.tasks_ →
        (memoryAfter out s.memory done).status x = .kPending := by
      intro x hx ht
      simp only [memoryAfter, if_neg hx]
      exact (hcompletes x ht).1
    obtain ⟨first, htask, hp, hdeps⟩ := hsound.exists_first_pending hd hid (hstatus id hnot hid)
    have hready : first ∈ readyAfter out s done := by
      refine (mem_readyAfter hiter first).mpr ⟨htask, hp, ?_⟩
      intro dep hdep
      have hedge := s.graph.2.mem_get_dependencies.mp hdep
      have hdt := (hsound.2.joined dep first hedge).1
      have hrun : dep ∈ done := by
        by_contra hn
        exact hdeps dep hdep (hstatus dep hn hdt)
      refine ⟨decide_eq_true hdt, ?_⟩
      simp only [memoryAfter, if_pos hrun]
      exact ranStatus_eq_completed.mpr ((hcompletes dep hdt).2 (List.ne_nil_of_mem hedge))
    rw [hnone] at hready
    cases hready
  have heq : done.toFinset = s.graph.1.tasks_ := by
    ext id
    rw [List.mem_toFinset]
    exact ⟨fun hid => (h.subset id hid).1, hall id⟩
  rw [TaskGraph.num_tasks, ← heq, List.toFinset_card_of_nodup h.nodup]

/-- The list of the tasks that have been run, last one first, is an order of the dependencies. -/
theorem RunInOrder.ordered {done : List Id} (h : RunInOrder out s done)
    (hjoin : s.graph.1.Joined)
    (hpending : ∀ id ∈ s.graph.1.tasks_, s.memory.status id = .kPending) :
    DepthFirst.Ordered s.graph.1.get_dependencies done := by
  induction done with
  | nil => trivial
  | cons id done ih =>
    obtain ⟨hnew, htask, -, hdeps, hrest⟩ := h
    refine ⟨hnew, ?_, ih hrest⟩
    intro dep hdep
    by_contra hnot
    have hdt := (hjoin dep id (s.graph.2.mem_get_dependencies.mp hdep)).1
    have hstatus := hdeps dep hdep
    simp only [memoryAfter, if_neg hnot, hpending dep hdt] at hstatus
    cases hstatus

/-- What the overload with a callback passes to it when the inner call has returned. -/
def progress_cb (s : ExecutorSystem ι) : Option (Nat × Nat) :=
  if 0 < s.graph.1.num_tasks then some (s.memory.completed_, s.graph.1.num_tasks) else none

/-- The executor when `execute` has reset it. -/
def entered (s : ExecutorSystem ι) : ExecutorSystem ι :=
  { s with memory := { s.memory with
      cancelled_ := false, completed_ := 0, running_tasks_ := ∅, completed_tasks_ := ∅ } }

variable [DecidableEq ι] {t : ExecutorSystem ι} {graph : { g : TaskGraph // g.Built }}
  {order : List Id}

theorem goes_entered (hc : s.step (.call graph order) = some t) (hmtx : s.memory.mtx_ = false)
    (hvalid : graph.1.is_valid order = some true) :
    Goes (alone out) t (after out (entered t) [] .all_complete) := by
  simp only [step] at hc
  split_ifs at hc
  cases hc
  refine goes_cons rfl (goes_cons rfl (goes_cons (if_neg (by simp [hmtx])) (goes_cons ?_ .refl)))
  simp only [alone, mainStep, hvalid]
  simp [after, entered, memoryAfter]

/-- A call without a thread pool, undisturbed and on a valid graph in which no task throws what is not
a `std::exception`, returns if and only if all tasks are pending and no task fails that another one
depends on. Then it returns Ok; it has run each task once, after those that it depends on; each task
has the status that its run gave it; and a callback would be told that all are completed. -/
theorem execute_alone_returns_iff (hc : s.step (.call graph order) = some t)
    (hpool : s.memory.thread_pool_ = false) (hmtx : s.memory.mtx_ = false)
    (hvalid : graph.1.is_valid order = some true)
    (hout : ∀ id ∈ graph.1.tasks_, (FunctionalTask.execute (out id)).isSome) :
    ((∃ u result, Goes (alone out) t u ∧ u.main = .returned result) ↔
      Completes out graph.1 s.memory.status) ∧
    ∀ u result, Goes (alone out) t u → u.main = .returned result →
      result = .Ok ∧ u.memory.started.Nodup ∧
      (∀ id, id ∈ u.memory.started ↔ id ∈ graph.1.tasks_) ∧
      (∀ a, ∀ b ∈ graph.1.get_dependents a,
        u.memory.started.idxOf b < u.memory.started.idxOf a) ∧
      (∀ id ∈ graph.1.tasks_, FunctionalTask.execute (out id) = some (u.memory.status id)) ∧
      u.progress_cb =
        if 0 < graph.1.num_tasks then some (graph.1.num_tasks, graph.1.num_tasks) else none := by
  have hstart : Goes (alone out) t (after out (entered t) [] .all_complete) :=
    goes_entered hc hmtx hvalid
  have hcall := hc
  simp only [step] at hcall
  split_ifs at hcall with hready
  have hgraph : t.graph = graph := by cases hcall; rfl
  have hsorder : t.order = order := by cases hcall; rfl
  have hstatus : t.memory.status = s.memory.status := by cases hcall; rfl
  have hentered : Entered (entered t) :=
    ⟨by cases hcall; exact hpool, rfl, rfl, by cases hcall; exact hmtx⟩
  subst hgraph hsorder
  have hiter : t.graph.1.Iterates t.order := hready.2
  have hsound : t.graph.1.Sound :=
    ⟨t.graph.2, fun e he => TaskGraph.mem_tasks_of_is_valid hvalid (TaskGraph.mem_pairs.mp he)⟩
  have hd := (hsound.is_dag_iff hiter).mp (TaskGraph.is_dag_of_is_valid hvalid)
  rw [← hstatus]
  obtain ⟨last, hlast, hgoes, hend⟩ :=
    exists_last_turn hentered hiter hout (show RunInOrder out (entered t) [] from trivial)
  have hlastgoes := hstart.trans hgoes
  by_cases hall : last.length = t.graph.1.num_tasks
  · -- the call returns in the state after the last task
    have hreturned := hlastgoes.trans (goes_returned hentered hall)
    have hcompletes := hlast.completes hall hsound.2.joined
    refine ⟨iff_of_true ⟨_, _, hreturned, rfl⟩ hcompletes, ?_⟩
    intro u result hu hmain
    have hueq : u = after out (entered t) last (.returned .Ok) := by
      refine hu.end_unique hreturned ?_ rfl
      simp [alone, mainStep, hmain]
    subst hueq
    have hmem := hlast.all hall
    have hord := hlast.ordered hsound.2.joined fun id hid => (hcompletes id hid).1
    refine ⟨(MainPc.returned.inj hmain).symm, hlast.nodup, hmem, ?_, ?_, ?_⟩
    · intro a b hb
      exact hord.idxOf_lt ((hmem b).mpr (hsound.2.joined a b hb).2)
        (t.graph.2.mem_get_dependencies.mpr hb)
    · intro id hid
      obtain ⟨status, hst⟩ := Option.isSome_iff_exists.mp (hout id hid)
      simp [after, memoryAfter, (hmem id).mpr hid, ranStatus, hst]
    · simp only [progress_cb, after, memoryAfter, hall]
      rfl
  · have hnone := hend.resolve_left hall
    have hever := turns_for_ever hentered hiter hout hall hnone
    have hnot : ∀ u result, Goes (alone out) t u → u.main ≠ .returned result := by
      intro u result hu hmain
      refine hu.not_ends hlastgoes hever ?_
      simp [alone, mainStep, hmain]
    refine ⟨iff_of_false ?_ ?_, fun u result hu hmain => absurd hmain (hnot u result hu)⟩
    · rintro ⟨u, result, hu, hmain⟩
      exact hnot u result hu hmain
    · exact fun hcompletes => hall (hlast.all_of_completes hsound hd hiter hcompletes hnone)

/-- One of two tasks throws. -/
def throwsAt (x id : Id) : Outcome := if id = x then .throws_exception else .returns .kCompleted

/-- The call returns when the second task throws, and not when the first one does. -/
theorem the_last_task_may_throw :
    ∃ t, (construct false true (fun _ => .kPending) : ExecutorSystem Bool).step
        (.call twoTasks [0, 1]) = some t ∧
      (∃ u result, Goes (alone (throwsAt 1)) t u ∧ u.main = .returned result) ∧
      ¬ ∃ u result, Goes (alone (throwsAt 0)) t u ∧ u.main = .returned result := by
  have hsome : ((construct false true (fun _ => .kPending) : ExecutorSystem Bool).step
      (.call twoTasks [0, 1])).isSome = true := by decide
  obtain ⟨t, ht⟩ := Option.isSome_iff_exists.mp hsome
  have hout : ∀ x, ∀ id ∈ twoTasks.1.tasks_, (FunctionalTask.execute (throwsAt x id)).isSome := by
    intro x id _
    rw [throwsAt]
    split_ifs <;> rfl
  refine ⟨t, ht, ?_, ?_⟩
  · refine (execute_alone_returns_iff ht rfl rfl (by decide) (hout 1)).1.mpr ?_
    intro id _
    refine ⟨rfl, fun hne => ?_⟩
    have hid : id ≠ 1 := by
      rintro rfl
      exact hne (by decide)
    rw [throwsAt, if_neg hid]
    rfl
  · intro hreturns
    have hcompletes := (execute_alone_returns_iff ht rfl rfl (by decide) (hout 0)).1.mp hreturns
    have hfirst := (hcompletes 0 (by decide)).2 (by decide)
    cases hfirst

end ExecutorSystem

end sci
