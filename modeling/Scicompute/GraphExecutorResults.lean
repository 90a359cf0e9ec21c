-- What tasks compute from the results of the tasks that they depend on, when a
-- `GraphExecutor` runs them (src/scheduler/task_graph.cpp). While `func_` runs, it reads those
-- results in any order, and at its end it leaves a result of its own. Whatever the workers do, the
-- results are those of the tasks taken one after the other.
import Scicompute.Dataflow
import Scicompute.GraphExecutorLaws
import Scicompute.TopologicalSort

open Transition Holding Dataflow DepthFirst

namespace sci

open sci.Task (Id)

variable {ι V : Type*}

deriving instance DecidableEq for Outcome

namespace ExecutorSystem

/-! ## Who runs a job -/

/-- The job of a worker, or the one that the caller runs itself. -/
def stands (s : ExecutorSystem ι) : Option ι → Option (Id × JobPc)
  | some w => s.worker w
  | none =>
    match s.main with
    | .inline id pc _ => some (id, pc)
    | _ => none

def threadOf : Option ι → Thread ι
  | some w => .worker w
  | none => .caller

/-- A thread takes a step of its job. -/
structure StepsJob (s s' : ExecutorSystem ι) (a : ExecutorAction ι) (u : Option ι) (id : Id)
    (pc : JobPc) (o : Outcome) (next : Option JobPc) : Prop where
  stood : s.stands u = some (id, pc)
  ran : runJob s.memory id o pc = some (s'.memory, next)
  stands : ∀ j, s'.stands u = some j → j.1 = id ∧ next = some j.2
  others : ∀ v, v ≠ u → s'.stands v = s.stands v
  graph : s'.graph = s.graph
  ends : s.ends a = if pc = .run then some (id, o) else none

/-- No thread takes a step of its job. -/
structure StepsApart (s s' : ExecutorSystem ι) (a : ExecutorAction ι) : Prop where
  stands : ∀ v j, s'.stands v = some j → j.2 = .execute ∨ s.stands v = some j
  graph : s'.graph = s.graph
  started : s'.memory.started = s.memory.started
  ended : s'.memory.ended = s.memory.ended
  ends : s.ends a = none

variable {s s' : ExecutorSystem ι} {a : ExecutorAction ι}

/-- The caller reads, or changes the flags and the sets. -/
theorem stepsApart_of_main {o : Outcome} (hworker : s'.worker = s.worker)
    (hgraph : s'.graph = s.graph) (hstarted : s'.memory.started = s.memory.started)
    (hended : s'.memory.ended = s.memory.ended)
    (hold : s.stands none = none) (hnew : ∀ j, s'.stands none = some j → j.2 = .execute) :
    StepsApart s s' (.main o) := by
  refine ⟨?_, hgraph, hstarted, hended, ?_⟩
  · rintro (_ | w) j hj
    · exact Or.inl (hnew j hj)
    · refine Or.inr ?_
      rw [stands, hworker] at hj
      exact hj
  · simp only [ends]
    split
    · rename_i h
      simp [stands, h] at hold
    · rfl

theorem stepsApart_of_quiet {o : Outcome} (hworker : s'.worker = s.worker)
    (hgraph : s'.graph = s.graph) (hstarted : s'.memory.started = s.memory.started)
    (hended : s'.memory.ended = s.memory.ended)
    (hold : s.stands none = none) (hnew : s'.stands none = none) :
    StepsApart s s' (.main o) := by
  apply stepsApart_of_main hworker hgraph hstarted hended hold
  intro j hj
  rw [hnew] at hj
  cases hj

theorem mainStep_cases {o : Outcome} (h : s.mainStep o = some s') :
    (∃ id pc next, StepsJob s s' (.main o) none id pc o next) ∨ StepsApart s s' (.main o) := by
  cases hm : s.main with
  | inline id pc ready =>
    left
    have hstood : s.stands none = some (id, pc) := by rw [stands, hm]
    have hothers : ∀ (m : Memory) (pc : MainPc) (v : Option ι), v ≠ none →
        stands { s with main := pc, memory := m } v = s.stands v := by
      rintro m pc (_ | w) hv
      · exact absurd rfl hv
      · rfl
    have hends : s.ends (.main o) = if pc = .run then some (id, o) else none := by
      rw [ends, hm]
      cases pc <;> rfl
    simp only [mainStep, hm, processStep] at h
    split at h
    · cases h
    · rename_i m hr
      cases h
      exact ⟨id, pc, none, hstood, hr, fun j hj => (by cases hj), hothers _ _, rfl, hends⟩
    · rename_i m hr
      cases h
      exact ⟨id, pc, _, hstood, hr, fun j hj => (by cases hj), hothers _ _, rfl, hends⟩
    · rename_i m pc' hne hr
      cases h
      refine ⟨id, pc, _, hstood, hr, ?_, hothers _ _, rfl, hends⟩
      intro j hj
      cases hj
      exact ⟨rfl, rfl⟩
  | dispatch id ready =>
    right
    have hold : s.stands none = none := by rw [stands, hm]
    simp only [mainStep, hm, processStep] at h
    split_ifs at h
    · cases h
      exact stepsApart_of_quiet rfl rfl rfl rfl hold rfl
    · cases h
      refine stepsApart_of_main rfl rfl rfl rfl hold fun j hj => ?_
      cases hj
      rfl
  | get_ready_tasks todo ready =>
    right
    have hold : s.stands none = none := by rw [stands, hm]
    cases todo <;> simp only [mainStep, hm, processStep] at h
    · cases h
      exact stepsApart_of_quiet rfl rfl rfl rfl hold rfl
    · split_ifs at h <;> cases h <;>
        exact stepsApart_of_quiet rfl rfl rfl rfl hold rfl
  | load_dependency id deps todo ready =>
    right
    have hold : s.stands none = none := by rw [stands, hm]
    cases deps <;> simp only [mainStep, hm, processStep] at h
    · cases h
      exact stepsApart_of_quiet rfl rfl rfl rfl hold rfl
    · split_ifs at h <;> cases h <;>
        exact stepsApart_of_quiet rfl rfl rfl rfl hold rfl
  | process ready =>
    right
    have hold : s.stands none = none := by rw [stands, hm]
    cases ready <;> simp only [mainStep, hm, processStep] at h
    · cases h
      exact stepsApart_of_quiet rfl rfl rfl rfl hold rfl
    · split_ifs at h <;> cases h <;>
        exact stepsApart_of_quiet rfl rfl rfl rfl hold rfl
  | is_valid =>
    right
    have hold : s.stands none = none := by rw [stands, hm]
    simp only [mainStep, hm] at h
    split at h <;> cases h <;>
      exact stepsApart_of_quiet rfl rfl rfl rfl hold rfl
  | _ =>
    right
    have hold : s.stands none = none := by rw [stands, hm]
    simp only [mainStep, hm, processStep] at h
    first
      | (cases h; exact stepsApart_of_quiet rfl rfl rfl rfl hold rfl)
      | (split_ifs at h <;> cases h <;>
          exact stepsApart_of_quiet rfl rfl rfl rfl hold rfl)
      | cases h

/-- A step that begins no call is a step of one job, or none of a job. -/
theorem step_cases [DecidableEq ι] (h : s.step a = some s')
    (hcall : ∀ graph order, a ≠ .call graph order) :
    (∃ u id pc o next, StepsJob s s' a u id pc o next) ∨ StepsApart s s' a := by
  cases a with
  | call graph order => exact absurd rfl (hcall graph order)
  | destroy =>
    simp only [step] at h
    split_ifs at h with hready
    cases h
    refine Or.inr ⟨?_, rfl, rfl, rfl, rfl⟩
    rintro (_ | w) j hj
    · cases hj
    · exact Or.inr hj
  | main o =>
    rcases mainStep_cases h with ⟨id, pc, next, hstep⟩ | hstep
    · exact Or.inl ⟨none, id, pc, o, next, hstep⟩
    · exact Or.inr hstep
  | take w =>
    simp only [step] at h
    split at h
    · rename_i id queue hw hqueue
      cases h
      refine Or.inr ⟨?_, rfl, rfl, rfl, rfl⟩
      rintro (_ | v) j hj
      · exact Or.inr hj
      · by_cases hv : v = w
        · subst hv
          simp only [stands, setWorker, Function.update_self, Option.some.injEq] at hj
          subst hj
          exact Or.inl rfl
        · simp only [stands, setWorker, Function.update_of_ne hv] at hj
          exact Or.inr hj
    · cases h
  | work w o =>
    simp only [step] at h
    split at h
    · cases h
    · rename_i id pc hw
      split at h
      · cases h
      · rename_i m next hr
        cases h
        refine Or.inl ⟨some w, id, pc, o, next, hw, hr, ?_, ?_, rfl, ?_⟩
        · intro j hj
          simp only [stands, setWorker, Function.update_self, Option.map_eq_some_iff] at hj
          obtain ⟨pc', hnext, rfl⟩ := hj
          exact ⟨rfl, hnext⟩
        · rintro (_ | v) hv
          · rfl
          · have hne : v ≠ w := fun he => hv (he ▸ rfl)
            simp only [stands, setWorker, Function.update_of_ne hne]
        · rw [ends, hw]
          cases pc <;> rfl
  | cancel =>
    simp only [step] at h
    split_ifs at h
    cases h
    refine Or.inr ⟨?_, rfl, rfl, rfl, rfl⟩
    rintro (_ | v) j hj <;> exact Or.inr hj
  | worker_loop =>
    simp only [step] at h
    split_ifs at h
    cases h
    refine Or.inr ⟨?_, rfl, rfl, rfl, rfl⟩
    rintro (_ | v) j hj <;> exact Or.inr hj

/-! ## What a step of a job writes -/

/-- The record that a step of a job leaves. -/
structure Recorded (m m' : Memory) (id : Id) (pc : JobPc) (next : Option JobPc) : Prop where
  started : m'.started = if pc = .execute then id :: m.started else m.started
  ended : ∀ x ∈ m'.ended, x ∈ m.ended ∨ x = id ∧ (pc = .run ∨ ∃ status, pc = .set_status status)
  run : next = some .run → pc = .execute
  set_status : ∀ status, next = some (.set_status status) → pc = .run

theorem runJob_recorded {m m' : Memory} {id : Id} {o : Outcome} {pc : JobPc} {next : Option JobPc}
    (hr : runJob m id o pc = some (m', next)) : Recorded m m' id pc next := by
  cases pc with
  | run =>
    simp only [runJob] at hr
    split at hr
    · cases hr
      exact ⟨rfl, fun x hx => Or.inl hx, by simp, fun _ _ => rfl⟩
    · cases hr
      refine ⟨rfl, ?_, by simp, fun _ _ => rfl⟩
      intro x hx
      exact (List.mem_cons.mp hx).symm.imp_right fun hid => ⟨hid, Or.inl rfl⟩
  | set_status status =>
    cases hr
    refine ⟨rfl, ?_, by simp, by simp⟩
    intro x hx
    exact (List.mem_cons.mp hx).symm.imp_right fun hid => ⟨hid, Or.inr ⟨status, rfl⟩⟩
  | lock =>
    simp only [runJob] at hr
    split_ifs at hr
    cases hr
    exact ⟨rfl, fun x hx => Or.inl hx, by simp, by simp⟩
  | execute =>
    cases hr
    exact ⟨rfl, fun x hx => Or.inl hx, fun _ => rfl, by simp⟩
  | _ =>
    cases hr
    exact ⟨rfl, fun x hx => Or.inl hx, by simp, by simp⟩

variable {P : TaskGraph → (Id → Task.Status) → Prop} {Q : TaskGraph → Id → Task.Status → Prop}

/-- A job that will be counted belongs to the call. -/
theorem Inv.job (hI : Inv P Q s) {u : Option ι} {id : Id} {pc : JobPc}
    (hu : s.stands u = some (id, pc)) (hpc : uncounted pc = true) :
    InCall P Q s ∧ (id, pc) ∈ s.jobs (threadOf u) := by
  have hmem : (id, pc) ∈ s.jobs (threadOf u) := by
    cases u with
    | some w =>
      have hw : s.worker w = some (id, pc) := hu
      simp [jobs, threadOf, hw, hpc]
    | none =>
      simp only [stands] at hu
      split at hu
      · rename_i hm
        cases hu
        simp [jobs, threadOf, callerJob, hm, hpc]
      · cases hu
  refine ⟨hI.resolve_left fun hcalm => ?_, hmem⟩
  cases u with
  | some w =>
    have hfalse := hcalm.none.2 w (id, pc) hu
    rw [hpc] at hfalse
    cases hfalse
  | none =>
    have hmain := hcalm.main
    simp only [stands] at hu
    split at hu
    · rename_i hm
      rw [hm] at hmain
      exact hmain
    · cases hu

end ExecutorSystem

/-! ## Tasks that read and leave results -/

/-- `func_` of each task: from the results of its dependencies, the result that it leaves, and how
it ends. -/
abbrev Bodies (V : Type*) := Id → List V → V × Outcome

/-- `seen` has what the task has read, and `finished` the tasks whose `func_` is at its end, the
last one first. -/
structure DataSystem (ι V : Type*) where
  executor : ExecutorSystem ι
  result : Id → V
  seen : Id → Id → Option V
  finished : List Id

inductive DataAction (ι : Type*)
  | executor (a : ExecutorAction ι)
  /-- The task that the thread is running reads the result of another one. -/
  | read (u : Option ι) (dep : Id)

namespace DataSystem

def start (thread_pool worker_thread : Bool) (status : Id → Task.Status) (result : Id → V) :
    DataSystem ι V where
  executor := .construct thread_pool worker_thread status
  result := result
  seen _ _ := none
  finished := []

variable [DecidableEq ι] (body : Bodies V)

/-- `func_` ends when it has read the results of all dependencies. -/
def step (s : DataSystem ι V) : DataAction ι → Option (DataSystem ι V)
  | .executor a =>
    match s.executor.step a with
    | none => none
    | some executor =>
      match s.executor.ends a with
      | some (id, o) =>
        match (s.executor.graph.1.get_dependencies id).mapM (s.seen id) with
        | none => none
        | some values =>
          if o = (body id values).2 then
            some { s with
              executor := executor
              result := Function.update s.result id (body id values).1
              finished := id :: s.finished }
          else none
      | none =>
        match a with
        | .call _ _ => some { s with executor := executor, seen := fun _ _ => none, finished := [] }
        | _ => some { s with executor := executor }
  | .read u dep =>
    match s.executor.stands u with
    | some (id, .run) =>
      if dep ∈ s.executor.graph.1.get_dependencies id then
        some { s with
          seen := Function.update s.seen id
            (Function.update (s.seen id) dep (some (s.result dep))) }
      else none
    | _ => none

/-- The results when the tasks of a list are run one after the other. -/
def inOrder (g : TaskGraph) (init : Id → V) (order : List Id) : Id → V :=
  evaluate g.get_dependencies (fun id values => (body id values).1) init order

/-- The task has the result and the status that it gets in this order. -/
def AsInOrder (s : DataSystem ι V) (order : List Id) (id : Id) : Prop :=
  ∀ init, let r := inOrder body s.executor.graph.1 init order
    s.result id = r id ∧
    FunctionalTask.execute (body id ((s.executor.graph.1.get_dependencies id).map r)).2 =
      some (s.executor.memory.status id)

/-- What holds of the results throughout a call. -/
structure Sound (s : DataSystem ι V) : Prop where
  ordered : Ordered s.executor.graph.1.get_dependencies s.finished
  result : ∃ init, s.result = inOrder body s.executor.graph.1 init s.finished.reverse
  seen : ∀ id dep v, s.seen id dep = some v → dep ∈ s.finished ∧ v = s.result dep
  started : ∀ id ∈ s.finished, id ∈ s.executor.memory.started
  ended : ∀ id ∈ s.executor.memory.ended, id ∈ s.finished
  running : ∀ u id, s.executor.stands u = some (id, .run) →
    id ∈ s.executor.memory.started ∧ id ∉ s.finished
  storing : ∀ u id status, s.executor.stands u = some (id, .set_status status) → id ∈ s.finished

/-- The tasks of the call were pending. -/
def WerePending (g : TaskGraph) (status : Id → Task.Status) : Prop :=
  ∀ id ∈ g.tasks_, status id = .kPending

/-- A task stores the status that it gets in every order in which it can be run. -/
def AsBodiesSay (g : TaskGraph) (id : Id) (status : Task.Status) : Prop :=
  ∀ l, Ordered g.get_dependencies l → id ∈ l → ∀ init,
    let r := inOrder body g init l.reverse
    FunctionalTask.execute (body id ((g.get_dependencies id).map r)).2 = some status

/-! ## Steps -/

open ExecutorSystem (InCall Inv StepsApart StepsJob runJob_recorded threadOf FreshCall step_cases
  inv_step)

variable {body : Bodies V} {s s' : DataSystem ι V} {Q : TaskGraph → Id → Task.Status → Prop}
  {executor : ExecutorSystem ι} {a : ExecutorAction ι} {u : Option ι} {id : Id} {pc : JobPc}
  {o : Outcome} {next : Option JobPc}

omit [DecidableEq ι] in
/-- A task that runs finds its dependencies finished. -/
theorem Sound.finished_of_dep (h : Sound body s) (hI : InCall WerePending Q s.executor)
    {t : Thread ι} (hj : (id, pc) ∈ s.executor.jobs t) {dep : Id}
    (hdep : dep ∈ s.executor.graph.1.get_dependencies id) : dep ∈ s.finished := by
  have hheld : id ∈ holds s.executor.memory s.executor.jobs (.thread t) := List.mem_map_of_mem hj
  obtain ⟨-, -, hdeps⟩ := hI.facts.ready _ id hheld
  obtain ⟨htask, hdone⟩ := hdeps dep hdep
  apply h.ended
  by_contra hend
  rw [hI.facts.untouched dep hend, hI.initial dep htask] at hdone
  cases hdone

theorem values_eq {l : List Id} {f : Id → Option V} {r : Id → V} {values : List V}
    (h : l.mapM f = some values) (hf : ∀ x ∈ l, ∀ v, f x = some v → v = r x) :
    values = l.map r := by
  induction l generalizing values with
  | nil => simpa using h.symm
  | cons x l ih =>
    simp only [List.mapM_cons, Option.bind_eq_bind, Option.bind_eq_some_iff,
      Option.pure_def, Option.some.injEq] at h
    obtain ⟨v, hv, rest, hrest, rfl⟩ := h
    rw [List.map_cons, hf x (List.mem_cons_self ..) v hv,
      ih hrest fun y hy => hf y (List.mem_cons_of_mem x hy)]

omit [DecidableEq ι] in
/-- What a task has read are the results of its dependencies. -/
theorem Sound.values (h : Sound body s) {values : List V}
    (hv : (s.executor.graph.1.get_dependencies id).mapM (s.seen id) = some values) :
    values = (s.executor.graph.1.get_dependencies id).map s.result :=
  values_eq hv fun dep _ v hseen => (h.seen id dep v hseen).2

omit [DecidableEq ι] in
/-- The finished tasks have the results that every order gives them. -/
theorem Sound.result_eq (h : Sound body s) {l : List Id}
    (hl : Ordered s.executor.graph.1.get_dependencies l) (init : Id → V) (hid : id ∈ s.finished)
    (hmem : id ∈ l) : s.result id = inOrder body s.executor.graph.1 init l.reverse id := by
  obtain ⟨first, hresult⟩ := h.result
  rw [hresult]
  exact evaluate_eq first init h.ordered hl hid hmem

omit [DecidableEq ι] in
/-- A task ends as it does in every order in which it can be run. -/
theorem Sound.asBodiesSay (h : Sound body s) (hI : InCall WerePending Q s.executor) {t : Thread ι}
    (hj : (id, pc) ∈ s.executor.jobs t) {values : List V}
    (hv : (s.executor.graph.1.get_dependencies id).mapM (s.seen id) = some values)
    {status : Task.Status} (hst : FunctionalTask.execute (body id values).2 = some status) :
    AsBodiesSay body s.executor.graph.1 id status := by
  intro l hl hmem init r
  have hsame : ∀ dep ∈ s.executor.graph.1.get_dependencies id,
      s.result dep = inOrder body s.executor.graph.1 init l.reverse dep := fun dep hdep =>
    h.result_eq hl init (h.finished_of_dep hI hj hdep) (hl.mem_succ hmem hdep)
  have hvalues := h.values hv
  rw [List.map_congr_left hsame] at hvalues
  rw [← hvalues]
  exact hst

omit [DecidableEq ι] in
theorem Sound.stepsApart (h : Sound body s) (hs : StepsApart s.executor executor a) :
    Sound body { s with executor := executor } := by
  refine ⟨?_, ?_, h.seen, ?_, ?_, ?_, ?_⟩
  · rw [hs.graph]
    exact h.ordered
  · rw [hs.graph]
    exact h.result
  · rw [hs.started]
    exact h.started
  · rw [hs.ended]
    exact h.ended
  · intro v x hv
    rw [hs.started]
    refine h.running v x ((hs.stands v _ hv).resolve_left ?_)
    simp
  · intro v x status hv
    refine h.storing v x status ((hs.stands v _ hv).resolve_left ?_)
    simp

/-- A step of a job that is not in `func_`. -/
theorem Sound.stepsJob (h : Sound body s) (hI : Inv WerePending Q s.executor)
    (hs : StepsJob s.executor executor a u id pc o next) (hpc : pc ≠ .run) :
    Sound body { s with executor := executor } := by
  have hrec := runJob_recorded hs.ran
  have hstarted : ∀ x ∈ s.executor.memory.started, x ∈ executor.memory.started := by
    intro x hx
    rw [hrec.started]
    split_ifs
    · exact List.mem_cons_of_mem _ hx
    · exact hx
  refine ⟨?_, ?_, h.seen, fun x hx => hstarted x (h.started x hx), ?_, ?_, ?_⟩
  · rw [hs.graph]
    exact h.ordered
  · rw [hs.graph]
    exact h.result
  · intro x hx
    rcases hrec.ended x hx with hx | ⟨rfl, hrun | ⟨status, rfl⟩⟩
    · exact h.ended x hx
    · exact absurd hrun hpc
    · exact h.storing u x status hs.stood
  · intro v x hv
    by_cases hvu : v = u
    · subst hvu
      obtain ⟨rfl, hnext⟩ := hs.stands _ hv
      obtain rfl := hrec.run hnext
      -- the task has not been started before
      obtain ⟨hC, hj⟩ := hI.job hs.stood rfl
      have hnew : x ∉ s.executor.memory.started := (hC.facts.job _ _ hj).1
      refine ⟨?_, fun hfin => hnew (h.started x hfin)⟩
      rw [hrec.started, if_pos rfl]
      exact List.mem_cons_self ..
    · rw [hs.others v hvu] at hv
      exact ⟨hstarted x (h.running v x hv).1, (h.running v x hv).2⟩
  · intro v x status hv
    by_cases hvu : v = u
    · subst hvu
      exact absurd (hrec.set_status status (hs.stands _ hv).2) hpc
    · rw [hs.others v hvu] at hv
      exact h.storing v x status hv

omit [DecidableEq ι] in
theorem threadOf_injective {u v : Option ι} (h : threadOf u = threadOf v) : u = v := by
  cases u <;> cases v <;> simp_all [threadOf]

/-- `func_` is at its end: the task leaves its result. -/
theorem Sound.finish (h : Sound body s) (hI : Inv WerePending Q s.executor)
    (hs : StepsJob s.executor executor a u id .run o next) {values : List V}
    (hv : (s.executor.graph.1.get_dependencies id).mapM (s.seen id) = some values) :
    Sound body { s with
      executor := executor
      result := Function.update s.result id (body id values).1
      finished := id :: s.finished } := by
  obtain ⟨hC, hj⟩ := hI.job hs.stood rfl
  obtain ⟨hid, hnew⟩ := h.running u id hs.stood
  have hrec := runJob_recorded hs.ran
  have hstarted : executor.memory.started = s.executor.memory.started := by
    rw [hrec.started, if_neg (by simp)]
  refine ⟨?_, ?_, ?_, ?_, ?_, ?_, ?_⟩
  · rw [hs.graph]
    exact ⟨hnew, fun dep hdep => h.finished_of_dep hC hj hdep, h.ordered⟩
  · obtain ⟨init, hresult⟩ := h.result
    refine ⟨init, ?_⟩
    simp only [hs.graph, inOrder]
    rw [evaluate_reverse_cons, h.values hv, hresult, inOrder]
  · intro x dep v hseen
    obtain ⟨hdep, hval⟩ := h.seen x dep v hseen
    refine ⟨List.mem_cons_of_mem _ hdep, ?_⟩
    have hne : dep ≠ id := by
      rintro rfl
      exact hnew hdep
    simp only [Function.update_of_ne hne]
    exact hval
  · intro x hx
    simp only [hstarted]
    rcases List.mem_cons.mp hx with rfl | hx
    · exact hid
    · exact h.started x hx
  · intro x hx
    rcases hrec.ended x hx with hx | ⟨rfl, -⟩
    · exact List.mem_cons_of_mem _ (h.ended x hx)
    · exact List.mem_cons_self ..
  · intro v x hx
    have hvu : v ≠ u := by
      rintro rfl
      have := hrec.run (hs.stands _ hx).2
      cases this
    simp only [hs.others v hvu] at hx
    obtain ⟨hxs, hxnew⟩ := h.running v x hx
    simp only [hstarted]
    refine ⟨hxs, List.not_mem_cons_of_ne_of_not_mem ?_ hxnew⟩
    exact hC.facts.ne hj (hI.job hx rfl).2 fun he => hvu (threadOf_injective he)
  · intro v x status hx
    by_cases hvu : v = u
    · subst hvu
      obtain ⟨rfl, -⟩ := hs.stands _ hx
      exact List.mem_cons_self ..
    · simp only [hs.others v hvu] at hx
      exact List.mem_cons_of_mem _ (h.storing v x status hx)

/-- A call begins with nothing finished. -/
theorem sound_call {graph : { g : TaskGraph // g.Built }} {order : List Id}
    (hnone : s.executor.NoneOutstanding)
    (hs : s.executor.step (.call graph order) = some executor) :
    Sound body { s with executor := executor, seen := fun _ _ => none, finished := [] } := by
  simp only [ExecutorSystem.step] at hs
  split_ifs at hs
  cases hs
  have hstands : ∀ (v : Option ι) (j : Id × JobPc), ExecutorSystem.uncounted j.2 = true →
      ExecutorSystem.stands { s.executor with
        main := .store_cancelled
        graph := graph
        order := order
        memory := { s.executor.memory with
          initial := s.executor.memory.status, started := [], ended := [], counted := [],
          lost := [] } } v ≠ some j := by
    rintro (_ | w) j hj hv
    · cases hv
    · have hfalse := hnone.2 w j hv
      rw [hj] at hfalse
      cases hfalse
  refine ⟨trivial, ⟨s.result, rfl⟩, ?_, ?_, ?_, ?_, ?_⟩
  · intro id dep v hv
    cases hv
  · exact fun id hid => absurd hid List.not_mem_nil
  · exact fun id hid => absurd hid List.not_mem_nil
  · exact fun v id hv => absurd hv (hstands v _ rfl)
  · exact fun v id status hv => absurd hv (hstands v _ rfl)

omit [DecidableEq ι] in
/-- A task reads a result that is there to stay. -/
theorem Sound.read (h : Sound body s) (hI : Inv WerePending Q s.executor)
    (hu : s.executor.stands u = some (id, .run)) {dep : Id}
    (hdep : dep ∈ s.executor.graph.1.get_dependencies id) :
    Sound body { s with
      seen := Function.update s.seen id
        (Function.update (s.seen id) dep (some (s.result dep))) } := by
  obtain ⟨hC, hj⟩ := hI.job hu rfl
  refine ⟨h.ordered, h.result, ?_, h.started, h.ended, h.running, h.storing⟩
  intro x y v hv
  by_cases hx : x = id
  · subst hx
    simp only [Function.update_self] at hv
    by_cases hy : y = dep
    · subst hy
      rw [Function.update_self, Option.some.injEq] at hv
      exact ⟨h.finished_of_dep hC hj hdep, hv.symm⟩
    · rw [Function.update_of_ne hy] at hv
      exact h.seen x y v hv
  · simp only [Function.update_of_ne hx] at hv
    exact h.seen x y v hv

/-- A call begins with no job outstanding, on tasks that are pending. -/
def FreshCalls (s : DataSystem ι V) : DataAction ι → Prop
  | .executor a => FreshCall s.executor a
  | .read _ _ => True

instance [Fintype ι] (s : DataSystem ι V) (c : DataAction ι) : Decidable (FreshCalls s c) := by
  cases c <;> unfold FreshCalls <;> infer_instance

theorem sound_step {c : DataAction ι} (hI : Inv WerePending (AsBodiesSay body) s.executor)
    (h : Sound body s) (hok : FreshCalls s c) (hs : step body s c = some s') :
    Inv WerePending (AsBodiesSay body) s'.executor ∧ Sound body s' := by
  cases c with
  | read u dep =>
    simp only [step] at hs
    split at hs
    · rename_i id hu
      split_ifs at hs with hdep
      cases hs
      exact ⟨hI, h.read hI hu hdep⟩
    · cases hs
  | executor a =>
    have hcall : ∀ graph order, a = .call graph order →
        s.executor.NoneOutstanding ∧ WerePending graph.1 s.executor.memory.status := by
      rintro graph order rfl
      exact hok
    simp only [step] at hs
    split at hs
    · cases hs
    rename_i executor hstep
    split at hs
    · -- `func_` of a task is at its end
      rename_i id o hends
      have hnot : ∀ graph order, a ≠ .call graph order := by
        rintro graph order rfl
        cases hends
      split at hs
      · cases hs
      rename_i values hvalues
      split_ifs at hs with ho
      cases hs
      rcases step_cases hstep hnot with ⟨u, x, pc, o', next, hjob⟩ | hapart
      · have hat := hjob.ends.symm.trans hends
        split_ifs at hat with hpc
        cases hat
        subst hpc
        refine ⟨inv_step hI ⟨hcall, ?_⟩ hstep, h.finish hI hjob hvalues⟩
        intro r hr status hst
        rw [hends, Option.mem_some_iff] at hr
        subst hr
        obtain ⟨hC, hj⟩ := hI.job hjob.stood rfl
        simp only [ho] at hst
        exact h.asBodiesSay hC hj hvalues hst
      · rw [hapart.ends] at hends
        cases hends
    · rename_i hends
      have hInv : Inv WerePending (AsBodiesSay body) executor := by
        refine inv_step hI ⟨hcall, ?_⟩ hstep
        intro r hr
        rw [hends] at hr
        cases hr
      split at hs
      · cases hs
        exact ⟨hInv, sound_call (hcall _ _ rfl).1 hstep⟩
      · rename_i hnot
        cases hs
        rcases step_cases hstep hnot with ⟨u, x, pc, o, next, hjob⟩ | hapart
        · refine ⟨hInv, h.stepsJob hI hjob ?_⟩
          rintro rfl
          have hat := hjob.ends.symm.trans hends
          cases hat
        · exact ⟨hInv, h.stepsApart hapart⟩

theorem sound_run {thread_pool worker_thread : Bool} {status : Id → Task.Status} {result : Id → V}
    {cs : List (DataAction ι)}
    (hok : Meets (step body) FreshCalls (start thread_pool worker_thread status result) cs)
    (hr : run (step body) (start thread_pool worker_thread status result) cs = some s) :
    Inv WerePending (AsBodiesSay body) s.executor ∧ Sound body s := by
  refine invariant_of_meets
    (I := fun s => Inv WerePending (AsBodiesSay body) s.executor ∧ Sound body s)
    (fun _ _ _ h hok hs => sound_step h.1 h.2 hok hs) ?_ hok hr
  refine ⟨Or.inl ⟨⟨rfl, fun w j hj => by cases hj⟩, rfl, trivial⟩, trivial, ⟨result, rfl⟩, ?_, ?_,
    ?_, ?_, ?_⟩
  · intro id dep v hv
    cases hv
  · exact fun id hid => absurd hid List.not_mem_nil
  · exact fun id hid => absurd hid List.not_mem_nil
  · rintro (_ | w) id hv <;> cases hv
  · rintro (_ | w) id st hv <;> cases hv

/-! ## The results of a call -/

omit [DecidableEq ι] in
/-- A task whose run is over has the result and the status of every order. -/
theorem Sound.asInOrder (h : Sound body s) (hI : Inv WerePending (AsBodiesSay body) s.executor)
    (hid : id ∈ s.executor.memory.ended) (hlost : id ∉ s.executor.memory.lost) {l : List Id}
    (hl : Ordered s.executor.graph.1.get_dependencies l) (hmem : id ∈ l) :
    AsInOrder body s l.reverse id := by
  intro init
  rcases hI with hI | hI
  · have hstarted := h.started id (h.ended id hid)
    rw [hI.started] at hstarted
    cases hstarted
  · exact ⟨h.result_eq hl init (h.ended id hid) hmem, hI.stored.2 id hid hlost l hl hmem init⟩

/-- The order of `topological_sort` puts each task behind its dependencies. -/
theorem ordered_topological_sort {g : TaskGraph} (hbuilt : g.Built) {order order' sorted : List Id}
    (hiter : g.Iterates order) (hvalid : g.is_valid order = some true) (hiter' : g.Iterates order')
    (hsort : g.topological_sort order' = some sorted) :
    Ordered g.get_dependencies sorted.reverse ∧ ∀ id, id ∈ sorted ↔ id ∈ g.tasks_ := by
  have hjoin : g.Joined := fun a b hb => TaskGraph.mem_tasks_of_is_valid hvalid hb
  have hacyclic := (TaskGraph.is_dag_iff hjoin hiter).mp (TaskGraph.is_dag_of_is_valid hvalid)
  obtain ⟨result, hresult, hord, hmem⟩ :=
    TaskGraph.topological_sort_of_acyclic hjoin hiter' hacyclic
  rw [hsort, Option.some.injEq] at hresult
  subst hresult
  refine ⟨ordered_reverse (fun v w => hbuilt.mem_get_dependencies) hord ?_, hmem⟩
  intro v _ w hw
  exact (hmem w).mpr (hjoin w v (hbuilt.mem_get_dependencies.mp hw)).1

/-- Whatever the workers do and in whatever order the tasks read, a task whose run is over has the
result and the status that it gets when the tasks are run one after the other; and when `execute`
returns `Ok`, all tasks have those that they get in the order of `topological_sort`. -/
theorem results_are_those_of_one_thread {thread_pool worker_thread : Bool}
    {status : Id → Task.Status} {result : Id → V} {cs : List (DataAction ι)}
    (hok : Meets (step body) FreshCalls (start thread_pool worker_thread status result) cs)
    (hr : run (step body) (start thread_pool worker_thread status result) cs = some s) :
    (∀ id ∈ s.executor.memory.ended, id ∉ s.executor.memory.lost → ∀ l,
      Ordered s.executor.graph.1.get_dependencies l → id ∈ l → AsInOrder body s l.reverse id) ∧
    (s.executor.main = .returned .Ok → ∀ order sorted, s.executor.graph.1.Iterates order →
      s.executor.graph.1.topological_sort order = some sorted →
      ∀ id ∈ s.executor.graph.1.tasks_, AsInOrder body s sorted id) := by
  obtain ⟨hI, h⟩ := sound_run hok hr
  refine ⟨fun id hid hlost l hl hmem => h.asInOrder hI hid hlost hl hmem, ?_⟩
  intro hret order sorted hiter hsort id hid
  obtain ⟨hC, ⟨hiter0, hvalid⟩, hall⟩ := hI.ok hret
  obtain ⟨hord, hmem⟩ :=
    ordered_topological_sort s.executor.graph.2 hiter0 hvalid hiter hsort
  have hended := hC.facts.past id (Or.inl (hall id hid))
  have hlost : id ∉ s.executor.memory.lost := by
    intro hl
    have := hC.facts.apart.unique (h := .counted) (k := .lost) (x := id) (hall id hid) hl
    cases this
  have hin := h.asInOrder hI hended hlost hord (List.mem_reverse.mpr ((hmem id).mpr hid))
  rw [List.reverse_reverse] at hin
  exact hin

/-- Each task adds one and its own number to the results of its dependencies. -/
def sums : Bodies Nat := fun id values => (values.sum + id + 1, .returns .kCompleted)

/-- Tasks 0 and 1 are before task 2. -/
def threeTasks : { g : TaskGraph // g.Built } :=
  ⟨((((TaskGraph.empty.add_task 0).add_task 1).add_task 2).add_edge 0 2).add_edge 1 2,
    .add_edge 1 2 (.add_edge 0 2 (.add_task 2 (.add_task 1 (.add_task 0 .empty))))⟩

/-- Two workers run tasks 0 and 1 at a time, and the second one takes task 2. -/
def joinFirst : List (ExecutorAction Bool) :=
  .call threeTasks [2, 0, 1] :: ExecutorSystem.mains 21 ++ [.take false, .take true] ++
    ExecutorSystem.works true 1 (.returns .kCompleted) ++
    ExecutorSystem.works false 9 (.returns .kCompleted) ++
    ExecutorSystem.works true 8 (.returns .kCompleted) ++ ExecutorSystem.mains 15 ++
    [.take true] ++ ExecutorSystem.works true 1 (.returns .kCompleted)

def joinLast : List (ExecutorAction Bool) :=
  ExecutorSystem.works true 8 (.returns .kCompleted) ++ ExecutorSystem.mains 4

def joinRun : List (DataAction Bool) :=
  joinFirst.map .executor ++ [.read (some true) 1, .read (some true) 0] ++ joinLast.map .executor

theorem three_tasks_are_summed :
    ∃ s, run (step sums) (start true true (fun _ => .kPending) fun _ => 0) joinRun = some s ∧
      s.executor.main = .returned .Ok ∧ AsInOrder sums s [0, 1, 2] 2 ∧ s.result 2 = 6 := by
  obtain ⟨s, hs, hret, hiter, hsort, htask, hsum⟩ : ∃ s,
      run (step sums) (start true true (fun _ => .kPending) fun _ => 0) joinRun = some s ∧
        s.executor.main = .returned .Ok ∧ s.executor.graph.1.Iterates [1, 0, 2] ∧
        s.executor.graph.1.topological_sort [1, 0, 2] = some [0, 1, 2] ∧
        2 ∈ s.executor.graph.1.tasks_ ∧ s.result 2 = 6 := exists_of_any (by decide +kernel)
  have hlaw := results_are_those_of_one_thread (by decide +kernel) hs
  exact ⟨s, hs, hret, hlaw.2 hret [1, 0, 2] [0, 1, 2] hiter hsort 2 htask, hsum⟩

end DataSystem

end sci
