-- The runs of an executor whose calls start with no job of an earlier call
-- outstanding. Between calls nothing is known of the sets and counters; from the
-- moment that `execute` has reset them, the facts of the jobs hold.
import Scicompute.GraphExecutorJobs

open Transition Holding

namespace sci

open sci.Task (Id)

variable {ι : Type*}

namespace ExecutorSystem

/-! ## The caller -/

/-- The job that the calling thread has picked, or runs itself. -/
def callerJob : MainPc → List (Id × JobPc)
  | .add_running id _ => [(id, .execute)]
  | .dispatch id _ => [(id, .execute)]
  | .inline id pc _ => if uncounted pc then [(id, pc)] else []
  | _ => []

/-- The jobs that are not yet counted. -/
def jobs (s : ExecutorSystem ι) : Thread ι → List (Id × JobPc)
  | .caller => callerJob s.main
  | .queue => s.queue.map (·, .execute)
  | .worker w => (s.worker w).toList.filter fun j => uncounted j.2

def Valid (g : TaskGraph) (order : List Id) : Prop :=
  g.Iterates order ∧ g.is_valid order = some true

/-- What the calling thread has found out, once the sets are empty. -/
def MainOk (g : TaskGraph) (order : List Id) (m : Memory) : MainPc → Prop
  | .idle => False
  | .store_cancelled => False
  | .store_completed => False
  | .clear => False
  | .is_valid => g.Iterates order
  | .all_complete => Valid g order
  | .load_cancelled => Valid g order
  | .sleep => Valid g order
  | .get_ready_tasks todo ready =>
    Valid g order ∧ (∀ id ∈ todo, id ∈ g.tasks_) ∧ ∀ id ∈ ready, Ready g m id
  | .load_dependency id deps todo ready =>
    Valid g order ∧ (∀ id ∈ todo, id ∈ g.tasks_) ∧ (∀ id ∈ ready, Ready g m id) ∧
      id ∈ g.tasks_ ∧ m.initial id = .kPending ∧
      ∀ dep ∈ g.get_dependencies id, dep ∈ deps ∨ dep ∈ g.tasks_ ∧ m.status dep = .kCompleted
  | .process ready => Valid g order ∧ ∀ id ∈ ready, Ready g m id
  | .lock id ready => Valid g order ∧ Ready g m id ∧ ∀ id ∈ ready, Ready g m id
  | .add_running _ ready => Valid g order ∧ ∀ id ∈ ready, Ready g m id
  | .dispatch _ ready => Valid g order ∧ ∀ id ∈ ready, Ready g m id
  | .inline _ _ ready => Valid g order ∧ ∀ id ∈ ready, Ready g m id
  | .load_result =>
    Valid g order ∧ (g.num_tasks ≤ m.counted.length ∨ m.cancelled_ = true)
  | .returned .Ok => Valid g order ∧ g.num_tasks ≤ m.counted.length
  | _ => True

/-- The steps of other threads take nothing back. -/
theorem MainOk.later {g : TaskGraph} {order : List Id} {m m' : Memory} {pc : MainPc}
    (h : MainOk g order m pc) (hl : Later m m') : MainOk g order m' pc := by
  have hready : ∀ l : List Id, (∀ id ∈ l, Ready g m id) → ∀ id ∈ l, Ready g m' id :=
    fun l hr id hid => hl.ready (hr id hid)
  cases pc with
  | get_ready_tasks todo ready => exact ⟨h.1, h.2.1, hready _ h.2.2⟩
  | load_dependency id deps todo ready =>
    obtain ⟨h1, h2, h3, h4, h5, h6⟩ := h
    refine ⟨h1, h2, hready _ h3, h4, by rw [hl.initial]; exact h5, ?_⟩
    intro dep hd
    exact (h6 dep hd).imp_right (fun hc => ⟨hc.1, hl.completed dep hc.2⟩)
  | process ready => exact ⟨h.1, hready _ h.2⟩
  | lock id ready => exact ⟨h.1, hl.ready h.2.1, hready _ h.2.2⟩
  | add_running id ready => exact ⟨h.1, hready _ h.2⟩
  | dispatch id ready => exact ⟨h.1, hready _ h.2⟩
  | inline id pc ready => exact ⟨h.1, hready _ h.2⟩
  | load_result => exact ⟨h.1, h.2.imp (fun hc => hc.trans hl.counted) hl.cancelled⟩
  | returned result =>
    cases result with
    | Ok => exact ⟨h.1, h.2.trans hl.counted⟩
    | _ => trivial
  | _ => exact h

/-! ## The invariant -/

/-- The memory that a call starts with. -/
structure Prepared (P : TaskGraph → (Id → Task.Status) → Prop) (g : TaskGraph) (order : List Id)
    (m : Memory) : Prop where
  order : g.Iterates order
  initial : P g m.initial
  status : m.initial = m.status
  ended : m.ended = []
  counted : m.counted = []
  lost : m.lost = []

def CalmMain (P : TaskGraph → (Id → Task.Status) → Prop) (g : TaskGraph) (order : List Id)
    (m : Memory) : MainPc → Prop
  | .idle => True
  | .cancel => True
  | .join => True
  | .destroyed => True
  | .store_cancelled => Prepared P g order m
  | .store_completed => Prepared P g order m
  | .clear => Prepared P g order m ∧ m.completed_ = 0
  | _ => False

/-- Before the first call, while a call resets the executor, and in a destructor after that. -/
structure Calm (P : TaskGraph → (Id → Task.Status) → Prop) (s : ExecutorSystem ι) : Prop where
  none : s.NoneOutstanding
  started : s.memory.started = []
  main : CalmMain P s.graph.1 s.order s.memory s.main

/-- From the reset on. `P` holds of the statuses at the start, `Q` of those that runs store. -/
structure InCall (P : TaskGraph → (Id → Task.Status) → Prop)
    (Q : TaskGraph → Id → Task.Status → Prop) (s : ExecutorSystem ι) : Prop where
  facts : Facts s.graph.1 s.memory s.jobs
  main : MainOk s.graph.1 s.order s.memory s.main
  initial : P s.graph.1 s.memory.initial
  stored : Stored (Q s.graph.1) s.memory s.jobs

def Inv (P : TaskGraph → (Id → Task.Status) → Prop) (Q : TaskGraph → Id → Task.Status → Prop)
    (s : ExecutorSystem ι) : Prop :=
  Calm P s ∨ InCall P Q s

/-- A call starts with no job outstanding and on tasks that `P` allows, and runs store statuses
that `Q` allows. -/
def Allowed (P : TaskGraph → (Id → Task.Status) → Prop) (Q : TaskGraph → Id → Task.Status → Prop)
    (s : ExecutorSystem ι) (a : ExecutorAction ι) : Prop :=
  (∀ graph order, a = .call graph order → s.NoneOutstanding ∧ P graph.1 s.memory.status) ∧
    ∀ r ∈ s.ends a, ∀ status, FunctionalTask.execute r.2 = some status →
      Q s.graph.1 r.1 status

variable {P : TaskGraph → (Id → Task.Status) → Prop} {Q : TaskGraph → Id → Task.Status → Prop}
  {s s' : ExecutorSystem ι}

theorem CalmMain.flags {g : TaskGraph} {order : List Id} {m : Memory} {pc : MainPc}
    (h : CalmMain P g order m pc) (mtx cancelled : Bool) :
    CalmMain P g order { m with mtx_ := mtx, cancelled_ := cancelled } pc := by
  have hprep : Prepared P g order m →
      Prepared P g order { m with mtx_ := mtx, cancelled_ := cancelled } :=
    fun hp => ⟨hp.order, hp.initial, hp.status, hp.ended, hp.counted, hp.lost⟩
  cases pc with
  | store_cancelled => exact hprep h
  | store_completed => exact hprep h
  | clear => exact ⟨hprep h.1, h.2⟩
  | _ => exact h

/-! ## Steps of the caller -/

/-- A step of the caller that reads. -/
theorem InCall.goto (h : InCall P Q s) {pc : MainPc} (hjob : callerJob pc = callerJob s.main)
    (hok : MainOk s.graph.1 s.order s.memory pc) : InCall P Q { s with main := pc } := by
  have hjobs : jobs { s with main := pc } = s.jobs := by
    funext t
    cases t with
    | caller => exact hjob
    | queue => rfl
    | worker w => rfl
  refine ⟨?_, hok, h.initial, ?_⟩
  · rw [hjobs]
    exact h.facts
  · rw [hjobs]
    exact h.stored

/-- A step on the lock, on `cancelled_` or on `running_`. -/
theorem InCall.flags (h : InCall P Q s) (mtx cancelled : Bool) (running : Nat)
    (hc : s.memory.cancelled_ = true → cancelled = true) :
    InCall P Q { s with memory := { s.memory with
      mtx_ := mtx, cancelled_ := cancelled, running_ := running } } :=
  ⟨h.facts.flags mtx cancelled running,
    h.main.later ⟨rfl, fun _ hx => hx, Nat.le_refl _, hc⟩, h.initial, h.stored⟩

variable [DecidableEq ι]

theorem jobs_main (s : ExecutorSystem ι) (pc : MainPc) (m : Memory) :
    jobs { s with main := pc, memory := m } =
      Function.update s.jobs .caller (callerJob pc) := by
  funext t
  cases t with
  | caller => rw [Function.update_self]; rfl
  | queue => rw [Function.update_of_ne (by simp)]; rfl
  | worker w => rw [Function.update_of_ne (by simp)]; rfl

omit [DecidableEq ι] in
theorem Stored.subset {Q : Id → Task.Status → Prop} {m : Memory}
    {f f' : Thread ι → List (Id × JobPc)} (h : Stored Q m f)
    (hsub : ∀ t, ∀ j ∈ f' t, j.2 = .execute ∨ ∃ u, j ∈ f u) : Stored Q m f' := by
  refine ⟨?_, h.2⟩
  intro t id status hm
  rcases hsub t _ hm with he | ⟨u, hu⟩
  · cases he
  · exact h.1 u id status hu

/-- The section of `process_ready_tasks` that picks a task. -/
theorem InCall.pick (h : InCall P Q s) {id : Id} {ready : List Id} (hpc : s.main = .lock id ready)
    (hnew : ¬ (id ∈ s.memory.running_tasks_ ∨ id ∈ s.memory.completed_tasks_)) :
    InCall P Q { s with
      main := .add_running id ready
      memory := { s.memory with running_tasks_ := insert id s.memory.running_tasks_ } } := by
  have hmain := h.main
  rw [hpc] at hmain
  have hcaller : s.jobs .caller = [] := by
    change callerJob s.main = []
    rw [hpc]
    rfl
  refine ⟨?_, ?_, h.initial, ?_⟩
  · rw [jobs_main]
    exact h.facts.pick hcaller hnew hmain.2.1
  · exact ⟨hmain.1, hmain.2.2⟩
  · rw [jobs_main]
    apply Stored.subset (f := s.jobs) h.stored
    intro t j hj
    by_cases ht : t = .caller
    · subst ht
      rw [Function.update_self, callerJob, List.mem_singleton] at hj
      exact Or.inl (by rw [hj])
    · rw [Function.update_of_ne ht] at hj
      exact Or.inr ⟨t, hj⟩

omit [DecidableEq ι] in
/-- The caller enqueues the job that it has picked. -/
theorem InCall.enqueue (h : InCall P Q s) {id : Id} {ready : List Id}
    (hpc : s.main = .dispatch id ready) :
    InCall P Q { s with main := .process ready, queue := s.queue ++ [id] } := by
  have hmain := h.main
  rw [hpc] at hmain
  have hcaller : s.jobs .caller = [(id, .execute)] := by
    change callerJob s.main = _
    rw [hpc]
    rfl
  have hqueue : jobs { s with main := .process ready, queue := s.queue ++ [id] } .queue =
      s.jobs .queue ++ [(id, .execute)] := by
    simp [jobs]
  refine ⟨?_, hmain, h.initial, ?_⟩
  · refine h.facts.pass (a := .caller) (b := .queue) (by simp)
      (List.Perm.of_eq hcaller) ?_ ?_
    · rw [hqueue]
      exact List.perm_append_singleton _ _
    · intro u hu1 hu2
      cases u with
      | caller => exact absurd rfl hu1
      | queue => exact absurd rfl hu2
      | worker w => rfl
  · apply Stored.subset h.stored
    intro t j hj
    cases t with
    | caller => cases hj
    | queue =>
      rw [hqueue, List.mem_append, List.mem_singleton] at hj
      rcases hj with hj | rfl
      · exact Or.inr ⟨.queue, hj⟩
      · exact Or.inl rfl
    | worker w => exact Or.inr ⟨.worker w, hj⟩

/-- A step of a job that the caller runs itself. -/
theorem InCall.inline (h : InCall P Q s) {id : Id} {pc : JobPc} {ready : List Id} {o : Outcome}
    {m : Memory} {next : Option JobPc} {main : MainPc} (hpc : s.main = .inline id pc ready)
    (hq : pc = .run → ∀ status, FunctionalTask.execute o = some status → Q s.graph.1 id status)
    (hr : runJob s.memory id o pc = some (m, next)) (hjob : callerJob main = rest id next)
    (hmain : Later s.memory m → MainOk s.graph.1 s.order m main) :
    InCall P Q { s with main := main, memory := m } := by
  have hcaller : s.jobs .caller = if uncounted pc then [(id, pc)] else [] := by
    change callerJob s.main = _
    rw [hpc]
    rfl
  by_cases hun : uncounted pc = true
  · rw [if_pos hun] at hcaller
    have hl := h.facts.later hcaller hr
    refine ⟨?_, hmain hl, ?_, ?_⟩
    · rw [jobs_main, hjob]
      exact h.facts.runJob hcaller hun hr
    · rw [hl.initial]
      exact h.initial
    · rw [jobs_main, hjob]
      exact h.stored.runJob hcaller hq hr
  · -- the job is counted already, and the lock is all that changes
    rw [if_neg hun] at hcaller
    have hkeep : ∀ mtx, callerJob main = [] →
        MainOk s.graph.1 s.order { s.memory with mtx_ := mtx } main →
        InCall P Q { s with main := main, memory := { s.memory with mtx_ := mtx } } := by
      intro mtx hnil hok
      exact (h.flags mtx _ _ (fun hc => hc)).goto (by rw [hnil]; exact hcaller.symm) hok
    have hflags : ∀ mtx, Later s.memory { s.memory with mtx_ := mtx } := fun mtx =>
      ⟨rfl, fun _ hx => hx, Nat.le_refl _, fun hc => hc⟩
    cases pc with
    | unlock =>
      cases hr
      exact hkeep false hjob (hmain (hflags false))
    | notify =>
      cases hr
      exact hkeep s.memory.mtx_ hjob (hmain (hflags s.memory.mtx_))
    | _ => exact absurd rfl hun

/-- A step of `get_ready_tasks` or `process_ready_tasks`. -/
theorem InCall.processStep (h : InCall P Q s) {pc : MainPc} {o : Outcome} (hpc : s.main = pc)
    (hq : ∀ id ready, pc = .inline id .run ready →
      ∀ status, FunctionalTask.execute o = some status → Q s.graph.1 id status)
    (hs : s.processStep o pc = some s') : InCall P Q s' := by
  have hmain := h.main
  rw [hpc] at hmain
  have hnil : ∀ pc', callerJob pc = [] → callerJob pc' = [] →
      MainOk s.graph.1 s.order s.memory pc' → InCall P Q { s with main := pc' } :=
    fun pc' h1 h2 hok => h.goto (by rw [hpc, h1, h2]) hok
  cases pc with
  | get_ready_tasks todo ready =>
    cases todo with
    | nil =>
      cases hs
      exact hnil _ rfl rfl ⟨hmain.1, hmain.2.2⟩
    | cons id todo =>
      obtain ⟨hv, htodo, hready⟩ := hmain
      have htodo' : ∀ x ∈ todo, x ∈ s.graph.1.tasks_ :=
        fun x hx => htodo x (List.mem_cons_of_mem _ hx)
      simp only [ExecutorSystem.processStep] at hs
      split_ifs at hs with hp
      · cases hs
        exact hnil _ rfl rfl ⟨hv, htodo', hready⟩
      · cases hs
        rw [not_not] at hp
        refine hnil _ rfl rfl
          ⟨hv, htodo', hready, htodo id (List.mem_cons_self ..), ?_, fun dep hd => Or.inl hd⟩
        -- a status that is pending now was pending at the start
        rcases h.facts.written id with hw | hw
        · rw [← hw, hp]
        · exact absurd hp hw
  | load_dependency id deps todo ready =>
    obtain ⟨hv, htodo, hready, hid, hinit, hdeps⟩ := hmain
    cases deps with
    | nil =>
      cases hs
      refine hnil _ rfl rfl ⟨hv, htodo, ?_⟩
      intro x hx
      rcases List.mem_append.mp hx with hx | hx
      · exact hready x hx
      · rw [List.mem_singleton] at hx
        subst hx
        exact ⟨hid, hinit, fun dep hd => (hdeps dep hd).resolve_left List.not_mem_nil⟩
    | cons dep deps =>
      simp only [ExecutorSystem.processStep] at hs
      split_ifs at hs with hp
      · cases hs
        exact hnil _ rfl rfl ⟨hv, htodo, hready⟩
      · cases hs
        rw [not_or, not_not, Bool.not_eq_false] at hp
        refine hnil _ rfl rfl ⟨hv, htodo, hready, hid, hinit, ?_⟩
        intro x hx
        rcases hdeps x hx with hm | hc
        · rcases List.mem_cons.mp hm with rfl | hm
          · exact Or.inr ⟨of_decide_eq_true hp.1, hp.2⟩
          · exact Or.inl hm
        · exact Or.inr hc
  | process ready =>
    cases ready with
    | nil =>
      cases hs
      exact hnil _ rfl rfl hmain.1
    | cons id ready =>
      obtain ⟨hv, hready⟩ := hmain
      have hready' : ∀ x ∈ ready, Ready s.graph.1 s.memory x :=
        fun x hx => hready x (List.mem_cons_of_mem _ hx)
      simp only [ExecutorSystem.processStep] at hs
      split_ifs at hs
      · cases hs
        exact hnil _ rfl rfl hv
      · cases hs
        exact hnil _ rfl rfl ⟨hv, hready id (List.mem_cons_self ..), hready'⟩
      · cases hs
        exact hnil _ rfl rfl ⟨hv, hready'⟩
  | lock id ready =>
    simp only [ExecutorSystem.processStep] at hs
    split_ifs at hs with hmtx hin
    · cases hs
      exact hnil _ rfl rfl ⟨hmain.1, hmain.2.2⟩
    · cases hs
      exact h.pick hpc hin
  | add_running id ready =>
    cases hs
    exact (h.flags _ _ (s.memory.running_ + 1) (fun hc => hc)).goto
      (by rw [hpc]; rfl) hmain
  | dispatch id ready =>
    simp only [ExecutorSystem.processStep] at hs
    split_ifs at hs
    · cases hs
      exact h.enqueue hpc
    · cases hs
      exact h.goto (by rw [hpc]; rfl) hmain
  | inline id pc ready =>
    have hq' : pc = .run → ∀ status, FunctionalTask.execute o = some status →
        Q s.graph.1 id status := by
      rintro rfl
      exact hq id ready rfl
    simp only [ExecutorSystem.processStep] at hs
    split at hs
    · cases hs
    · rename_i m hr
      cases hs
      exact h.inline hpc hq' hr rfl (fun _ => trivial)
    · rename_i m hr
      cases hs
      exact h.inline hpc hq' hr rfl (fun hl => hmain.later hl)
    · rename_i m pc' _ hr
      cases hs
      refine h.inline hpc hq' hr (by cases pc' <;> rfl) (fun hl => ?_)
      exact ⟨hmain.1, fun x hx => hl.ready (hmain.2 x hx)⟩
  | _ => cases hs

theorem InCall.mainStep (h : InCall P Q s) {o : Outcome} (hq : Allowed P Q s (.main o))
    (hs : s.mainStep o = some s') : InCall P Q s' := by
  have hmain := h.main
  cases hpc : s.main with
  | idle =>
    rw [hpc] at hmain
    exact hmain.elim
  | store_cancelled =>
    rw [hpc] at hmain
    exact hmain.elim
  | store_completed =>
    rw [hpc] at hmain
    exact hmain.elim
  | clear =>
    rw [hpc] at hmain
    exact hmain.elim
  | is_valid =>
    rw [hpc] at hmain
    simp only [ExecutorSystem.mainStep, hpc] at hs
    split at hs
    · cases hs
    · rename_i hv
      cases hs
      exact h.goto (by rw [hpc]; rfl) ⟨hmain, hv⟩
    · cases hs
      exact h.goto (by rw [hpc]; rfl) trivial
  | all_complete =>
    rw [hpc] at hmain
    simp only [ExecutorSystem.mainStep, hpc] at hs
    split_ifs at hs with hc
    · cases hs
      refine h.goto (by rw [hpc]; rfl) ⟨hmain, Or.inl ?_⟩
      rw [← h.facts.count, hc]
    · cases hs
      exact h.goto (by rw [hpc]; rfl) hmain
  | load_cancelled =>
    rw [hpc] at hmain
    simp only [ExecutorSystem.mainStep, hpc] at hs
    split_ifs at hs with hc
    · cases hs
      exact h.goto (by rw [hpc]; rfl) ⟨hmain, Or.inr hc⟩
    · cases hs
      refine h.goto (by rw [hpc]; rfl) ⟨hmain, ?_, fun id hid => by cases hid⟩
      intro id hid
      exact (hmain.1.mem id).mp hid
  | sleep =>
    rw [hpc] at hmain
    simp only [ExecutorSystem.mainStep, hpc] at hs
    cases hs
    exact h.goto (by rw [hpc]; rfl) hmain
  | load_result =>
    rw [hpc] at hmain
    simp only [ExecutorSystem.mainStep, hpc] at hs
    split_ifs at hs with hc
    · cases hs
      exact h.goto (by rw [hpc]; rfl) trivial
    · cases hs
      exact h.goto (by rw [hpc]; rfl) ⟨hmain.1, hmain.2.resolve_right hc⟩
  | returned result => simp [ExecutorSystem.mainStep, hpc] at hs
  | cancel =>
    simp only [ExecutorSystem.mainStep, hpc] at hs
    cases hs
    exact (h.flags _ true _ (fun _ => rfl)).goto (by rw [hpc]; rfl) trivial
  | join =>
    simp only [ExecutorSystem.mainStep, hpc] at hs
    split_ifs at hs
    cases hs
    exact h.goto (by rw [hpc]; rfl) trivial
  | destroyed => simp [ExecutorSystem.mainStep, hpc] at hs
  | _ =>
    simp only [ExecutorSystem.mainStep, hpc] at hs
    refine h.processStep hpc ?_ hs
    intro id ready he
    exact hq.2 (id, o) (by simp [ends, hpc, he])

/-! ## The start of a call -/

omit [DecidableEq ι] in
/-- When the sets are empty, no task has been picked. -/
theorem Calm.cleared (h : Prepared P s.graph.1 s.order s.memory) (hnone : s.NoneOutstanding)
    (hstarted : s.memory.started = []) (hcompleted : s.memory.completed_ = 0) :
    InCall P Q { s with
      main := .is_valid
      memory := { s.memory with running_tasks_ := ∅, completed_tasks_ := ∅ } } := by
  let m : Memory := { s.memory with running_tasks_ := ∅, completed_tasks_ := ∅ }
  have hjobs : ∀ t, jobs { s with main := MainPc.is_valid, memory := m } t = [] := by
    intro t
    cases t with
    | caller => rfl
    | queue => simp [jobs, hnone.1]
    | worker w =>
      cases hw : s.worker w with
      | none => simp [jobs, hw]
      | some j =>
        have := hnone.2 w j hw
        simp [jobs, hw, this]
  have hholds : ∀ k, holds m (jobs { s with main := MainPc.is_valid, memory := m }) k = [] := by
    intro k
    cases k with
    | thread t =>
      change (jobs _ t).map Prod.fst = []
      rw [hjobs t]
      rfl
    | counted => exact h.counted
    | lost => exact h.lost
  have hended : ∀ id, id ∉ s.memory.ended := fun id => by rw [h.ended]; exact List.not_mem_nil
  refine ⟨⟨?_, ?_, ?_, ?_, ?_, ?_, ?_, ?_, ?_, ?_⟩, h.order, h.initial, ?_, ?_⟩
  · refine ⟨fun k => ?_, fun {k j x} hx => ?_⟩
    · rw [hholds k]
      exact List.nodup_nil
    · rw [hholds k] at hx
      cases hx
  · intro id
    constructor
    · rintro (hm | hm) <;> exact absurd hm (Finset.notMem_empty id)
    · rintro ⟨k, hk⟩
      rw [hholds k] at hk
      cases hk
  · change s.memory.completed_ = s.memory.counted.length
    rw [hcompleted, h.counted]
    rfl
  · intro k id hk
    rw [hholds k] at hk
    cases hk
  · intro t j hj
    rw [hjobs t] at hj
    cases hj
  · intro id hid
    change id ∈ s.memory.counted ∨ id ∈ s.memory.lost at hid
    rw [h.counted, h.lost] at hid
    rcases hid with hid | hid <;> cases hid
  · intro id _
    change s.memory.status id = s.memory.initial id
    rw [h.status]
  · intro id
    change s.memory.status id = s.memory.initial id ∨ _
    rw [h.status]
    exact Or.inl rfl
  · change s.memory.started.Nodup
    rw [hstarted]
    exact List.nodup_nil
  · intro id hid
    change id ∈ s.memory.started ∨ id ∈ s.memory.ended at hid
    rw [hstarted, h.ended] at hid
    rcases hid with hid | hid <;> cases hid
  · intro t id status hm
    rw [hjobs t] at hm
    cases hm
  · intro id hid
    exact absurd hid (hended id)

omit [DecidableEq ι] in
theorem Calm.mainStep (h : Calm P s) {o : Outcome} (hs : s.mainStep o = some s') :
    Inv P Q s' := by
  have hmain := h.main
  cases hpc : s.main with
  | store_cancelled =>
    rw [hpc] at hmain
    simp only [ExecutorSystem.mainStep, hpc] at hs
    cases hs
    exact Or.inl ⟨h.none, h.started, hmain.order, hmain.initial, hmain.status, hmain.ended,
      hmain.counted, hmain.lost⟩
  | store_completed =>
    rw [hpc] at hmain
    simp only [ExecutorSystem.mainStep, hpc] at hs
    cases hs
    exact Or.inl ⟨h.none, h.started, ⟨hmain.order, hmain.initial, hmain.status, hmain.ended,
      hmain.counted, hmain.lost⟩, rfl⟩
  | clear =>
    rw [hpc] at hmain
    simp only [ExecutorSystem.mainStep, hpc] at hs
    split_ifs at hs
    cases hs
    exact Or.inr (Calm.cleared hmain.1 h.none h.started hmain.2)
  | idle => simp [ExecutorSystem.mainStep, hpc] at hs
  | cancel =>
    simp only [ExecutorSystem.mainStep, hpc] at hs
    cases hs
    exact Or.inl ⟨h.none, h.started, trivial⟩
  | join =>
    simp only [ExecutorSystem.mainStep, hpc] at hs
    split_ifs at hs
    cases hs
    exact Or.inl ⟨h.none, h.started, trivial⟩
  | destroyed => simp [ExecutorSystem.mainStep, hpc] at hs
  | _ =>
    rw [hpc] at hmain
    exact hmain.elim

/-! ## Every step -/

theorem jobs_setWorker (s : ExecutorSystem ι) (w : ι) (job : Option (Id × JobPc)) (m : Memory) :
    jobs { s.setWorker w job with memory := m } =
      Function.update s.jobs (.worker w) (job.toList.filter fun j => uncounted j.2) := by
  funext t
  cases t with
  | caller => rw [Function.update_of_ne (by simp)]; rfl
  | queue => rw [Function.update_of_ne (by simp)]; rfl
  | worker v =>
    by_cases hv : v = w
    · subst hv
      rw [Function.update_self]
      simp [jobs, setWorker]
    · rw [Function.update_of_ne (by simpa using hv)]
      simp [jobs, setWorker, hv]

theorem filter_next (id : Id) (next : Option JobPc) :
    ((next.map (id, ·)).toList.filter fun j => uncounted j.2) = rest id next := by
  cases next with
  | none => rfl
  | some pc => cases pc <;> rfl

/-- A worker takes the first job of the queue. -/
theorem InCall.take (h : InCall P Q s) {w : ι} {id : Id} {queue : List Id}
    (hw : s.worker w = none) (hqueue : s.queue = id :: queue) :
    InCall P Q { s.setWorker w (some (id, .execute)) with queue := queue } := by
  have hworker : s.jobs (.worker w) = [] := by simp [jobs, hw]
  have hother : ∀ u, u ≠ .queue → u ≠ .worker w →
      jobs { s.setWorker w (some (id, .execute)) with queue := queue } u = s.jobs u := by
    intro u hu1 hu2
    cases u with
    | caller => rfl
    | queue => exact absurd rfl hu1
    | worker v =>
      have hv : v ≠ w := fun he => hu2 (he ▸ rfl)
      simp [jobs, setWorker, hv]
  have hhere : jobs { s.setWorker w (some (id, .execute)) with queue := queue } (.worker w) =
      [(id, .execute)] := by
    simp [jobs, setWorker, uncounted]
  refine ⟨?_, h.main, h.initial, ?_⟩
  · refine h.facts.pass (a := .queue) (b := .worker w) (by simp) ?_
      (by rw [hhere, hworker]) hother
    simp [jobs, hqueue]
  · apply Stored.subset h.stored
    intro t j hj
    by_cases ht1 : t = .queue
    · subst ht1
      obtain ⟨x, -, rfl⟩ := List.mem_map.mp hj
      exact Or.inl rfl
    by_cases ht2 : t = .worker w
    · subst ht2
      rw [hhere, List.mem_singleton] at hj
      exact Or.inl (by rw [hj])
    · rw [hother t ht1 ht2] at hj
      exact Or.inr ⟨t, hj⟩

/-- A step of the job of a worker. -/
theorem InCall.work (h : InCall P Q s) {w : ι} {id : Id} {pc : JobPc} {o : Outcome} {m : Memory}
    {next : Option JobPc} (hw : s.worker w = some (id, pc)) (hq : Allowed P Q s (.work w o))
    (hr : runJob s.memory id o pc = some (m, next)) :
    InCall P Q { s.setWorker w (next.map (id, ·)) with memory := m } := by
  have hworker : s.jobs (.worker w) = if uncounted pc then [(id, pc)] else [] := by
    cases pc <;> simp [jobs, hw, uncounted]
  by_cases hun : uncounted pc = true
  · rw [if_pos hun] at hworker
    have hl := h.facts.later hworker hr
    refine ⟨?_, h.main.later hl, ?_, ?_⟩
    · rw [jobs_setWorker, filter_next]
      exact h.facts.runJob hworker hun hr
    · change P s.graph.1 m.initial
      rw [hl.initial]
      exact h.initial
    · rw [jobs_setWorker, filter_next]
      refine h.stored.runJob hworker ?_ hr
      rintro rfl
      exact hq.2 (id, o) (by simp [ends, hw])
  · rw [if_neg hun] at hworker
    have hkeep : ∀ mtx, rest id next = [] →
        InCall P Q { s.setWorker w (next.map (id, ·)) with
          memory := { s.memory with mtx_ := mtx } } := by
      intro mtx hnil
      have hf := h.flags mtx s.memory.cancelled_ s.memory.running_ (fun hc => hc)
      have hsame : jobs { s.setWorker w (next.map (id, ·)) with
          memory := { s.memory with mtx_ := mtx } } = s.jobs := by
        rw [jobs_setWorker, filter_next, hnil, ← hworker, Function.update_eq_self]
      refine ⟨?_, hf.main, hf.initial, ?_⟩
      · rw [hsame]
        exact hf.facts
      · rw [hsame]
        exact hf.stored
    cases pc with
    | unlock =>
      cases hr
      exact hkeep false rfl
    | notify =>
      cases hr
      exact hkeep s.memory.mtx_ rfl
    | _ => exact absurd rfl hun

/-- The end of a job that was counted before. -/
theorem Calm.work (h : Calm P s) {w : ι} {id : Id} {pc : JobPc} {o : Outcome} {m : Memory}
    {next : Option JobPc} (hw : s.worker w = some (id, pc))
    (hr : runJob s.memory id o pc = some (m, next)) :
    Calm P { s.setWorker w (next.map (id, ·)) with memory := m } := by
  have hun : uncounted pc = false := h.none.2 w (id, pc) hw
  have hkeep : ∀ mtx, (∀ pc', next = some pc' → uncounted pc' = false) →
      Calm P { s.setWorker w (next.map (id, ·)) with
        memory := { s.memory with mtx_ := mtx } } := by
    intro mtx hnext
    refine ⟨⟨h.none.1, ?_⟩, h.started, ?_⟩
    · intro v j hv
      by_cases hvw : v = w
      · subst hvw
        simp only [setWorker, Function.update_self, Option.mem_def, Option.map_eq_some_iff] at hv
        obtain ⟨pc', hpc, rfl⟩ := hv
        exact hnext pc' hpc
      · simp only [setWorker, Function.update_of_ne hvw] at hv
        exact h.none.2 v j hv
    · exact h.main.flags mtx s.memory.cancelled_
  cases pc with
  | unlock =>
    cases hr
    exact hkeep false (fun pc' he => by cases he; rfl)
  | notify =>
    cases hr
    exact hkeep s.memory.mtx_ (fun pc' he => by cases he)
  | _ => cases hun

theorem inv_step {a : ExecutorAction ι} (hI : Inv P Q s) (hok : Allowed P Q s a)
    (h : step s a = some s') : Inv P Q s' := by
  cases a with
  | call graph order =>
    simp only [step] at h
    split_ifs at h with hc
    cases h
    obtain ⟨hnone, hP⟩ := hok.1 graph order rfl
    exact Or.inl ⟨hnone, rfl, hc.2, hP, rfl, rfl, rfl, rfl⟩
  | destroy =>
    simp only [step] at h
    split_ifs at h with hc
    cases h
    rcases hI with hI | hI
    · exact Or.inl ⟨hI.none, hI.started, trivial⟩
    · refine Or.inr (hI.goto ?_ trivial)
      revert hc
      cases s.main <;> simp [ready, callerJob]
  | main o =>
    rcases hI with hI | hI
    · exact hI.mainStep h
    · exact Or.inr (hI.mainStep hok h)
  | take w =>
    simp only [step] at h
    split at h
    · rename_i id queue hw hqueue
      cases h
      rcases hI with hI | hI
      · rw [hI.none.1] at hqueue
        cases hqueue
      · exact Or.inr (hI.take hw hqueue)
    · cases h
  | work w o =>
    simp only [step] at h
    split at h
    · cases h
    · rename_i id pc hw
      split at h
      · cases h
      · rename_i m next hr
        cases h
        rcases hI with hI | hI
        · exact Or.inl (hI.work hw hr)
        · exact Or.inr (hI.work hw hok hr)
  | cancel =>
    simp only [step] at h
    split_ifs at h
    cases h
    rcases hI with hI | hI
    · exact Or.inl ⟨hI.none, hI.started, hI.main.flags s.memory.mtx_ true⟩
    · exact Or.inr (hI.flags _ true _ (fun _ => rfl))
  | worker_loop =>
    simp only [step] at h
    split_ifs at h
    cases h
    rcases hI with hI | hI
    · exact Or.inl ⟨hI.none, hI.started, hI.main⟩
    · exact Or.inr ⟨hI.facts, hI.main, hI.initial, hI.stored⟩

/-- An executor that is in no call, with no job outstanding. -/
structure Start (s : ExecutorSystem ι) : Prop where
  main : s.main = .idle
  none : s.NoneOutstanding
  started : s.memory.started = []

/-- In every run whose steps are allowed the facts of the jobs hold. -/
theorem inv_run {as : List (ExecutorAction ι)} (h0 : Start s) (hok : Meets step (Allowed P Q) s as)
    (hr : run step s as = some s') : Inv P Q s' := by
  refine invariant_of_meets (fun _ _ _ hI hok h => inv_step hI hok h) (Or.inl ?_) hok hr
  refine ⟨h0.none, h0.started, ?_⟩
  rw [h0.main]
  trivial

end ExecutorSystem

end sci
