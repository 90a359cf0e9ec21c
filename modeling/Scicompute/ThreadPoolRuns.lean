-- The runs of a pool. The tasks that it has accepted are in the queue, with one worker
-- each, or finished; the count of queued tasks agrees with the queue outside the
-- sections of the mutex; and once a worker has returned, the queue stays empty.
import Scicompute.Holding
import Scicompute.ThreadPool

open Transition Monitor Holding

namespace sci

namespace ThreadPoolSystem

variable {κ : Type*}

/-! ## The invariant -/

/-- The worker is in a section of the mutex. -/
def workerInside : WorkerPc → Bool
  | .stop => true
  | .pause => true
  | .empty => true
  | .block => true
  | .test_return => true
  | .return => true
  | .test_continue => true
  | .continue => true
  | .pop => true
  | .sub_queued _ => true
  | .add_active _ => true
  | .unlock _ => true
  | _ => false

/-- The caller is in a section of the mutex. -/
def callerInside : CallerPc → Bool
  | .enqueue_stop => true
  | .enqueue_throw => true
  | .enqueue_push => true
  | .enqueue_count => true
  | .enqueue_unlock => true
  | .wait_empty => true
  | .wait_active => true
  | .wait_block => true
  | .wait_unlock => true
  | .resize _ => true
  | _ => false

def inside (s : ThreadPoolSystem κ) : Nat ⊕ κ → Prop
  | .inl w => workerInside (s.worker w) = true
  | .inr c => callerInside (s.caller c) = true

inductive Place
  | queue
  | worker (w : Nat)
  | finished

/-- The tasks in the queue, with a worker, and finished. -/
def places (s : ThreadPoolSystem κ) : Place → List Nat
  | .queue => s.pool.tasks_
  | .worker w => (inFlight (s.worker w)).toList
  | .finished => s.finished

/-- What the worker has found out in its section. -/
def LooksOk (p : ThreadPool) : WorkerPc → Prop
  | .test_return => p.stop_ = true ∨ p.tasks_ ≠ []
  | .test_continue => p.tasks_ ≠ []
  | .pop => p.tasks_ ≠ []
  | _ => True

/-- The worker returns, or has returned. -/
def gone : WorkerPc → Bool
  | .return => true
  | .exited => true
  | _ => false

/-- The task that was taken, or added, and that `queued_` does not know of yet. -/
def uncounted (s : ThreadPoolSystem κ) : Nat × Nat :=
  match s.mtx_ with
  | some (.inl w) =>
    match s.worker w with
    | .sub_queued _ => (1, 0)
    | _ => (0, 0)
  | some (.inr c) =>
    match s.caller c with
    | .enqueue_count => (0, 1)
    | _ => (0, 0)
  | none => (0, 0)

structure Inv (s : ThreadPoolSystem κ) : Prop where
  guards : Guards s.inside s.mtx_
  apart : Apart s.places
  accepted : ∀ k, k < s.accepted ↔ ∃ p, k ∈ s.places p
  queued : s.pool.queued_ + s.uncounted.2 = s.pool.tasks_.length + s.uncounted.1
  looks : ∀ w, LooksOk s.pool (s.worker w)
  gone : ∀ w, gone (s.worker w) = true →
    s.pool.stop_ = true ∧ s.pool.tasks_ = [] ∧ ∀ c, s.caller c ≠ .enqueue_push
  absent : ∀ w, s.pool.workers_ ≤ w → s.worker w = .lock

theorem inv_start (n : Nat) : Inv (start n : ThreadPoolSystem κ) := by
  refine ⟨?_, ?_, ?_, rfl, fun w => trivial, ?_, fun w _ => rfl⟩
  · intro t
    cases t <;> simp [inside, start, workerInside, callerInside]
  · constructor
    · intro p
      cases p <;> simp [places, start, inFlight]
    · intro p q k hp
      cases p <;> simp [places, start, inFlight] at hp
  · intro k
    constructor
    · intro hk
      exact absurd hk (Nat.not_lt_zero k)
    · rintro ⟨p, hp⟩
      cases p <;> simp [places, start, inFlight] at hp
  · intro w hw
    cases hw

/-! ## Who owns the mutex -/

variable {s t : ThreadPoolSystem κ}

section
variable {w : Nat} {pc : WorkerPc} {pool : ThreadPool}

theorem setWorker_self (s : ThreadPoolSystem κ) (w : Nat) (pc : WorkerPc) :
    (s.setWorker w pc).worker w = pc := Function.update_self ..

theorem setWorker_of_ne {v : Nat} (h : v ≠ w) : (s.setWorker w pc).worker v = s.worker v :=
  Function.update_of_ne h ..

theorem inside_setWorker_of_ne {m : Option (Nat ⊕ κ)} {u : Nat ⊕ κ} (h : u ≠ .inl w) :
    inside { s.setWorker w pc with pool := pool, mtx_ := m } u ↔ s.inside u := by
  cases u with
  | inl v =>
    have hv : v ≠ w := fun he => h (he ▸ rfl)
    simp [inside, setWorker, hv]
  | inr c => exact Iff.rfl

theorem guards_setWorker {m : Option (Nat ⊕ κ)} (h : Guards s.inside s.mtx_)
    (hp : Passes (.inl w) (workerInside (s.worker w)) (workerInside pc) s.mtx_ m) :
    Guards (inside { s.setWorker w pc with pool := pool, mtx_ := m }) m := by
  apply h.passes hp Iff.rfl _ fun u hu => inside_setWorker_of_ne hu
  simp [inside, setWorker]

end

/-! ## Steps of a worker -/

theorem LooksOk.of_eq {p p' : ThreadPool} {pc : WorkerPc} (h : LooksOk p pc)
    (htasks : p'.tasks_ = p.tasks_) (hstop : p.stop_ = true → p'.stop_ = true) :
    LooksOk p' pc := by
  cases pc with
  | test_return => exact h.imp hstop (fun hne => by rw [htasks]; exact hne)
  | test_continue => exact fun he => h (htasks ▸ he)
  | pop => exact fun he => h (htasks ▸ he)
  | _ => trivial

/-- The owner of the mutex before and after a step of a thread. -/
def Handles (mtx mtx' : Option (Nat ⊕ κ)) (t : Nat ⊕ κ) : Prop :=
  mtx' = mtx ∨ ((mtx = none ∨ mtx = some t) ∧ (mtx' = none ∨ mtx' = some t))

theorem uncounted_setWorker {w : Nat} {pc : WorkerPc} {pool : ThreadPool}
    {mtx : Option (Nat ⊕ κ)} (hmtx : Handles s.mtx_ mtx (.inl w))
    (hlag : ∀ task, pc ≠ .sub_queued task ∧ s.worker w ≠ .sub_queued task) :
    uncounted { s.setWorker w pc with pool := pool, mtx_ := mtx } = s.uncounted := by
  have hhere : ∀ pc' : WorkerPc, (∀ task, pc' ≠ .sub_queued task) →
      (match pc' with | .sub_queued _ => ((1, 0) : Nat × Nat) | _ => (0, 0)) = (0, 0) := by
    intro pc' hne
    cases pc' with
    | sub_queued task => exact absurd rfl (hne task)
    | _ => rfl
  have hs : s.mtx_ = none ∨ s.mtx_ = some (.inl w) → s.uncounted = (0, 0) := by
    rintro (hm | hm)
    · simp only [uncounted, hm]
    · simp only [uncounted, hm]
      exact hhere _ (fun task => (hlag task).2)
  have hs' : mtx = none ∨ mtx = some (.inl w) →
      uncounted { s.setWorker w pc with pool := pool, mtx_ := mtx } = (0, 0) := by
    rintro (hm | hm)
    · simp only [uncounted, hm]
    · simp only [uncounted, hm, setWorker_self]
      exact hhere _ (fun task => (hlag task).1)
  rcases hmtx with rfl | ⟨h1, h2⟩
  · cases hm : s.mtx_ with
    | none =>
      rw [hs (Or.inl hm)]
      simp only [uncounted]
    | some t =>
      cases t with
      | inr c => simp only [uncounted, hm, setWorker]
      | inl v =>
        by_cases hv : v = w
        · subst hv
          rw [hs (Or.inr hm), ← hm]
          exact hs' (Or.inr hm)
        · simp only [uncounted, hm, setWorker_of_ne hv]
  · rw [hs h1, hs' h2]

/-- What a step of a worker leaves as it was: the queue, `stop_` and the other threads. -/
theorem Inv.of_worker (h : Inv s) {w : Nat} {pc : WorkerPc} (hw : w < s.pool.workers_)
    (hworker : t.worker = Function.update s.worker w pc) (hcaller : t.caller = s.caller)
    (htasks : t.pool.tasks_ = s.pool.tasks_) (hstop : t.pool.stop_ = s.pool.stop_)
    (hworkers : t.pool.workers_ = s.pool.workers_) (hguards : Guards t.inside t.mtx_)
    (hapart : Apart t.places) (haccepted : ∀ k, k < t.accepted ↔ ∃ p, k ∈ t.places p)
    (hqueued : t.pool.queued_ + t.uncounted.2 = t.pool.tasks_.length + t.uncounted.1)
    (hlooks : LooksOk s.pool pc)
    (hgone : ThreadPoolSystem.gone pc = true →
      s.pool.stop_ = true ∧ s.pool.tasks_ = [] ∧ ∀ c, s.caller c ≠ .enqueue_push) : Inv t := by
  have hself : t.worker w = pc := by rw [hworker, Function.update_self]
  have hother : ∀ v, v ≠ w → t.worker v = s.worker v := fun v hv => by
    rw [hworker, Function.update_of_ne hv]
  refine ⟨hguards, hapart, haccepted, hqueued, ?_, ?_, ?_⟩
  · intro v
    by_cases hv : v = w
    · rw [hv, hself]
      exact hlooks.of_eq htasks (fun hs => hstop.trans hs)
    · rw [hother v hv]
      exact (h.looks v).of_eq htasks (fun hs => hstop.trans hs)
  · intro v
    rw [htasks, hstop, hcaller]
    by_cases hv : v = w
    · rw [hv, hself]
      exact hgone
    · rw [hother v hv]
      exact h.gone v
  · intro v hv
    rw [hworkers] at hv
    have hvw : v ≠ w := by omega
    rw [hother v hvw]
    exact h.absent v hv

/-- A step of a worker that moves no task. -/
theorem Inv.worker (h : Inv s) {w : Nat} {pc : WorkerPc} {pool : ThreadPool}
    {mtx : Option (Nat ⊕ κ)} (hw : w < s.pool.workers_)
    (hguards : Guards (inside { s.setWorker w pc with pool := pool, mtx_ := mtx }) mtx)
    (hmtx : Handles s.mtx_ mtx (.inl w))
    (hpool : pool.tasks_ = s.pool.tasks_ ∧ pool.stop_ = s.pool.stop_ ∧
      pool.queued_ = s.pool.queued_ ∧ pool.workers_ = s.pool.workers_)
    (hflight : inFlight pc = inFlight (s.worker w))
    (hlag : ∀ task, pc ≠ .sub_queued task ∧ s.worker w ≠ .sub_queued task)
    (hlooks : LooksOk s.pool pc)
    (hgone : ThreadPoolSystem.gone pc = true →
      s.pool.stop_ = true ∧ s.pool.tasks_ = [] ∧ ∀ c, s.caller c ≠ .enqueue_push) :
    Inv { s.setWorker w pc with pool := pool, mtx_ := mtx } := by
  obtain ⟨htasks, hstop, hqueued, hworkers⟩ := hpool
  have hplaces : places { s.setWorker w pc with pool := pool, mtx_ := mtx } = s.places := by
    funext p
    cases p with
    | queue => exact htasks
    | finished => rfl
    | worker v =>
      by_cases hv : v = w
      · subst hv
        simp only [places, setWorker_self, hflight]
      · simp only [places, setWorker_of_ne hv]
  refine h.of_worker hw rfl rfl htasks hstop hworkers hguards ?_ ?_ ?_ hlooks hgone
  · rw [hplaces]
    exact h.apart
  · rw [hplaces]
    exact h.accepted
  · rw [uncounted_setWorker hmtx hlag]
    simp only [htasks, hqueued]
    exact h.queued

/-- The worker counts the task that it has taken. -/
theorem Inv.subQueued (h : Inv s) {w task : Nat} (hw : w < s.pool.workers_)
    (hpc : s.worker w = .sub_queued task) :
    Inv { s.setWorker w (.add_active task) with
      pool := { s.pool with queued_ := s.pool.queued_ - 1 } } := by
  have hin : s.inside (.inl w) := by simp [inside, hpc, workerInside]
  have howner : s.mtx_ = some (.inl w) := (h.guards _).mp hin
  have hplaces : places { s.setWorker w (.add_active task) with
      pool := { s.pool with queued_ := s.pool.queued_ - 1 } } = s.places := by
    funext p
    cases p with
    | queue => rfl
    | finished => rfl
    | worker v =>
      by_cases hv : v = w
      · subst hv
        simp [places, setWorker, hpc, inFlight]
      · simp [places, setWorker, hv]
  refine h.of_worker hw rfl rfl rfl rfl rfl (guards_setWorker h.guards (.stay (by rw [hpc]; rfl)))
    ?_ ?_ ?_ trivial (fun hg => by cases hg)
  · rw [hplaces]
    exact h.apart
  · rw [hplaces]
    exact h.accepted
  · have hq := h.queued
    simp only [uncounted, howner, hpc, Nat.add_zero] at hq
    simp only [uncounted, setWorker, howner, Function.update_self, Nat.add_zero]
    omega

/-- The run of a task ends. -/
theorem Inv.finish (h : Inv s) {w task : Nat} (hw : w < s.pool.workers_)
    (hpc : s.worker w = .run task) :
    Inv { s.setWorker w .sub_active with finished := task :: s.finished } := by
  let t : ThreadPoolSystem κ := { s.setWorker w .sub_active with finished := task :: s.finished }
  have hfrom : (s.places (.worker w)).Perm (task :: t.places (.worker w)) := by
    simp [t, places, setWorker, inFlight, hpc]
  have hto : (t.places .finished).Perm (task :: s.places .finished) := List.Perm.refl _
  have hother : ∀ p, p ≠ .worker w → p ≠ .finished → t.places p = s.places p := by
    intro p h1 h2
    cases p with
    | queue => rfl
    | finished => exact absurd rfl h2
    | worker v =>
      have hv : v ≠ w := fun he => h1 (he ▸ rfl)
      simp [t, places, setWorker, hv]
  have hlag : ∀ task', WorkerPc.sub_active ≠ .sub_queued task' ∧ s.worker w ≠ .sub_queued task' :=
    fun task' => ⟨by simp, by simp [hpc]⟩
  have hguards : Guards (inside { s.setWorker w .sub_active with pool := s.pool }) s.mtx_ :=
    guards_setWorker h.guards (.stay (by rw [hpc]; rfl))
  have hsame : uncounted { s.setWorker w .sub_active with pool := s.pool, mtx_ := s.mtx_ } =
      s.uncounted := uncounted_setWorker (Or.inl rfl) hlag
  refine h.of_worker hw rfl rfl rfl rfl rfl hguards ?_ ?_ ?_ trivial (fun hg => by cases hg)
  · exact h.apart.move (by simp) hfrom hto hother
  · intro k
    exact (h.accepted k).trans (exists_mem_move (by simp) hfrom hto hother k).symm
  · have hq := h.queued
    rw [← hsame] at hq
    exact hq

/-- The worker takes the first task. -/
theorem Inv.pop (h : Inv s) {w task : Nat} {tasks : List Nat} (hw : w < s.pool.workers_)
    (hpc : s.worker w = .pop) (htasks : s.pool.tasks_ = task :: tasks) :
    Inv { s.setWorker w (.sub_queued task) with pool := { s.pool with tasks_ := tasks } } := by
  let t : ThreadPoolSystem κ :=
    { s.setWorker w (.sub_queued task) with pool := { s.pool with tasks_ := tasks } }
  have hin : s.inside (.inl w) := by simp [inside, hpc, workerInside]
  have howner : s.mtx_ = some (.inl w) := (h.guards _).mp hin
  have hself : t.worker w = .sub_queued task := setWorker_self s w _
  have hrest : ∀ v, v ≠ w → t.worker v = s.worker v := fun v hv => setWorker_of_ne hv
  -- no other worker has looked at the queue, or has seen it empty
  have halone : ∀ v, v ≠ w → workerInside (s.worker v) = false := by
    intro v hv
    by_contra hc
    have hvin : s.inside (.inl v) := by simpa [inside] using hc
    exact hv (Sum.inl.inj (h.guards.unique hvin hin))
  have hstay : ∀ v, ThreadPoolSystem.gone (s.worker v) ≠ true := by
    intro v hg
    have := (h.gone v hg).2.1
    rw [htasks] at this
    cases this
  have hfrom : (s.places .queue).Perm (task :: t.places .queue) := List.Perm.of_eq htasks
  have hto : (t.places (.worker w)).Perm (task :: s.places (.worker w)) := by
    simp [t, places, setWorker, inFlight, hpc]
  have hother : ∀ p, p ≠ .queue → p ≠ .worker w → t.places p = s.places p := by
    intro p h1 h2
    cases p with
    | queue => exact absurd rfl h1
    | finished => rfl
    | worker v =>
      have hv : v ≠ w := fun he => h2 (he ▸ rfl)
      simp [t, places, setWorker, hv]
  refine ⟨guards_setWorker h.guards (.stay (by rw [hpc]; rfl)), ?_, ?_, ?_, ?_, ?_, ?_⟩
  · exact h.apart.move (by simp) hfrom hto hother
  · intro k
    exact (h.accepted k).trans (exists_mem_move (by simp) hfrom hto hother k).symm
  · have hq := h.queued
    simp only [uncounted, howner, hpc, htasks, List.length_cons, Nat.add_zero] at hq
    simp only [uncounted, setWorker, howner, Function.update_self]
    exact hq
  · intro v
    change LooksOk t.pool (t.worker v)
    by_cases hv : v = w
    · rw [hv, hself]
      trivial
    · rw [hrest v hv]
      have hout := halone v hv
      revert hout
      cases s.worker v <;> simp [workerInside, LooksOk]
  · intro v
    change ThreadPoolSystem.gone (t.worker v) = true → _
    by_cases hv : v = w
    · rw [hv, hself]
      intro hg
      cases hg
    · rw [hrest v hv]
      intro hg
      exact absurd hg (hstay v)
  · intro v hv
    change t.worker v = .lock
    have hvw : v ≠ w := by
      rintro rfl
      exact absurd hw (Nat.not_lt.mpr hv)
    rw [hrest v hvw]
    exact h.absent v hv

/-! ## Notifications -/

/-- A caller that wakes up is in no section of the mutex, before and after. -/
theorem Inv.wakeCallers (h : Inv s) :
    Inv { s with caller := wakeAll .wait_asleep .wait_lock s.caller } := by
  have hmap : ∀ {β : Type} (f : CallerPc → β), f .wait_asleep = f .wait_lock →
      ∀ c, f (wakeAll .wait_asleep .wait_lock s.caller c) = f (s.caller c) :=
    fun f hf c => wakeAll_congr f hf s.caller c
  refine ⟨?_, h.apart, h.accepted, ?_, h.looks, ?_, h.absent⟩
  · apply h.guards.stay
    intro t
    cases t with
    | inl w => exact Iff.rfl
    | inr c => simp only [inside, hmap callerInside rfl]
  · have hsame : uncounted { s with caller := wakeAll .wait_asleep .wait_lock s.caller } =
        s.uncounted := by
      rcases hm : s.mtx_ with _ | w | c
      · simp only [uncounted, hm]
      · simp only [uncounted, hm]
      · simp only [uncounted, hm]
        exact hmap (fun pc => match pc with | .enqueue_count => ((0, 1) : Nat × Nat) | _ => (0, 0))
          rfl c
    rw [hsame]
    exact h.queued
  · intro w hw
    obtain ⟨h1, h2, h3⟩ := h.gone w hw
    exact ⟨h1, h2, fun c hc => h3 c ((wakeAll_eq_iff (by simp) (by simp)).mp hc)⟩

/-- A worker that wakes up is in no section of the mutex, before and after. -/
theorem Inv.wakeWorkers [DecidableEq κ] (h : Inv s) : Inv s.wakeWorkers := by
  have hmap : ∀ {β : Type} (f : WorkerPc → β), f .asleep = f .lock →
      ∀ w, f (wakeAll .asleep .lock s.worker w) = f (s.worker w) :=
    fun f hf w => wakeAll_congr f hf s.worker w
  have hplaces : places s.wakeWorkers = s.places := by
    funext p
    cases p with
    | queue => rfl
    | finished => rfl
    | worker w => exact congrArg Option.toList (hmap inFlight rfl w)
  refine ⟨?_, ?_, ?_, ?_, ?_, ?_, ?_⟩
  · apply h.guards.stay
    intro t
    cases t with
    | inl w => simp only [inside, ThreadPoolSystem.wakeWorkers, hmap workerInside rfl]
    | inr c => exact Iff.rfl
  · rw [hplaces]
    exact h.apart
  · rw [hplaces]
    exact h.accepted
  · have hsame : uncounted s.wakeWorkers = s.uncounted := by
      rcases hm : s.mtx_ with _ | w | c
      · simp only [uncounted, ThreadPoolSystem.wakeWorkers, hm]
      · simp only [uncounted, ThreadPoolSystem.wakeWorkers, hm]
        exact hmap (fun pc => match pc with | .sub_queued _ => ((1, 0) : Nat × Nat) | _ => (0, 0))
          rfl w
      · simp only [uncounted, ThreadPoolSystem.wakeWorkers, hm]
    rw [hsame]
    exact h.queued
  · intro w
    change LooksOk s.pool (wakeAll .asleep .lock s.worker w)
    unfold wakeAll
    split_ifs
    · trivial
    · exact h.looks w
  · intro w hw
    change ThreadPoolSystem.gone (wakeAll .asleep .lock s.worker w) = true at hw
    rw [hmap ThreadPoolSystem.gone rfl w] at hw
    exact h.gone w hw
  · intro w hw
    change wakeAll .asleep .lock s.worker w = .lock
    have hl := h.absent w hw
    rw [wakeAll_of_ne (by rw [hl]; simp), hl]

theorem Inv.lt_of_asleep (h : Inv s) {w : Nat} (hpc : s.worker w = .asleep) :
    w < s.pool.workers_ := by
  by_contra hc
  have hl := h.absent w (Nat.not_lt.mp hc)
  rw [hpc] at hl
  cases hl

/-- A notification, or no reason at all, wakes one worker. -/
theorem Inv.wake (h : Inv s) {w : Nat} (hpc : s.worker w = .asleep) :
    Inv (s.setWorker w .lock) :=
  h.worker (h.lt_of_asleep hpc) (guards_setWorker h.guards (.stay (by rw [hpc]; rfl))) (Or.inl rfl)
    ⟨rfl, rfl, rfl, rfl⟩ (by rw [hpc]; rfl) (by simp [hpc]) trivial (fun hg => by cases hg)

theorem inv_workerStep (h : Inv s) {w : Nat} (hw : w < s.pool.workers_)
    (hs : s.workerStep w = some t) : Inv t := by
  have hlooks := h.looks w
  have hstay : ∀ pc, workerInside pc = workerInside (s.worker w) →
      inFlight pc = inFlight (s.worker w) →
      (∀ task, pc ≠ .sub_queued task ∧ s.worker w ≠ .sub_queued task) → LooksOk s.pool pc →
      (ThreadPoolSystem.gone pc = true →
        s.pool.stop_ = true ∧ s.pool.tasks_ = [] ∧ ∀ c, s.caller c ≠ .enqueue_push) →
      Inv (s.setWorker w pc) := fun pc h1 h2 h3 h4 h5 =>
    h.worker hw (guards_setWorker h.guards (.stay h1)) (Or.inl rfl) ⟨rfl, rfl, rfl, rfl⟩ h2 h3 h4 h5
  have hleave : ∀ pc, workerInside (s.worker w) = true → workerInside pc = false →
      inFlight pc = inFlight (s.worker w) →
      (∀ task, pc ≠ .sub_queued task ∧ s.worker w ≠ .sub_queued task) → LooksOk s.pool pc →
      (ThreadPoolSystem.gone pc = true →
        s.pool.stop_ = true ∧ s.pool.tasks_ = [] ∧ ∀ c, s.caller c ≠ .enqueue_push) →
      Inv { s.setWorker w pc with mtx_ := none } := fun pc h1 h2 h3 h4 h5 h6 =>
    h.worker hw (guards_setWorker h.guards (.leave h1 h2))
      (Or.inr ⟨Or.inr ((h.guards (.inl w)).mp h1), Or.inl rfl⟩) ⟨rfl, rfl, rfl, rfl⟩ h3 h4 h5 h6
  cases hpc : s.worker w with
  | lock =>
    simp only [workerStep, hpc] at hs
    split_ifs at hs with hm
    cases hs
    rw [Option.not_isSome_iff_eq_none] at hm
    exact h.worker hw (guards_setWorker h.guards (.of_free hm (by rw [hpc]; rfl) rfl))
      (Or.inr ⟨Or.inl hm, Or.inr rfl⟩) ⟨rfl, rfl, rfl, rfl⟩ (by rw [hpc]; rfl) (by simp [hpc]) trivial (fun hg => by cases hg)
  | stop =>
    simp only [workerStep, hpc] at hs
    split_ifs at hs with hstop
    · cases hs
      exact hstay _ (by rw [hpc]; rfl) (by rw [hpc]; rfl) (by simp [hpc]) (Or.inl hstop)
        (fun hg => by cases hg)
    · cases hs
      exact hstay _ (by rw [hpc]; rfl) (by rw [hpc]; rfl) (by simp [hpc]) trivial
        (fun hg => by cases hg)
  | pause =>
    simp only [workerStep, hpc] at hs
    split_ifs at hs
    all_goals
      cases hs
      exact hstay _ (by rw [hpc]; rfl) (by rw [hpc]; rfl) (by simp [hpc]) trivial
        (fun hg => by cases hg)
  | empty =>
    simp only [workerStep, hpc] at hs
    split_ifs at hs with he
    · cases hs
      exact hstay _ (by rw [hpc]; rfl) (by rw [hpc]; rfl) (by simp [hpc]) trivial
        (fun hg => by cases hg)
    · cases hs
      exact hstay _ (by rw [hpc]; rfl) (by rw [hpc]; rfl) (by simp [hpc]) (Or.inr he)
        (fun hg => by cases hg)
  | block =>
    simp only [workerStep, hpc] at hs
    cases hs
    exact hleave _ (by rw [hpc]; rfl) rfl (by rw [hpc]; rfl) (by simp [hpc]) trivial
      (fun hg => by cases hg)
  | test_return =>
    rw [hpc] at hlooks
    simp only [workerStep, hpc] at hs
    split_ifs at hs with hret
    · cases hs
      refine hstay _ (by rw [hpc]; rfl) (by rw [hpc]; rfl) (by simp [hpc]) trivial
        (fun _ => ⟨hret.1, hret.2, ?_⟩)
      -- an enqueuer that is about to push owns the mutex
      intro c hc
      have h1 : s.inside (.inl w) := by simp [inside, hpc, workerInside]
      have h2 : s.inside (.inr c) := by simp [inside, hc, callerInside]
      cases h.guards.unique h1 h2
    · cases hs
      refine hstay _ (by rw [hpc]; rfl) (by rw [hpc]; rfl) (by simp [hpc]) ?_
        (fun hg => by cases hg)
      intro he
      exact hret ⟨hlooks.resolve_right (fun hne => hne he), he⟩
  | «return» =>
    simp only [workerStep, hpc] at hs
    cases hs
    exact hleave _ (by rw [hpc]; rfl) rfl (by rw [hpc]; rfl) (by simp [hpc]) trivial
      (fun _ => h.gone w (by rw [hpc]; rfl))
  | test_continue =>
    rw [hpc] at hlooks
    simp only [workerStep, hpc] at hs
    split_ifs at hs
    · cases hs
      exact hstay _ (by rw [hpc]; rfl) (by rw [hpc]; rfl) (by simp [hpc]) trivial
        (fun hg => by cases hg)
    · cases hs
      exact hstay _ (by rw [hpc]; rfl) (by rw [hpc]; rfl) (by simp [hpc]) hlooks
        (fun hg => by cases hg)
  | «continue» =>
    simp only [workerStep, hpc] at hs
    cases hs
    exact hleave _ (by rw [hpc]; rfl) rfl (by rw [hpc]; rfl) (by simp [hpc]) trivial
      (fun hg => by cases hg)
  | pop =>
    simp only [workerStep, hpc] at hs
    split at hs
    · cases hs
    · rename_i task tasks htasks
      cases hs
      exact h.pop hw hpc htasks
  | sub_queued task =>
    simp only [workerStep, hpc] at hs
    cases hs
    exact h.subQueued hw hpc
  | unlock task =>
    simp only [workerStep, hpc] at hs
    cases hs
    exact hleave _ (by rw [hpc]; rfl) rfl (by rw [hpc]; rfl) (by simp [hpc]) trivial
      (fun hg => by cases hg)
  | run task =>
    simp only [workerStep, hpc] at hs
    cases hs
    exact h.finish hw hpc
  | notify_all =>
    simp only [workerStep, hpc] at hs
    cases hs
    exact (hstay .lock (by rw [hpc]; rfl) (by rw [hpc]; rfl) (by simp [hpc]) trivial
      (fun hg => by cases hg)).wakeCallers
  | asleep => simp [workerStep, hpc] at hs
  | exited => simp [workerStep, hpc] at hs
  | _ =>
    simp only [workerStep, hpc] at hs
    cases hs
    exact h.worker hw (guards_setWorker h.guards (.stay (by rw [hpc]; rfl))) (Or.inl rfl)
      ⟨rfl, rfl, rfl, rfl⟩ (by rw [hpc]; rfl) (by simp [hpc]) trivial (fun hg => by cases hg)

theorem workers_workerStep {w : Nat} (hs : s.workerStep w = some t) :
    t.pool.workers_ = s.pool.workers_ := by
  unfold workerStep at hs
  split at hs
  case h_11 =>
    split at hs
    · cases hs
    · cases hs
      rfl
  all_goals
    try split_ifs at hs
  all_goals
    cases hs
    try rfl

/-! ## Steps of a caller -/

section
variable [DecidableEq κ] {c : κ} {pc : CallerPc} {pool : ThreadPool}

theorem setCaller_self (s : ThreadPoolSystem κ) (c : κ) (pc : CallerPc) :
    (s.setCaller c pc).caller c = pc := Function.update_self ..

theorem setCaller_of_ne {d : κ} (h : d ≠ c) : (s.setCaller c pc).caller d = s.caller d :=
  Function.update_of_ne h ..

theorem inside_setCaller_of_ne {m : Option (Nat ⊕ κ)} {u : Nat ⊕ κ} (h : u ≠ .inr c) :
    inside { s.setCaller c pc with pool := pool, mtx_ := m } u ↔ s.inside u := by
  cases u with
  | inl w => exact Iff.rfl
  | inr d =>
    have hd : d ≠ c := fun he => h (he ▸ rfl)
    simp [inside, setCaller, hd]

theorem guards_setCaller {m : Option (Nat ⊕ κ)} (h : Guards s.inside s.mtx_)
    (hp : Passes (.inr c) (callerInside (s.caller c)) (callerInside pc) s.mtx_ m) :
    Guards (inside { s.setCaller c pc with pool := pool, mtx_ := m }) m := by
  apply h.passes hp Iff.rfl _ fun u hu => inside_setCaller_of_ne hu
  simp [inside, setCaller]

theorem uncounted_setCaller {mtx : Option (Nat ⊕ κ)} (hmtx : Handles s.mtx_ mtx (.inr c))
    (hlag : pc ≠ .enqueue_count ∧ s.caller c ≠ .enqueue_count) :
    uncounted { s.setCaller c pc with pool := pool, mtx_ := mtx } = s.uncounted := by
  have hhere : ∀ pc' : CallerPc, pc' ≠ .enqueue_count →
      (match pc' with | .enqueue_count => ((0, 1) : Nat × Nat) | _ => (0, 0)) = (0, 0) := by
    intro pc' hne
    cases pc' with
    | enqueue_count => exact absurd rfl hne
    | _ => rfl
  have hs : s.mtx_ = none ∨ s.mtx_ = some (.inr c) → s.uncounted = (0, 0) := by
    rintro (hm | hm)
    · simp only [uncounted, hm]
    · simp only [uncounted, hm]
      exact hhere _ hlag.2
  have hs' : mtx = none ∨ mtx = some (.inr c) →
      uncounted { s.setCaller c pc with pool := pool, mtx_ := mtx } = (0, 0) := by
    rintro (hm | hm)
    · simp only [uncounted, hm]
    · simp only [uncounted, hm, setCaller_self]
      exact hhere _ hlag.1
  rcases hmtx with rfl | ⟨h1, h2⟩
  · rcases hm : s.mtx_ with _ | w | d
    · rw [hs (Or.inl hm)]
      simp only [uncounted]
    · simp only [uncounted, hm, setCaller]
    · by_cases hd : d = c
      · subst hd
        rw [hs (Or.inr hm), ← hm]
        exact hs' (Or.inr hm)
      · simp only [uncounted, hm, setCaller_of_ne hd]
  · rw [hs h1, hs' h2]

/-- A step of a caller that leaves the queue as it was. -/
theorem Inv.of_caller (h : Inv s) {mtx : Option (Nat ⊕ κ)}
    (hguards : Guards (inside { s.setCaller c pc with pool := pool, mtx_ := mtx }) mtx)
    (htasks : pool.tasks_ = s.pool.tasks_) (hstop : s.pool.stop_ = true → pool.stop_ = true)
    (hworkers : s.pool.workers_ ≤ pool.workers_)
    (hqueued : pool.queued_ +
        (uncounted { s.setCaller c pc with pool := pool, mtx_ := mtx }).2 =
      s.pool.tasks_.length + (uncounted { s.setCaller c pc with pool := pool, mtx_ := mtx }).1)
    (hpush : pc = .enqueue_push → s.pool.stop_ = false) :
    Inv { s.setCaller c pc with pool := pool, mtx_ := mtx } := by
  have hplaces : places { s.setCaller c pc with pool := pool, mtx_ := mtx } = s.places := by
    funext p
    cases p with
    | queue => exact htasks
    | _ => rfl
  refine ⟨hguards, ?_, ?_, ?_, fun w => (h.looks w).of_eq htasks hstop, ?_, ?_⟩
  · rw [hplaces]
    exact h.apart
  · rw [hplaces]
    exact h.accepted
  · simp only [htasks]
    exact hqueued
  · intro w hw
    obtain ⟨h1, h2, h3⟩ := h.gone w hw
    refine ⟨hstop h1, htasks.trans h2, ?_⟩
    intro d hd
    by_cases hdc : d = c
    · subst hdc
      simp only [setCaller_self] at hd
      rw [hpush hd] at h1
      cases h1
    · simp only [setCaller_of_ne hdc] at hd
      exact h3 d hd
  · intro w hw
    exact h.absent w (Nat.le_trans hworkers hw)

/-- A step of a caller that leaves the queue and its count as they were. -/
theorem Inv.caller (h : Inv s) {mtx : Option (Nat ⊕ κ)}
    (hguards : Guards (inside { s.setCaller c pc with pool := pool, mtx_ := mtx }) mtx)
    (hmtx : Handles s.mtx_ mtx (.inr c))
    (hpool : pool.tasks_ = s.pool.tasks_ ∧ (s.pool.stop_ = true → pool.stop_ = true) ∧
      pool.queued_ = s.pool.queued_ ∧ pool.workers_ = s.pool.workers_)
    (hlag : pc ≠ .enqueue_count ∧ s.caller c ≠ .enqueue_count)
    (hpush : pc = .enqueue_push → s.pool.stop_ = false) :
    Inv { s.setCaller c pc with pool := pool, mtx_ := mtx } := by
  obtain ⟨htasks, hstop, hqueued, hworkers⟩ := hpool
  refine h.of_caller hguards htasks hstop (Nat.le_of_eq hworkers.symm) ?_ hpush
  rw [uncounted_setCaller hmtx hlag, hqueued]
  exact h.queued

/-- `enqueue` counts the task that it has added. -/
theorem Inv.count (h : Inv s) (hpc : s.caller c = .enqueue_count) :
    Inv { s.setCaller c .enqueue_unlock with
      pool := { s.pool with queued_ := s.pool.queued_ + 1 } } := by
  have hin : s.inside (.inr c) := by simp [inside, hpc, callerInside]
  have howner : s.mtx_ = some (.inr c) := (h.guards _).mp hin
  refine h.of_caller (guards_setCaller h.guards (.stay (by rw [hpc]; rfl))) rfl id (Nat.le_refl _) ?_
    (fun he => by cases he)
  have hq := h.queued
  simp only [uncounted, howner, hpc, Nat.add_zero] at hq
  simp only [uncounted, setCaller, howner, Function.update_self, Nat.add_zero]
  exact hq

/-- `enqueue` adds a task at the end of the queue. -/
theorem Inv.push (h : Inv s) (hpc : s.caller c = .enqueue_push) :
    Inv { s.setCaller c .enqueue_count with
      pool := { s.pool with tasks_ := s.pool.tasks_ ++ [s.accepted] }
      accepted := s.accepted + 1 } := by
  let t : ThreadPoolSystem κ := { s.setCaller c .enqueue_count with
    pool := { s.pool with tasks_ := s.pool.tasks_ ++ [s.accepted] }
    accepted := s.accepted + 1 }
  have hin : s.inside (.inr c) := by simp [inside, hpc, callerInside]
  have howner : s.mtx_ = some (.inr c) := (h.guards _).mp hin
  have hfresh : ∀ p, s.accepted ∉ s.places p := by
    intro p hp
    exact Nat.lt_irrefl _ ((h.accepted s.accepted).mpr ⟨p, hp⟩)
  have hhere : (t.places .queue).Perm (s.accepted :: s.places .queue) :=
    List.perm_append_singleton _ _
  have hother : ∀ p, p ≠ .queue → t.places p = s.places p := by
    intro p hp
    cases p with
    | queue => exact absurd rfl hp
    | _ => rfl
  have hguards : Guards (inside { s.setCaller c .enqueue_count with pool := t.pool }) s.mtx_ :=
    guards_setCaller h.guards (.stay (by rw [hpc]; rfl))
  refine ⟨hguards, ?_, ?_, ?_, ?_, ?_, h.absent⟩
  · exact h.apart.add hfresh hhere hother
  · intro k
    constructor
    · intro hk
      rcases Nat.lt_succ_iff_lt_or_eq.mp hk with hk | rfl
      · obtain ⟨p, hp⟩ := (h.accepted k).mp hk
        by_cases hpq : p = .queue
        · subst hpq
          exact ⟨.queue, hhere.mem_iff.mpr (List.mem_cons_of_mem _ hp)⟩
        · exact ⟨p, (hother p hpq).symm ▸ hp⟩
      · exact ⟨.queue, hhere.mem_iff.mpr (List.mem_cons_self ..)⟩
    · rintro ⟨p, hp⟩
      by_cases hpq : p = .queue
      · subst hpq
        rcases List.mem_cons.mp (hhere.mem_iff.mp hp) with rfl | hp
        · exact Nat.lt_succ_self _
        · exact Nat.lt_succ_of_lt ((h.accepted k).mpr ⟨_, hp⟩)
      · have hp' : k ∈ s.places p := (hother p hpq) ▸ hp
        exact Nat.lt_succ_of_lt ((h.accepted k).mpr ⟨p, hp'⟩)
  · have hq := h.queued
    simp only [uncounted, howner, hpc, Nat.add_zero] at hq
    simp only [uncounted, setCaller, howner, Function.update_self, Nat.add_zero,
      List.length_append, List.length_singleton]
    omega
  · intro w
    have hl := h.looks w
    change LooksOk t.pool (s.worker w)
    revert hl
    cases s.worker w with
    | test_return => exact fun hl => hl.imp id (fun _ => by simp [t])
    | test_continue => exact fun _ => by simp [t, LooksOk]
    | pop => exact fun _ => by simp [t, LooksOk]
    | _ => exact fun _ => trivial
  · -- no worker has returned while a caller is about to push
    intro w hw
    exact absurd hpc ((h.gone w hw).2.2 c)

theorem inv_callerStep (h : Inv s) {woken : Option Nat} (hs : s.callerStep c woken = some t) :
    Inv t := by
  have hstay : ∀ pc, callerInside pc = callerInside (s.caller c) →
      (pc ≠ .enqueue_count ∧ s.caller c ≠ .enqueue_count) →
      (pc = .enqueue_push → s.pool.stop_ = false) → Inv (s.setCaller c pc) := fun pc h1 h2 h3 =>
    h.caller (guards_setCaller h.guards (.stay h1)) (Or.inl rfl) ⟨rfl, id, rfl, rfl⟩ h2 h3
  have henter : ∀ pc, s.mtx_ = none → callerInside (s.caller c) = false →
      callerInside pc = true →
      (pc ≠ .enqueue_count ∧ s.caller c ≠ .enqueue_count) → pc ≠ .enqueue_push →
      Inv { s.setCaller c pc with mtx_ := some (.inr c) } := fun pc h1 h2 h3 h4 h5 =>
    h.caller (guards_setCaller h.guards (.of_free h1 h2 h3)) (Or.inr ⟨Or.inl h1, Or.inr rfl⟩)
      ⟨rfl, id, rfl, rfl⟩ h4 (fun he => absurd he h5)
  have hleave : ∀ pc, callerInside (s.caller c) = true → callerInside pc = false →
      (pc ≠ .enqueue_count ∧ s.caller c ≠ .enqueue_count) → pc ≠ .enqueue_push →
      Inv { s.setCaller c pc with mtx_ := none } := fun pc h1 h2 h3 h4 =>
    h.caller (guards_setCaller h.guards (.leave h1 h2))
      (Or.inr ⟨Or.inr ((h.guards (.inr c)).mp h1), Or.inl rfl⟩) ⟨rfl, id, rfl, rfl⟩ h3
      (fun he => absurd he h4)
  cases hpc : s.caller c with
  | idle => simp [callerStep, hpc] at hs
  | enqueue_lock =>
    simp only [callerStep, hpc] at hs
    split_ifs at hs with hm
    cases hs
    rw [Option.not_isSome_iff_eq_none] at hm
    exact henter _ hm (by rw [hpc]; rfl) rfl (by simp [hpc]) (by simp)
  | enqueue_stop =>
    simp only [callerStep, hpc] at hs
    split_ifs at hs with hstop
    · cases hs
      exact hstay _ (by rw [hpc]; rfl) (by simp [hpc]) (fun he => by cases he)
    · cases hs
      exact hstay _ (by rw [hpc]; rfl) (by simp [hpc]) (fun _ => by simpa using hstop)
  | enqueue_throw =>
    simp only [callerStep, hpc] at hs
    cases hs
    exact hleave _ (by rw [hpc]; rfl) rfl (by simp [hpc]) (by simp)
  | enqueue_push =>
    simp only [callerStep, hpc] at hs
    cases hs
    exact h.push hpc
  | enqueue_count =>
    simp only [callerStep, hpc] at hs
    cases hs
    exact h.count hpc
  | enqueue_unlock =>
    simp only [callerStep, hpc] at hs
    cases hs
    exact hleave _ (by rw [hpc]; rfl) rfl (by simp [hpc]) (by simp)
  | enqueue_notify_one =>
    have hidle : Inv (s.setCaller c .idle) :=
      hstay _ (by rw [hpc]; rfl) (by simp [hpc]) (fun he => by cases he)
    cases woken with
    | none =>
      simp only [callerStep, hpc] at hs
      split_ifs at hs
      cases hs
      exact hidle
    | some w =>
      simp only [callerStep, hpc] at hs
      split_ifs at hs with hw
      cases hs
      exact hidle.wake hw.2
  | wait_lock =>
    simp only [callerStep, hpc] at hs
    split_ifs at hs with hm
    cases hs
    rw [Option.not_isSome_iff_eq_none] at hm
    exact henter _ hm (by rw [hpc]; rfl) rfl (by simp [hpc]) (by simp)
  | wait_empty =>
    simp only [callerStep, hpc] at hs
    split_ifs at hs
    all_goals
      cases hs
      exact hstay _ (by rw [hpc]; rfl) (by simp [hpc]) (fun he => by cases he)
  | wait_active =>
    simp only [callerStep, hpc] at hs
    split_ifs at hs
    all_goals
      cases hs
      exact hstay _ (by rw [hpc]; rfl) (by simp [hpc]) (fun he => by cases he)
  | wait_block =>
    simp only [callerStep, hpc] at hs
    cases hs
    exact hleave _ (by rw [hpc]; rfl) rfl (by simp [hpc]) (by simp)
  | wait_asleep => simp [callerStep, hpc] at hs
  | wait_unlock =>
    simp only [callerStep, hpc] at hs
    cases hs
    exact hleave _ (by rw [hpc]; rfl) rfl (by simp [hpc]) (by simp)
  | resume_notify_all =>
    simp only [callerStep, hpc] at hs
    cases hs
    exact (hstay .idle (by rw [hpc]; rfl) (by simp [hpc]) (fun he => by cases he)).wakeWorkers
  | resize_lock n =>
    simp only [callerStep, hpc] at hs
    split_ifs at hs with hm
    cases hs
    rw [Option.not_isSome_iff_eq_none] at hm
    exact henter _ hm (by rw [hpc]; rfl) rfl (by simp [hpc]) (by simp)
  | resize n =>
    simp only [callerStep, hpc] at hs
    split_ifs at hs
    · cases hs
      exact hleave _ (by rw [hpc]; rfl) rfl (by simp [hpc]) (by simp)
    · cases hs
      exact ⟨h.guards, h.apart, h.accepted, h.queued, h.looks, h.gone,
        fun w hw => h.absent w (Nat.le_of_succ_le hw)⟩
  | shutdown_notify_all =>
    simp only [callerStep, hpc] at hs
    cases hs
    exact (hstay .join (by rw [hpc]; rfl) (by simp [hpc]) (fun he => by cases he)).wakeWorkers
  | join =>
    simp only [callerStep, hpc] at hs
    split_ifs at hs
    cases hs
    exact hstay _ (by rw [hpc]; rfl) (by simp [hpc]) (fun he => by cases he)
  | joined => simp [callerStep, hpc] at hs
  -- `pause_` and `stop_` are stored without the mutex
  | shutdown =>
    simp only [callerStep, hpc] at hs
    cases hs
    exact h.caller (guards_setCaller h.guards (.stay (by rw [hpc]; rfl))) (Or.inl rfl)
      ⟨rfl, fun _ => rfl, rfl, rfl⟩ (by simp [hpc]) (fun he => by cases he)
  | _ =>
    simp only [callerStep, hpc] at hs
    cases hs
    exact h.caller (guards_setCaller h.guards (.stay (by rw [hpc]; rfl))) (Or.inl rfl)
      ⟨rfl, id, rfl, rfl⟩ (by simp [hpc]) (fun he => by cases he)

/-! ## Runs -/

theorem workers_callerStep {woken : Option Nat} (hs : s.callerStep c woken = some t) :
    s.pool.workers_ ≤ t.pool.workers_ := by
  unfold callerStep at hs
  split at hs
  case h_8 =>
    split at hs
    all_goals
      split_ifs at hs
      cases hs
      exact Nat.le_refl _
  all_goals
    try split_ifs at hs
  all_goals
    cases hs
    try exact Nat.le_refl _
  exact Nat.le_succ _

theorem inv_step (a : ThreadPoolAction κ) (h : Inv s) (hs : s.step a = some t) : Inv t := by
  cases a with
  | call c call =>
    simp only [step] at hs
    split_ifs at hs with hidle
    cases hs
    refine h.caller (guards_setCaller h.guards (.stay ?_)) (Or.inl rfl) ⟨rfl, id, rfl, rfl⟩ ?_ ?_
    · rw [hidle]
      cases call <;> rfl
    · rw [hidle]
      cases call <;> simp [enter]
    · intro he
      cases call <;> cases he
  | worker w =>
    simp only [step] at hs
    split_ifs at hs with hw
    exact inv_workerStep h hw hs
  | caller c woken => exact inv_callerStep h hs
  | spurious u =>
    cases u with
    | inl w =>
      simp only [step] at hs
      split_ifs at hs with hw
      cases hs
      exact h.wake hw
    | inr d =>
      simp only [step] at hs
      split_ifs at hs with hd
      cases hs
      exact h.caller (guards_setCaller h.guards (.stay (by rw [hd]; rfl))) (Or.inl rfl)
        ⟨rfl, id, rfl, rfl⟩ (by simp [hd]) (fun he => by cases he)

theorem inv_of_run {n : Nat} {as : List (ThreadPoolAction κ)}
    (hr : run step (start n) as = some s) : Inv s :=
  invariant_of_run (fun _ a _ h hs => inv_step a h hs) (inv_start n) hr

/-- Workers are added, and never taken away. -/
theorem workers_le_of_step {a : ThreadPoolAction κ} (hs : s.step a = some t) :
    s.pool.workers_ ≤ t.pool.workers_ := by
  cases a with
  | call c call =>
    simp only [step] at hs
    split_ifs at hs
    cases hs
    exact Nat.le_refl _
  | worker w =>
    simp only [step] at hs
    split_ifs at hs
    exact Nat.le_of_eq (workers_workerStep hs).symm
  | caller c woken => exact workers_callerStep hs
  | spurious u =>
    cases u with
    | _ =>
      simp only [step] at hs
      split_ifs at hs
      cases hs
      exact Nat.le_refl _

/-- In every state that a pool with workers reaches, each task that was accepted is in the queue,
with one worker, or finished, and in one of these places only. When the mutex is free, `queued_`
is the length of the queue. When all workers have returned, each accepted task has been run
once. -/
theorem tasks_are_run_exactly_once {n : Nat} (hn : 1 ≤ n) {as : List (ThreadPoolAction κ)}
    (hr : run step (start n) as = some s) :
    (∀ k < s.accepted, ∃ p, (s.places p).count k = 1 ∧ ∀ q, q ≠ p → k ∉ s.places q) ∧
    (∀ p, ∀ k ∈ s.places p, k < s.accepted) ∧
    (s.mtx_ = none → s.pool.queued_ = s.pool.tasks_.length) ∧
    ((∀ w < s.pool.workers_, s.worker w = .exited) →
      s.pool.tasks_ = [] ∧ ∀ k < s.accepted, s.finished.count k = 1) := by
  have h : Inv s := inv_of_run hr
  have hworkers : n ≤ s.pool.workers_ :=
    invariant_of_run (I := fun t => n ≤ t.pool.workers_)
      (fun _ _ _ hle hs => Nat.le_trans hle (workers_le_of_step hs)) (Nat.le_refl n) hr
  refine ⟨?_, ?_, ?_, ?_⟩
  · intro k hk
    obtain ⟨p, hp⟩ := (h.accepted k).mp hk
    exact ⟨p, List.count_eq_one_of_mem (h.apart.nodup p) hp,
      fun q hq hkq => hq (h.apart.unique hkq hp)⟩
  · intro p k hk
    exact (h.accepted k).mpr ⟨p, hk⟩
  · intro hfree
    simpa [uncounted, hfree] using h.queued
  · intro hexit
    have hempty : s.pool.tasks_ = [] :=
      (h.gone 0 (by rw [hexit 0 (by omega)]; rfl)).2.1
    refine ⟨hempty, ?_⟩
    intro k hk
    obtain ⟨p, hp⟩ := (h.accepted k).mp hk
    cases p with
    | queue =>
      rw [places, hempty] at hp
      cases hp
    | worker w =>
      -- a worker that has returned has no task, and neither has one that was never started
      have hnone : inFlight (s.worker w) = none := by
        by_cases hw : w < s.pool.workers_
        · rw [hexit w hw]
          rfl
        · rw [h.absent w (Nat.not_lt.mp hw)]
          rfl
      rw [places, hnone] at hp
      cases hp
    | finished => exact List.count_eq_one_of_mem (h.apart.nodup .finished) hp

end

/-! ## A pool that is shut down -/

/-- `n` steps of a worker. -/
def workerSteps (w n : Nat) : List (ThreadPoolAction κ) := List.replicate n (.worker w)

/-- `n` steps of a caller. -/
def callerSteps (c : κ) (n : Nat) : List (ThreadPoolAction κ) :=
  List.replicate n (.caller c none)

/-- A task is queued, the pool is shut down, and the worker takes the task before it returns. -/
def drainedRun : List (ThreadPoolAction Unit) :=
  [.call () .enqueue] ++ callerSteps () 6 ++ [.call () .shutdown] ++ callerSteps () 2 ++
    workerSteps 0 16 ++ callerSteps () 1

theorem one_task_is_drained : ∃ s : ThreadPoolSystem Unit, run step (start 1) drainedRun = some s ∧
    s.caller () = .joined ∧ s.accepted = 1 ∧ s.pool.tasks_ = [] ∧ s.finished.count 0 = 1 := by
  obtain ⟨s, hs, hjoined, haccepted, hworkers, hexit⟩ :
      ∃ s : ThreadPoolSystem Unit, run step (start 1) drainedRun = some s ∧
        s.caller () = .joined ∧ s.accepted = 1 ∧ s.pool.workers_ = 1 ∧ s.worker 0 = .exited :=
    exists_of_any (by decide +kernel)
  obtain ⟨-, -, -, hdone⟩ := tasks_are_run_exactly_once (by decide) hs
  obtain ⟨hempty, hcount⟩ := hdone (by
    intro w hw
    obtain rfl : w = 0 := by omega
    exact hexit)
  exact ⟨s, hs, hjoined, haccepted, hempty, hcount 0 (by omega)⟩

end ThreadPoolSystem

end sci
