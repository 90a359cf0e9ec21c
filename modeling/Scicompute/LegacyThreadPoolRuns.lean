-- The runs of a `LegacyThreadPool`. The tasks are in the queue, with one worker each, or
-- finished, and `active_` counts the workers that have counted themselves: `WaitAll` misses
-- a task exactly when it looks between the pop of the task and that count.
import Scicompute.Holding
import Scicompute.LegacyThreadPool

open Transition Monitor Holding

namespace sci

namespace bridges

namespace LegacyThreadPool

namespace System

variable {κ : Type*} {s t : System κ}

/-! ## The invariant -/

/-- The worker is in a section of the mutex. -/
def workerInside : WorkerPc → Bool
  | .stop => true
  | .empty => true
  | .pause => true
  | .block => true
  | .test_return => true
  | .return => true
  | .pop => true
  | .unlock _ => true
  | _ => false

/-- The caller is in a section of the mutex. -/
def callerInside : CallerPc → Bool
  | .enqueue_push => true
  | .enqueue_count _ => true
  | .enqueue_unlock _ => true
  | .wait_empty => true
  | .wait_active => true
  | .wait_block => true
  | .wait_unlock => true
  | _ => false

def inside (s : System κ) : Nat ⊕ κ → Prop
  | .inl w => workerInside (s.worker w) = true
  | .inr c => callerInside (s.caller c) = true

/-- The task that a worker has taken and not yet run to its end. -/
def inFlight : WorkerPc → Option Nat
  | .unlock task => task
  | .add_active task => some task
  | .sub_queued task => some task
  | .run task => some task
  | _ => none

/-- The worker is counted in `active_`. -/
def counts : WorkerPc → Bool
  | .sub_queued _ => true
  | .run _ => true
  | .add_completed => true
  | .sub_active => true
  | _ => false

/-- The task of an `Enqueue` that has pushed it and not returned. -/
def carries : CallerPc → Option Nat
  | .enqueue_count task => some task
  | .enqueue_unlock task => some task
  | .enqueue_notify_one task => some task
  | _ => none

inductive Place
  | queue
  | worker (w : Nat)
  | finished

/-- The tasks in the queue, with a worker, and finished. -/
def places (s : System κ) : Place → List Nat
  | .queue => s.pool.tasks_
  | .worker w => (inFlight (s.worker w)).toList
  | .finished => s.finished

structure Inv (s : System κ) : Prop where
  guards : Guards s.inside s.mtx_
  apart : Apart s.places
  accepted : ∀ k, k < s.accepted ↔ ∃ p, k ∈ s.places p
  active : s.pool.active_ =
    ((Finset.range s.threads).filter (fun w => counts (s.worker w) = true)).card
  absent : ∀ w, s.threads ≤ w → s.worker w = .lock
  carried : ∀ c task, carries (s.caller c) = some task → task < s.accepted
  enqueued : ∀ task ∈ s.enqueued, task < s.accepted
  awaits : ∀ c, ∀ task ∈ s.awaits c, task < s.accepted
  empty : ∀ c, s.caller c = .wait_active → s.pool.tasks_ = []

theorem inv_start (n : Nat) : Inv (start n : System κ) := by
  refine ⟨?_, ?_, ?_, ?_, fun w _ => rfl, ?_, ?_, ?_, fun c _ => rfl⟩
  · intro u
    cases u <;> simp [inside, start, workerInside, callerInside]
  · constructor
    · intro p
      cases p <;> simp [places, start, inFlight]
    · intro p q k hp
      cases p <;> simp [places, start, inFlight] at hp
  · intro k
    constructor
    · intro hk
      exact absurd hk (Nat.not_lt_zero k)
    · rintro ⟨p, hp⟩
      cases p <;> simp [places, start, inFlight] at hp
  · simp [start, counts]
  · intro c task hc
    cases hc
  · intro task ht
    cases ht
  · intro c task ht
    cases ht

/-! ## What a worker can do -/

/-- Where a step of the worker `w`, which takes it to `pc`, moves a task. -/
inductive Moves (s t : System κ) (w : Nat) (pc : WorkerPc) : Prop
  | stay (htasks : t.pool.tasks_ = s.pool.tasks_) (hheld : inFlight pc = inFlight (s.worker w))
      (hfinished : t.finished = s.finished)
  | take (task : Nat) (htasks : s.pool.tasks_ = task :: t.pool.tasks_)
      (hbefore : inFlight (s.worker w) = none) (hafter : inFlight pc = some task)
      (hfinished : t.finished = s.finished)
  | finish (task : Nat) (htasks : t.pool.tasks_ = s.pool.tasks_)
      (hbefore : inFlight (s.worker w) = some task) (hafter : inFlight pc = none)
      (hfinished : t.finished = task :: s.finished)

/-- What a step of the worker `w`, which takes it to `pc`, does to the rest of the pool. -/
structure WorkerMove (s t : System κ) (w : Nat) (pc : WorkerPc) : Prop where
  live : w < s.threads
  worker : t.worker = Function.update s.worker w pc
  mutex : Passes (.inl w) (workerInside (s.worker w)) (workerInside pc) s.mtx_ t.mtx_
  moves : Moves s t w pc
  active : t.pool.active_ = s.pool.active_ + (counts pc).toNat - (counts (s.worker w)).toNat
  caller : ∀ c, t.caller c = s.caller c ∨ (s.caller c = .wait_asleep ∧ t.caller c = .wait_lock)
  threads : t.threads = s.threads
  accepted : t.accepted = s.accepted
  enqueued : t.enqueued = s.enqueued
  awaits : t.awaits = s.awaits
  waited : t.waited = s.waited

theorem exists_workerMove {w : Nat} (hw : w < s.threads) (hs : s.workerStep w = some t) :
    ∃ pc, WorkerMove s t w pc := by
  -- a step that changes nothing but the place of the worker
  have hmove : ∀ pc, workerInside pc = workerInside (s.worker w) →
      inFlight pc = inFlight (s.worker w) → counts pc = counts (s.worker w) →
      s.setWorker w pc = t → ∃ pc, WorkerMove s t w pc := by
    rintro pc h1 h2 h3 rfl
    exact ⟨pc, hw, rfl, .stay h1, .stay rfl h2 rfl, by rw [h3]; exact (Nat.add_sub_cancel ..).symm,
      fun _ => Or.inl rfl, rfl, rfl, rfl, rfl, rfl⟩
  cases hpc : s.worker w with
  | lock =>
    simp only [workerStep, hpc] at hs
    split_ifs at hs with hfree
    cases hs
    rw [Option.not_isSome_iff_eq_none] at hfree
    exact ⟨_, hw, rfl, .of_free hfree (by rw [hpc]; rfl) rfl, .stay rfl (by rw [hpc]; rfl) rfl,
      by simp [hpc, counts, setWorker], fun _ => Or.inl rfl, rfl, rfl, rfl, rfl, rfl⟩
  | stop | empty | pause | test_return =>
    simp only [workerStep, hpc] at hs
    split_ifs at hs <;>
      exact hmove _ (by rw [hpc]; rfl) (by rw [hpc]; rfl) (by rw [hpc]; rfl) (Option.some.inj hs)
  | block | «return» =>
    simp only [workerStep, hpc] at hs
    cases hs
    exact ⟨_, hw, rfl, .leave (by rw [hpc]; rfl) rfl, .stay rfl (by rw [hpc]; rfl) rfl,
      by simp [hpc, counts, setWorker], fun _ => Or.inl rfl, rfl, rfl, rfl, rfl, rfl⟩
  | pop =>
    simp only [workerStep, hpc] at hs
    split at hs
    · exact hmove _ (by rw [hpc]; rfl) (by rw [hpc]; rfl) (by rw [hpc]; rfl) (Option.some.inj hs)
    · rename_i task tasks htasks
      cases hs
      exact ⟨_, hw, rfl, .stay (by rw [hpc]; rfl), .take task htasks (by rw [hpc]; rfl) rfl rfl,
        by simp [hpc, counts], fun _ => Or.inl rfl, rfl, rfl, rfl, rfl, rfl⟩
  | unlock task =>
    cases task <;>
    · simp only [workerStep, hpc] at hs
      cases hs
      exact ⟨_, hw, rfl, .leave (by rw [hpc]; rfl) rfl, .stay rfl (by rw [hpc]; rfl) rfl,
        by simp [hpc, counts, setWorker], fun _ => Or.inl rfl, rfl, rfl, rfl, rfl, rfl⟩
  | add_active task | sub_queued task | add_completed | sub_active =>
    simp only [workerStep, hpc] at hs
    cases hs
    exact ⟨_, hw, rfl, .stay (by rw [hpc]; rfl), .stay rfl (by rw [hpc]; rfl) rfl,
      by simp [hpc, counts], fun _ => Or.inl rfl, rfl, rfl, rfl, rfl, rfl⟩
  | run task =>
    simp only [workerStep, hpc] at hs
    cases hs
    exact ⟨_, hw, rfl, .stay (by rw [hpc]; rfl), .finish task rfl (by rw [hpc]; rfl) rfl rfl,
      by simp [hpc, counts, setWorker], fun _ => Or.inl rfl, rfl, rfl, rfl, rfl, rfl⟩
  | notify_all =>
    simp only [workerStep, hpc] at hs
    cases hs
    refine ⟨_, hw, rfl, .stay (by rw [hpc]; rfl), .stay rfl (by rw [hpc]; rfl) rfl,
      by simp [hpc, counts, setWorker], ?_, rfl, rfl, rfl, rfl, rfl⟩
    intro c
    by_cases hc : s.caller c = .wait_asleep
    · exact Or.inr ⟨hc, if_pos hc⟩
    · exact Or.inl (if_neg hc)
  | asleep => simp [workerStep, hpc] at hs
  | exited => simp [workerStep, hpc] at hs

/-- A worker that sleeps has been started. -/
theorem lt_of_asleep (habsent : ∀ w, s.threads ≤ w → s.worker w = .lock) {w : Nat}
    (hpc : s.worker w = .asleep) : w < s.threads := by
  by_contra hlt
  rw [habsent w (by omega)] at hpc
  cases hpc

/-- A worker that wakes up for no reason. -/
theorem workerMove_spurious {w : Nat} (hw : w < s.threads) (hpc : s.worker w = .asleep) :
    WorkerMove s (s.setWorker w .lock) w .lock :=
  ⟨hw, rfl, .stay (by rw [hpc]; rfl), .stay rfl (by rw [hpc]; rfl) rfl,
    by simp [hpc, counts, setWorker], fun _ => Or.inl rfl, rfl, rfl, rfl, rfl, rfl⟩

/-- What does not tell a sleeping caller from a woken one is as it was. -/
theorem WorkerMove.caller_congr {w : Nat} {pc : WorkerPc} (hm : WorkerMove s t w pc) {β : Type*}
    (f : CallerPc → β) (hf : f .wait_asleep = f .wait_lock) (c : κ) :
    f (t.caller c) = f (s.caller c) := by
  rcases hm.caller c with hc | ⟨h1, h2⟩
  · rw [hc]
  · rw [h1, h2, hf]

theorem WorkerMove.self {w : Nat} {pc : WorkerPc} (hm : WorkerMove s t w pc) : t.worker w = pc := by
  rw [hm.worker, Function.update_self]

theorem WorkerMove.other {w v : Nat} {pc : WorkerPc} (hm : WorkerMove s t w pc) (hv : v ≠ w) :
    t.worker v = s.worker v := by
  rw [hm.worker, Function.update_of_ne hv]

/-- Every task is held once, and the same tasks are held. -/
theorem Moves.apart {w : Nat} {pc : WorkerPc} (hm : WorkerMove s t w pc) (h : Apart s.places) :
    Apart t.places ∧ ∀ k, (∃ p, k ∈ t.places p) ↔ ∃ p, k ∈ s.places p := by
  have hother : ∀ v, v ≠ w → t.places (.worker v) = s.places (.worker v) := fun v hv => by
    simp only [places, hm.other hv]
  cases hm.moves with
  | stay htasks hheld hfinished =>
    have hsame : t.places = s.places := by
      funext p
      cases p with
      | queue => exact htasks
      | finished => exact hfinished
      | worker v =>
        by_cases hv : v = w
        · simp only [places]
          rw [hv, hm.self, hheld]
        · exact hother v hv
    rw [hsame]
    exact ⟨h, fun k => Iff.rfl⟩
  | take task htasks hbefore hafter hfinished =>
    have hne : Place.queue ≠ Place.worker w := by simp
    have ha : (s.places .queue).Perm (task :: t.places .queue) := .of_eq htasks
    have hb : (t.places (.worker w)).Perm (task :: s.places (.worker w)) := by
      simp only [places]
      rw [hm.self, hafter, hbefore]
      exact .refl _
    have hk : ∀ p, p ≠ .queue → p ≠ .worker w → t.places p = s.places p := by
      intro p h1 h2
      cases p with
      | queue => exact absurd rfl h1
      | finished => exact hfinished
      | worker v => exact hother v (fun hv => h2 (hv ▸ rfl))
    exact ⟨h.move hne ha hb hk, exists_mem_move hne ha hb hk⟩
  | finish task htasks hbefore hafter hfinished =>
    have hne : Place.worker w ≠ Place.finished := by simp
    have ha : (s.places (.worker w)).Perm (task :: t.places (.worker w)) := by
      simp only [places]
      rw [hm.self, hafter, hbefore]
      exact .refl _
    have hb : (t.places .finished).Perm (task :: s.places .finished) := .of_eq hfinished
    have hk : ∀ p, p ≠ .worker w → p ≠ .finished → t.places p = s.places p := by
      intro p h1 h2
      cases p with
      | queue => exact htasks
      | finished => exact absurd rfl h2
      | worker v => exact hother v (fun hv => h1 (hv ▸ rfl))
    exact ⟨h.move hne ha hb hk, exists_mem_move hne ha hb hk⟩

/-- The queue does not grow. -/
theorem WorkerMove.empty {w : Nat} {pc : WorkerPc} (hm : WorkerMove s t w pc)
    (he : s.pool.tasks_ = []) : t.pool.tasks_ = [] := by
  cases hm.moves with
  | stay htasks => rw [htasks, he]
  | take task htasks =>
    rw [he] at htasks
    cases htasks
  | finish task htasks => rw [htasks, he]

theorem Inv.workerMove (h : Inv s) {w : Nat} {pc : WorkerPc} (hm : WorkerMove s t w pc) : Inv t := by
  obtain ⟨hapart, hheld⟩ := Moves.apart hm h.apart
  refine ⟨?_, hapart, ?_, ?_, ?_, ?_, ?_, ?_, ?_⟩
  · apply h.guards.passes hm.mutex Iff.rfl
    · simp only [inside]
      rw [hm.self]
    · intro u hu
      cases u with
      | inl v =>
        simp only [inside]
        rw [hm.other (fun hv => hu (hv ▸ rfl))]
      | inr c =>
        simp only [inside]
        rw [hm.caller_congr callerInside rfl]
  · intro k
    rw [hm.accepted, hheld, h.accepted]
  · have hcard := card_filter_update counts s.worker pc hm.live
    rw [hm.active, h.active, hm.threads, hm.worker]
    omega
  · intro v hv
    rw [hm.threads] at hv
    have hlive := hm.live
    rw [hm.other (by omega)]
    exact h.absent v hv
  · intro c task hc
    rw [hm.caller_congr carries rfl] at hc
    rw [hm.accepted]
    exact h.carried c task hc
  · rw [hm.enqueued, hm.accepted]
    exact h.enqueued
  · rw [hm.awaits, hm.accepted]
    exact h.awaits
  · intro c hc
    apply hm.empty
    rcases hm.caller c with hsame | ⟨-, hwoken⟩
    · exact h.empty c (hsame ▸ hc)
    · rw [hc] at hwoken
      cases hwoken

/-! ## What a caller can do -/

section
variable [DecidableEq κ] {c : κ}

/-- What a step of the caller `c`, which takes it to `pc`, does to the rest of the pool. -/
structure CallerMove (s t : System κ) (c : κ) (pc : CallerPc) : Prop where
  caller : t.caller = Function.update s.caller c pc
  mutex : Passes (.inr c) (callerInside (s.caller c)) (callerInside pc) s.mtx_ t.mtx_
  worker : ∀ w, t.worker w = s.worker w ∨
    (w < s.threads ∧ s.worker w = .asleep ∧ t.worker w = .lock)
  threads : s.threads ≤ t.threads
  active : t.pool.active_ = s.pool.active_
  finished : t.finished = s.finished
  tasks : (t.pool.tasks_ = s.pool.tasks_ ∧ t.accepted = s.accepted ∧
      (carries pc = none ∨ carries pc = carries (s.caller c))) ∨
    (t.pool.tasks_ = s.pool.tasks_ ++ [s.accepted] ∧ t.accepted = s.accepted + 1 ∧
      carries pc = some s.accepted ∧ callerInside (s.caller c) = true)
  enqueued : t.enqueued = s.enqueued ∨
    ∃ task, carries (s.caller c) = some task ∧ t.enqueued = task :: s.enqueued
  awaits : t.awaits = s.awaits ∨ t.awaits = Function.update s.awaits c s.enqueued
  waited : t.waited = s.waited ∨
    (s.caller c = .wait_unlock ∧ t.waited = s.awaits c :: s.waited)
  empty : pc = .wait_active → s.pool.tasks_ = []
  found : pc = .wait_unlock → s.caller c = .wait_active ∧ s.pool.active_ = 0 ∧ t.awaits = s.awaits

/-- A step that changes only the place of the caller and the owner of the mutex. -/
theorem CallerMove.of_mutex {pc : CallerPc} {mtx : Option (Nat ⊕ κ)}
    (hmutex : Passes (.inr c) (callerInside (s.caller c)) (callerInside pc) s.mtx_ mtx)
    (hcarries : carries pc = none ∨ carries pc = carries (s.caller c))
    (hempty : pc = .wait_active → s.pool.tasks_ = [])
    (hfound : pc = .wait_unlock → s.caller c = .wait_active ∧ s.pool.active_ = 0) :
    CallerMove s { s.setCaller c pc with mtx_ := mtx } c pc where
  caller := rfl
  mutex := hmutex
  worker _ := Or.inl rfl
  threads := Nat.le_refl _
  active := rfl
  finished := rfl
  tasks := Or.inl ⟨rfl, rfl, hcarries⟩
  enqueued := Or.inl rfl
  awaits := Or.inl rfl
  waited := Or.inl rfl
  empty := hempty
  found hpc := ⟨(hfound hpc).1, (hfound hpc).2, rfl⟩

/-- Waking the workers changes nothing that the move tells. -/
theorem CallerMove.wakeWorkers {pc : CallerPc} (hm : CallerMove s t c pc)
    (hworker : t.worker = s.worker) (habsent : ∀ w, s.threads ≤ w → s.worker w = .lock) :
    CallerMove s t.wakeWorkers c pc :=
  { hm with
    worker := by
      intro w
      change wakeAll .asleep .lock t.worker w = _ ∨ _ ∧ _ ∧ wakeAll .asleep .lock t.worker w = _
      rw [hworker]
      by_cases hw : s.worker w = .asleep
      · exact Or.inr ⟨lt_of_asleep habsent hw, hw, if_pos hw⟩
      · exact Or.inl (if_neg hw) }

theorem exists_callerMove (habsent : ∀ w, s.threads ≤ w → s.worker w = .lock) {woken : Option Nat}
    (hs : s.callerStep c woken = some t) : ∃ pc, CallerMove s t c pc := by
  -- a step that leaves the mutex to its owner
  have hmove : ∀ pc, callerInside pc = callerInside (s.caller c) →
      (carries pc = none ∨ carries pc = carries (s.caller c)) →
      (pc = .wait_active → s.pool.tasks_ = []) →
      (pc = .wait_unlock → s.caller c = .wait_active ∧ s.pool.active_ = 0) →
      CallerMove s (s.setCaller c pc) c pc := by
    intro pc h1 h2 h3 h4
    exact .of_mutex (.stay h1) h2 h3 h4
  cases hpc : s.caller c with
  | enqueue_lock | wait_lock =>
    simp only [callerStep, hpc] at hs
    split_ifs at hs with hfree
    cases hs
    rw [Option.not_isSome_iff_eq_none] at hfree
    exact ⟨_, .of_mutex (.of_free hfree (by rw [hpc]; rfl) rfl) (Or.inl rfl) (by simp) (by simp)⟩
  | enqueue_push =>
    simp only [callerStep, hpc] at hs
    cases hs
    exact ⟨_, rfl, .stay (by rw [hpc]; rfl), fun _ => Or.inl rfl, Nat.le_refl _, rfl, rfl,
      Or.inr ⟨rfl, rfl, rfl, by rw [hpc]; rfl⟩, Or.inl rfl, Or.inl rfl, Or.inl rfl, by simp, by simp⟩
  | enqueue_count task =>
    simp only [callerStep, hpc] at hs
    cases hs
    exact ⟨_, rfl, .stay (by rw [hpc]; rfl), fun _ => Or.inl rfl, Nat.le_refl _, rfl, rfl,
      Or.inl ⟨rfl, rfl, Or.inr (by rw [hpc]; rfl)⟩, Or.inl rfl, Or.inl rfl, Or.inl rfl, by simp,
      by simp⟩
  | enqueue_unlock task =>
    simp only [callerStep, hpc] at hs
    cases hs
    exact ⟨_, .of_mutex (.leave (by rw [hpc]; rfl) rfl) (Or.inr (by rw [hpc]; rfl)) (by simp)
      (by simp)⟩
  | enqueue_notify_one task =>
    have hreturn : CallerMove s { s.setCaller c .idle with enqueued := task :: s.enqueued } c .idle :=
      { hmove .idle (by rw [hpc]; rfl) (Or.inl rfl) (by simp) (by simp) with
        enqueued := Or.inr ⟨task, by rw [hpc]; rfl, rfl⟩ }
    cases woken with
    | none =>
      simp only [callerStep, hpc] at hs
      split_ifs at hs
      cases hs
      exact ⟨_, hreturn⟩
    | some w =>
      simp only [callerStep, hpc] at hs
      split_ifs at hs with hw
      cases hs
      refine ⟨.idle, { hreturn with worker := ?_ }⟩
      intro v
      by_cases hv : v = w
      · subst hv
        exact Or.inr ⟨hw.1, hw.2, Function.update_self ..⟩
      · exact Or.inl (Function.update_of_ne hv ..)
  | wait_empty =>
    simp only [callerStep, hpc] at hs
    split_ifs at hs with he
    · cases hs
      exact ⟨_, hmove _ (by rw [hpc]; rfl) (Or.inl rfl) (fun _ => he) (by simp)⟩
    · cases hs
      exact ⟨_, hmove _ (by rw [hpc]; rfl) (Or.inl rfl) (by simp) (by simp)⟩
  | wait_active =>
    simp only [callerStep, hpc] at hs
    split_ifs at hs with hzero
    · cases hs
      exact ⟨_, hmove _ (by rw [hpc]; rfl) (Or.inl rfl) (by simp) (fun _ => ⟨hpc, hzero⟩)⟩
    · cases hs
      exact ⟨_, hmove _ (by rw [hpc]; rfl) (Or.inl rfl) (by simp) (by simp)⟩
  | wait_block =>
    simp only [callerStep, hpc] at hs
    cases hs
    exact ⟨_, .of_mutex (.leave (by rw [hpc]; rfl) rfl) (Or.inl rfl) (by simp) (by simp)⟩
  | wait_unlock =>
    simp only [callerStep, hpc] at hs
    cases hs
    have hleave : Passes (.inr c) (callerInside (s.caller c)) (callerInside .idle) s.mtx_ none :=
      .leave (by rw [hpc]; rfl) rfl
    exact ⟨.idle, { CallerMove.of_mutex hleave (Or.inl rfl) (by simp) (by simp) with
      waited := Or.inr ⟨hpc, rfl⟩ }⟩
  | pause | resume | shutdown | clear | join =>
    simp only [callerStep, hpc] at hs
    try split_ifs at hs
    cases hs
    exact ⟨_, { hmove _ (by rw [hpc]; rfl) (Or.inl rfl) (by simp) (by simp) with }⟩
  | resume_notify_all =>
    simp only [callerStep, hpc] at hs
    cases hs
    exact ⟨_, (hmove .idle (by rw [hpc]; rfl) (Or.inl rfl) (by simp) (by simp)).wakeWorkers rfl
      habsent⟩
  | shutdown_notify_all =>
    simp only [callerStep, hpc] at hs
    cases hs
    exact ⟨_, (hmove .join (by rw [hpc]; rfl) (Or.inl rfl) (by simp) (by simp)).wakeWorkers rfl
      habsent⟩
  | resize n =>
    cases n with
    | zero =>
      simp only [callerStep, hpc] at hs
      cases hs
      exact ⟨_, hmove .idle (by rw [hpc]; rfl) (Or.inl rfl) (by simp) (by simp)⟩
    | succ n =>
      simp only [callerStep, hpc] at hs
      cases hs
      exact ⟨_, { hmove (.resize n) (by rw [hpc]; rfl) (Or.inl rfl) (by simp) (by simp) with
        threads := Nat.le_succ _ }⟩
  | idle => simp [callerStep, hpc] at hs
  | wait_asleep => simp [callerStep, hpc] at hs

/-- The first step of a call. -/
theorem callerMove_call (hpc : s.caller c = .idle) (call : Call) :
    CallerMove s { s.setCaller c (enter call) with
      awaits := Function.update s.awaits c s.enqueued } c (enter call) := by
  have hcarries : carries (enter call) = none := by cases call <;> rfl
  have hinside : callerInside (enter call) = false := by cases call <;> rfl
  exact ⟨rfl, .stay (by rw [hpc, hinside]; rfl), fun _ => Or.inl rfl, Nat.le_refl _, rfl, rfl,
    Or.inl ⟨rfl, rfl, Or.inl hcarries⟩, Or.inl rfl, Or.inr rfl, Or.inl rfl,
    by cases call <;> simp [enter], by cases call <;> simp [enter]⟩

/-- A caller that wakes up for no reason. -/
theorem callerMove_spurious (hpc : s.caller c = .wait_asleep) :
    CallerMove s (s.setCaller c .wait_lock) c .wait_lock :=
  .of_mutex (.stay (by rw [hpc]; rfl)) (Or.inl rfl) (by simp) (by simp)

/-- What does not tell a sleeping worker from a woken one is as it was. -/
theorem CallerMove.worker_congr {pc : CallerPc} (hm : CallerMove s t c pc) {β : Type*}
    (f : WorkerPc → β) (hf : f .asleep = f .lock) (w : Nat) : f (t.worker w) = f (s.worker w) := by
  rcases hm.worker w with hw | ⟨-, h1, h2⟩
  · rw [hw]
  · rw [h1, h2, hf]

theorem CallerMove.self {pc : CallerPc} (hm : CallerMove s t c pc) : t.caller c = pc := by
  rw [hm.caller, Function.update_self]

theorem CallerMove.other {d : κ} {pc : CallerPc} (hm : CallerMove s t c pc) (hd : d ≠ c) :
    t.caller d = s.caller d := by
  rw [hm.caller, Function.update_of_ne hd]

theorem CallerMove.accepted_le {pc : CallerPc} (hm : CallerMove s t c pc) :
    s.accepted ≤ t.accepted := by
  rcases hm.tasks with ⟨-, ha, -⟩ | ⟨-, ha, -⟩ <;> omega

theorem CallerMove.places {pc : CallerPc} (hm : CallerMove s t c pc) {p : Place} (hp : p ≠ .queue) :
    t.places p = s.places p := by
  cases p with
  | queue => exact absurd rfl hp
  | worker w => exact congrArg Option.toList (hm.worker_congr inFlight rfl w)
  | finished => exact hm.finished

/-- A task that is pushed is new. -/
theorem CallerMove.apart {pc : CallerPc} (hm : CallerMove s t c pc) (h : Inv s) :
    Apart t.places ∧ ∀ k, k < t.accepted ↔ ∃ p, k ∈ t.places p := by
  rcases hm.tasks with ⟨htasks, ha, -⟩ | ⟨htasks, ha, -⟩
  · have hsame : t.places = s.places := by
      funext p
      cases p with
      | queue => exact htasks
      | worker w => exact hm.places (by simp)
      | finished => exact hm.places (by simp)
    rw [hsame, ha]
    exact ⟨h.apart, h.accepted⟩
  · have hqueue : t.places .queue = s.places .queue ++ [s.accepted] := htasks
    constructor
    · apply h.apart.add (a := .queue) (x := s.accepted)
      · intro p hp
        exact Nat.lt_irrefl _ ((h.accepted s.accepted).mpr ⟨p, hp⟩)
      · rw [hqueue]
        exact List.perm_append_singleton ..
      · exact fun p hp => hm.places hp
    · intro k
      rw [ha]
      constructor
      · intro hk
        rcases Nat.lt_succ_iff_lt_or_eq.mp hk with hk | rfl
        · obtain ⟨p, hp⟩ := (h.accepted k).mp hk
          refine ⟨p, ?_⟩
          by_cases hq : p = .queue
          · subst hq
            rw [hqueue]
            exact List.mem_append_left _ hp
          · rw [hm.places hq]
            exact hp
        · exact ⟨.queue, by rw [hqueue]; exact List.mem_append_right _ (List.mem_singleton_self _)⟩
      · rintro ⟨p, hp⟩
        by_cases hq : p = .queue
        · subst hq
          rw [hqueue] at hp
          rcases List.mem_append.mp hp with hp | hp
          · exact Nat.lt_succ_of_lt ((h.accepted k).mpr ⟨_, hp⟩)
          · rw [List.mem_singleton.mp hp]
            exact Nat.lt_succ_self _
        · rw [hm.places hq] at hp
          exact Nat.lt_succ_of_lt ((h.accepted k).mpr ⟨p, hp⟩)

theorem Inv.callerMove (h : Inv s) {pc : CallerPc} (hm : CallerMove s t c pc) : Inv t := by
  obtain ⟨hapart, haccepted⟩ := hm.apart h
  have hle := hm.accepted_le
  refine ⟨?_, hapart, haccepted, ?_, ?_, ?_, ?_, ?_, ?_⟩
  · apply h.guards.passes hm.mutex Iff.rfl
    · simp only [inside]
      rw [hm.self]
    · intro u hu
      cases u with
      | inl w =>
        simp only [inside]
        rw [hm.worker_congr workerInside rfl]
      | inr d =>
        simp only [inside]
        rw [hm.other (fun hd => hu (hd ▸ rfl))]
  · -- a thread that is started counts for nothing
    rw [hm.active, h.active]
    congr 1
    ext w
    rw [Finset.mem_filter, Finset.mem_filter, Finset.mem_range, Finset.mem_range,
      hm.worker_congr counts rfl]
    constructor
    · rintro ⟨hw, hcount⟩
      exact ⟨Nat.lt_of_lt_of_le hw hm.threads, hcount⟩
    · rintro ⟨-, hcount⟩
      refine ⟨?_, hcount⟩
      by_contra hw
      rw [h.absent w (by omega)] at hcount
      cases hcount
  · intro w hw
    have hs := h.absent w (Nat.le_trans hm.threads hw)
    rcases hm.worker w with hsame | ⟨-, hasleep, -⟩
    · rw [hsame, hs]
    · rw [hasleep] at hs
      cases hs
  · intro d task hd
    by_cases hdc : d = c
    · subst hdc
      rw [hm.self] at hd
      rcases hm.tasks with ⟨-, -, hnone | hsame⟩ | ⟨-, ha, hnew, -⟩
      · rw [hnone] at hd
        cases hd
      · rw [hsame] at hd
        exact Nat.lt_of_lt_of_le (h.carried d task hd) hle
      · rw [hnew] at hd
        cases hd
        omega
    · rw [hm.other hdc] at hd
      exact Nat.lt_of_lt_of_le (h.carried d task hd) hle
  · intro task htask
    rcases hm.enqueued with hsame | ⟨new, hnew, hcons⟩
    · rw [hsame] at htask
      exact Nat.lt_of_lt_of_le (h.enqueued task htask) hle
    · rw [hcons] at htask
      rcases List.mem_cons.mp htask with rfl | htask
      · exact Nat.lt_of_lt_of_le (h.carried c task hnew) hle
      · exact Nat.lt_of_lt_of_le (h.enqueued task htask) hle
  · intro d task htask
    apply Nat.lt_of_lt_of_le ?_ hle
    rcases hm.awaits with hsame | hcall
    · rw [hsame] at htask
      exact h.awaits d task htask
    · by_cases hdc : d = c
      · rw [hcall, hdc, Function.update_self] at htask
        exact h.enqueued task htask
      · rw [hcall, Function.update_of_ne hdc] at htask
        exact h.awaits d task htask
  · intro d hd
    rcases hm.tasks with ⟨htasks, -⟩ | ⟨-, -, hnew, hinside⟩
    · rw [htasks]
      by_cases hdc : d = c
      · subst hdc
        rw [hm.self] at hd
        exact hm.empty hd
      · rw [hm.other hdc] at hd
        exact h.empty d hd
    · -- the caller that pushes owns the mutex
      by_cases hdc : d = c
      · subst hdc
        rw [hm.self] at hd
        rw [hd] at hnew
        cases hnew
      · rw [hm.other hdc] at hd
        have hin : s.inside (.inr d) := by
          simp only [inside]
          rw [hd]
          rfl
        have hcd := h.guards.unique hin (show s.inside (.inr c) from hinside)
        exact absurd (Sum.inr.inj hcd) hdc

/-! ## Callers of `WaitAll` -/

/-- Who finds the pool idle finds its tasks finished. -/
structure Waits (s : System κ) : Prop where
  found : ∀ c, s.caller c = .wait_unlock → ∀ task ∈ s.awaits c, task ∈ s.finished
  waited : s.WaitsForAll

omit [DecidableEq κ] in
/-- A task that is accepted and neither queued nor finished is with a worker. -/
theorem Inv.with_worker (h : Inv s) {task : Nat} (htask : task < s.accepted)
    (hempty : s.pool.tasks_ = []) (hfinished : task ∉ s.finished) :
    ∃ w < s.threads, inFlight (s.worker w) = some task := by
  obtain ⟨p, hp⟩ := (h.accepted task).mp htask
  cases p with
  | queue =>
    simp only [System.places, hempty] at hp
    cases hp
  | finished => exact absurd hp hfinished
  | worker w =>
    have hw : inFlight (s.worker w) = some task := Option.mem_toList.mp hp
    refine ⟨w, ?_, hw⟩
    by_contra hlt
    rw [h.absent w (by omega)] at hw
    cases hw

omit [DecidableEq κ] in
/-- Outside the mutex, a task that a worker has taken is either counted or about to be. -/
theorem Inv.counts_or_taken (h : Inv s) (hpc : s.caller c = .wait_active) {w task : Nat}
    (hw : inFlight (s.worker w) = some task) :
    counts (s.worker w) = true ∨ s.worker w = .add_active task := by
  cases hwpc : s.worker w with
  | unlock held =>
    have hinside : s.inside (.inl w) := by
      simp only [inside]
      rw [hwpc]
      rfl
    have hin : s.inside (.inr c) := by
      simp only [inside]
      rw [hpc]
      rfl
    cases h.guards.unique hinside hin
  | add_active held =>
    rw [hwpc] at hw
    cases hw
    exact Or.inr rfl
  | sub_queued held => exact Or.inl rfl
  | run held => exact Or.inl rfl
  | _ =>
    rw [hwpc] at hw
    cases hw

omit [DecidableEq κ] in
/-- Who reads `active_` as 0 has no task left, unless a worker has taken one and not counted it. -/
theorem Inv.finished_of_counted (h : Inv s) (hpc : s.caller c = .wait_active)
    (hzero : s.pool.active_ = 0)
    (hok : ∀ w < s.threads, ∀ task ∈ s.awaits c, s.worker w ≠ .add_active task) :
    ∀ task ∈ s.awaits c, task ∈ s.finished := by
  intro task htask
  by_contra hfinished
  obtain ⟨w, hw, hheld⟩ := h.with_worker (h.awaits c task htask) (h.empty c hpc) hfinished
  rcases h.counts_or_taken hpc hheld with hcount | htaken
  · rw [h.active, Finset.card_eq_zero] at hzero
    have hmem : w ∈ (Finset.range s.threads).filter (fun w => counts (s.worker w) = true) :=
      Finset.mem_filter.mpr ⟨Finset.mem_range.mpr hw, hcount⟩
    rw [hzero] at hmem
    cases hmem
  · exact hok w hw task htask htaken

omit [DecidableEq κ] in
theorem Waits.workerMove (hwaits : Waits s) {w : Nat} {pc : WorkerPc} (hm : WorkerMove s t w pc) :
    Waits t := by
  have hsub : ∀ task, task ∈ s.finished → task ∈ t.finished := by
    intro task htask
    cases hm.moves with
    | stay _ _ hfinished => rw [hfinished]; exact htask
    | take _ _ _ _ hfinished => rw [hfinished]; exact htask
    | finish _ _ _ _ hfinished => rw [hfinished]; exact List.mem_cons_of_mem _ htask
  constructor
  · intro c hc task htask
    rw [hm.awaits] at htask
    rcases hm.caller c with hsame | ⟨-, hwoken⟩
    · exact hsub task (hwaits.found c (hsame ▸ hc) task htask)
    · rw [hc] at hwoken
      cases hwoken
  · intro tasks htasks task htask
    rw [hm.waited] at htasks
    exact hsub task (hwaits.waited tasks htasks task htask)

theorem Waits.callerMove (h : Inv s) (hwaits : Waits s) {pc : CallerPc} (hm : CallerMove s t c pc)
    (hok : s.caller c = .wait_active → s.pool.active_ = 0 →
      ∀ w < s.threads, ∀ task ∈ s.awaits c, s.worker w ≠ .add_active task) : Waits t := by
  constructor
  · intro d hd task htask
    rw [hm.finished]
    by_cases hdc : d = c
    · subst hdc
      rw [hm.self] at hd
      obtain ⟨hpc, hzero, hawaits⟩ := hm.found hd
      rw [hawaits] at htask
      exact h.finished_of_counted hpc hzero (hok hpc hzero) task htask
    · rw [hm.other hdc] at hd
      rcases hm.awaits with hsame | hcall
      · rw [hsame] at htask
        exact hwaits.found d hd task htask
      · rw [hcall, Function.update_of_ne hdc] at htask
        exact hwaits.found d hd task htask
  · intro tasks htasks task htask
    rw [hm.finished]
    rcases hm.waited with hsame | ⟨hpc, hcons⟩
    · rw [hsame] at htasks
      exact hwaits.waited tasks htasks task htask
    · rw [hcons] at htasks
      rcases List.mem_cons.mp htasks with rfl | htasks
      · exact hwaits.found c hpc task htask
      · exact hwaits.waited tasks htasks task htask

/-- A step is a move of one worker or of one caller. -/
theorem exists_move {a : Action κ} (habsent : ∀ w, s.threads ≤ w → s.worker w = .lock)
    (hs : s.step a = some t) : (∃ w pc, WorkerMove s t w pc) ∨
      ∃ c pc, CallerMove s t c pc ∧ (s.caller c = .wait_active → ∃ woken, a = .caller c woken) := by
  cases a with
  | call c call =>
    simp only [step] at hs
    split_ifs at hs with hidle
    cases hs
    exact Or.inr ⟨c, _, callerMove_call hidle call, by simp [hidle]⟩
  | worker w =>
    simp only [step] at hs
    split_ifs at hs with hw
    exact Or.inl ⟨w, exists_workerMove hw hs⟩
  | caller c woken =>
    obtain ⟨pc, hm⟩ := exists_callerMove habsent hs
    exact Or.inr ⟨c, pc, hm, fun _ => ⟨woken, rfl⟩⟩
  | spurious u =>
    cases u with
    | inl w =>
      simp only [step] at hs
      split_ifs at hs with hw
      cases hs
      exact Or.inl ⟨w, _, workerMove_spurious (lt_of_asleep habsent hw) hw⟩
    | inr c =>
      simp only [step] at hs
      split_ifs at hs with hc
      cases hs
      exact Or.inr ⟨c, _, callerMove_spurious hc, by simp [hc]⟩

theorem inv_step (a : Action κ) (h : Inv s) (hs : s.step a = some t) : Inv t := by
  rcases exists_move h.absent hs with ⟨w, pc, hm⟩ | ⟨c, pc, hm, -⟩
  · exact h.workerMove hm
  · exact h.callerMove hm

theorem waits_step {a : Action κ} (h : Inv s) (hwaits : Waits s) (hok : Counted s a)
    (hs : s.step a = some t) : Waits t := by
  rcases exists_move h.absent hs with ⟨w, pc, hm⟩ | ⟨c, pc, hm, ha⟩
  · exact hwaits.workerMove hm
  · apply hwaits.callerMove h hm
    intro hpc
    obtain ⟨woken, rfl⟩ := ha hpc
    exact hok hpc

theorem inv_of_run {n : Nat} {as : List (Action κ)} (hr : run step (start n) as = some s) : Inv s :=
  invariant_of_run (fun _ a _ h hs => inv_step a h hs) (inv_start n) hr

/-- Who reads `active_` as 0 while a worker has taken one of its tasks, and not counted it, may
return at once: the task has not been run. -/
theorem wait_all_returns_early_when_a_taken_task_is_not_counted {n : Nat} {as : List (Action κ)}
    {woken : Option Nat} (hr : run step (start n) as = some s)
    (hmissed : ¬ Counted s (.caller c woken)) :
    ∃ t, run step s [.caller c woken, .caller c woken] = some t ∧ ¬ t.WaitsForAll := by
  have h : Inv s := inv_of_run hr
  unfold Counted at hmissed
  push Not at hmissed
  obtain ⟨hpc, hzero, w, -, task, htask, hw⟩ := hmissed
  refine ⟨{ s.setCaller c .idle with mtx_ := none, waited := s.awaits c :: s.waited }, ?_, ?_⟩
  · simp [run, step, callerStep, hpc, hzero, setCaller]
  · intro hwaits
    have hfinished : task ∈ s.places .finished :=
      hwaits (s.awaits c) (List.mem_cons_self ..) task htask
    have hheld : task ∈ s.places (.worker w) := by
      simp only [places]
      rw [hw]
      exact List.mem_singleton_self task
    cases h.apart.unique hfinished hheld

/-- In a run in which no `WaitAll` reads `active_` as 0 while a worker has taken one of its tasks
and not counted it, every `WaitAll` that has returned has waited for all its tasks. -/
theorem wait_all_waits_while_taken_tasks_are_counted {n : Nat} {as : List (Action κ)}
    (hm : Meets step Counted (start n) as) (hr : run step (start n) as = some s) :
    s.WaitsForAll := by
  have h : Inv s ∧ Waits s := by
    refine invariant_of_meets (I := fun t => Inv t ∧ Waits t)
      (fun _ a _ h hok hs => ⟨inv_step a h.1 hs, waits_step h.1 h.2 hok hs⟩) ⟨inv_start n, ?_⟩ hm hr
    constructor
    · intro c hc
      cases hc
    · intro tasks htasks
      cases htasks
  exact h.2.waited

/-! ## One worker -/

def workerSteps (w n : Nat) : List (Action κ) := List.replicate n (.worker w)

def callerSteps (c : κ) (n : Nat) : List (Action κ) := List.replicate n (.caller c none)

/-- The task has been run when `WaitAll` looks. -/
def waitedRun : List (Action Unit) :=
  [.call () .Enqueue] ++ callerSteps () 5 ++ workerSteps 0 12 ++ [.call () .WaitAll] ++
    callerSteps () 4

theorem one_task_is_waited_for : ∃ s : System Unit, run step (start 1) waitedRun = some s ∧
    s.waited = [[0]] ∧ s.WaitsForAll := by
  obtain ⟨s, hs, hwaited⟩ : ∃ s : System Unit,
      run step (start 1) waitedRun = some s ∧ s.waited = [[0]] := exists_of_any (by decide +kernel)
  exact ⟨s, hs, hwaited, wait_all_waits_while_taken_tasks_are_counted (by decide +kernel) hs⟩

/-- The worker has taken the task and given up the mutex when `WaitAll` looks. -/
def takenRun : List (Action Unit) :=
  [.call () .Enqueue] ++ callerSteps () 5 ++ workerSteps 0 6 ++ [.call () .WaitAll] ++
    callerSteps () 4

theorem wait_all_returns_before_the_task_is_run : ∃ s : System Unit,
    run step (start 1) takenRun = some s ∧ ¬ s.WaitsForAll := by
  obtain ⟨s, hs, hwaited, hfinished⟩ : ∃ s : System Unit, run step (start 1) takenRun = some s ∧
      s.waited = [[0]] ∧ s.finished = [] := exists_of_any (by decide +kernel)
  refine ⟨s, hs, ?_⟩
  intro hwaits
  have hrun := hwaits [0] (by rw [hwaited]; exact List.mem_singleton_self _) 0
    (List.mem_singleton_self 0)
  rw [hfinished] at hrun
  cases hrun

end

end System

end LegacyThreadPool

end bridges

end sci
