-- Which notifications of the pool are missed. A thread that has found its condition false
-- sleeps only after it has given up the mutex, and `active_`, `stop_` and `pause_` change
-- without the mutex: a notification between the test and the sleep wakes no one.
import Scicompute.ThreadPoolRuns

open Transition Monitor

namespace sci

namespace ThreadPoolSystem

variable {κ : Type*} {s t : ThreadPoolSystem κ}

/-! ## What a worker can do -/

/-- The worker is counted in `active_`. -/
def counts : WorkerPc → Bool
  | .unlock _ => true
  | .run _ => true
  | .sub_active => true
  | _ => false

/-- What a step of the worker `w`, which takes it to `pc`, does to the rest of the pool. -/
structure WorkerMove (s t : ThreadPoolSystem κ) (w : Nat) (pc : WorkerPc) : Prop where
  live : w < s.pool.workers_
  worker : t.worker = Function.update s.worker w pc
  caller : (s.worker w ≠ .notify_all ∧ t.caller = s.caller) ∨
    (s.worker w = .notify_all ∧ t.caller = wakeAll .wait_asleep .wait_lock s.caller)
  workers : t.pool.workers_ = s.pool.workers_
  stop : t.pool.stop_ = s.pool.stop_
  pause : t.pool.pause_ = s.pool.pause_
  tasks : t.pool.tasks_ = s.pool.tasks_ ∨ ∃ task, pc = .sub_queued task
  active : t.pool.active_ = s.pool.active_ + (counts pc).toNat - (counts (s.worker w)).toNat
  busy : busy (s.worker w) = true → busy pc = true ∨ s.worker w = .notify_all
  block : pc = .block → (s.worker w = .pause ∧ s.pool.pause_ = true) ∨
    (s.worker w = .empty ∧ s.pool.tasks_ = [])
  asleep : pc = .asleep → s.worker w = .block

theorem exists_workerMove {w : Nat} (hw : w < s.pool.workers_) (hs : s.workerStep w = some t) :
    ∃ pc, WorkerMove s t w pc := by
  have hmove : ∀ (pc : WorkerPc) (u : ThreadPoolSystem κ), s.worker w ≠ .notify_all →
      u.worker = Function.update s.worker w pc → u.caller = s.caller → u.pool = s.pool →
      counts pc = counts (s.worker w) →
      (ThreadPoolSystem.busy (s.worker w) = true → ThreadPoolSystem.busy pc = true) →
      (pc = .block → (s.worker w = .pause ∧ s.pool.pause_ = true) ∨
        (s.worker w = .empty ∧ s.pool.tasks_ = [])) →
      (pc = .asleep → s.worker w = .block) → ∃ pc, WorkerMove s u w pc := by
    intro pc u h1 h2 h3 h4 h5 h6 h7 h8
    exact ⟨pc, hw, h2, Or.inl ⟨h1, h3⟩, by rw [h4], by rw [h4], by rw [h4], Or.inl (by rw [h4]),
      by rw [h4, h5, Nat.add_sub_cancel], fun hb => Or.inl (h6 hb), h7, h8⟩
  cases hpc : s.worker w with
  | pause =>
    simp only [workerStep, hpc] at hs
    split_ifs at hs with hpause
    all_goals
      cases hs
      exact hmove _ _ (by simp [hpc]) rfl rfl rfl (by rw [hpc]; rfl) (by simp [hpc, busy])
        (by simp [hpc, hpause]) (by simp)
  | empty =>
    simp only [workerStep, hpc] at hs
    split_ifs at hs with he
    all_goals
      cases hs
      exact hmove _ _ (by simp [hpc]) rfl rfl rfl (by rw [hpc]; rfl) (by simp [hpc, busy])
        (by simp [hpc, he]) (by simp)
  | pop =>
    simp only [workerStep, hpc] at hs
    split at hs
    · cases hs
    · cases hs
      exact ⟨_, hw, rfl, Or.inl ⟨by simp [hpc], rfl⟩, rfl, rfl, rfl, Or.inr ⟨_, rfl⟩,
        by simp [hpc, counts], by simp [busy], by simp, by simp⟩
  | sub_queued task | add_active task | sub_active | add_completed =>
    simp only [workerStep, hpc] at hs
    cases hs
    exact ⟨_, hw, rfl, Or.inl ⟨by simp [hpc], rfl⟩, rfl, rfl, rfl, Or.inl rfl,
      by simp [hpc, counts], by simp [busy], by simp, by simp⟩
  | notify_all =>
    simp only [workerStep, hpc] at hs
    cases hs
    exact ⟨_, hw, rfl, Or.inr ⟨hpc, rfl⟩, rfl, rfl, rfl, Or.inl rfl,
      by simp [hpc, counts, setWorker], by simp [hpc], by simp, by simp⟩
  | asleep => simp [workerStep, hpc] at hs
  | exited => simp [workerStep, hpc] at hs
  | _ =>
    simp only [workerStep, hpc] at hs
    try split_ifs at hs
    all_goals
      cases hs
      exact hmove _ _ (by simp [hpc]) rfl rfl rfl (by rw [hpc]; rfl) (by simp [hpc, busy])
        (by simp) (by simp [hpc])

/-- A worker that wakes up for no reason. -/
theorem workerMove_spurious {w : Nat} (hw : w < s.pool.workers_) (hpc : s.worker w = .asleep) :
    WorkerMove s (s.setWorker w .lock) w .lock :=
  ⟨hw, rfl, Or.inl ⟨by simp [hpc], rfl⟩, rfl, rfl, rfl, Or.inl rfl, by simp [hpc, counts, setWorker],
    by simp [hpc, busy], by simp, by simp⟩

theorem WorkerMove.self {w : Nat} {pc : WorkerPc} (hm : WorkerMove s t w pc) : t.worker w = pc := by
  rw [hm.worker, Function.update_self]

theorem WorkerMove.other {w v : Nat} {pc : WorkerPc} (hm : WorkerMove s t w pc) (hv : v ≠ w) :
    t.worker v = s.worker v := by
  rw [hm.worker, Function.update_of_ne hv]

/-- What does not tell a sleeping caller from a woken one is as it was. -/
theorem WorkerMove.caller_congr {w : Nat} {pc : WorkerPc} (hm : WorkerMove s t w pc) {β : Type*}
    (f : CallerPc → β) (hf : f .wait_asleep = f .wait_lock) (c : κ) :
    f (t.caller c) = f (s.caller c) := by
  rcases hm.caller with ⟨-, hc⟩ | ⟨-, hc⟩
  · rw [hc]
  · rw [hc]
    exact wakeAll_congr f hf s.caller c

/-! ## What a caller can do -/

/-- The caller has found that `wait_all` must wait. -/
def waits : CallerPc → Bool
  | .wait_block => true
  | .wait_asleep => true
  | _ => false

/-- The caller is about to notify `cv_`. -/
def notifying : CallerPc → Bool
  | .enqueue_notify_one => true
  | .resume_notify_all => true
  | .shutdown_notify_all => true
  | _ => false

/-- What a step of the caller `c`, which takes it to `pc`, does to the rest of the pool. -/
structure CallerMove [DecidableEq κ] (s t : ThreadPoolSystem κ) (c : κ) (pc : CallerPc) :
    Prop where
  caller : t.caller = Function.update s.caller c pc
  workers : s.pool.workers_ ≤ t.pool.workers_
  worker : ∀ w, t.worker w = s.worker w ∨ (s.worker w = .asleep ∧ t.worker w = .lock)
  woken : notifies (s.caller c) = true → notifies pc = true ∨ (notifying (s.caller c) = true ∧
    ((∃ w < s.pool.workers_, t.worker w = .lock) ∨ ∀ w < s.pool.workers_, t.worker w ≠ .asleep))
  active : t.pool.active_ = s.pool.active_
  tasks : t.pool.tasks_ = s.pool.tasks_ ∨ (t.pool.tasks_ ≠ [] ∧ notifies pc = true)
  waits : waits pc = true → waits (s.caller c) = true ∨ s.pool.tasks_ ≠ [] ∨ s.pool.active_ ≠ 0
  stop : s.pool.stop_ = true ∨ pc = .shutdown_notify_all → t.pool.stop_ = true
  pause : s.pool.pause_ = true → t.pool.pause_ = true ∨ notifies pc = true
  shutdown : shutDown pc = true → shutDown (s.caller c) = true ∨
    (s.caller c = .shutdown_notify_all ∧ ∀ w, t.worker w ≠ .asleep)

section
variable [DecidableEq κ] {c : κ}

/-- A step that changes nothing but the place of the caller and the owner of the mutex. -/
theorem CallerMove.of_pool {pc : CallerPc} (hcaller : t.caller = Function.update s.caller c pc)
    (hworker : t.worker = s.worker) (hpool : t.pool = s.pool)
    (hnotifies : notifies (s.caller c) = true → notifies pc = true)
    (hwaits : ThreadPoolSystem.waits pc = true →
      ThreadPoolSystem.waits (s.caller c) = true ∨ s.pool.tasks_ ≠ [] ∨ s.pool.active_ ≠ 0)
    (hstop : pc ≠ .shutdown_notify_all)
    (hshutdown : shutDown pc = true → shutDown (s.caller c) = true) : CallerMove s t c pc where
  caller := hcaller
  workers := by rw [hpool]
  worker w := Or.inl (by rw [hworker])
  woken hn := Or.inl (hnotifies hn)
  active := by rw [hpool]
  tasks := Or.inl (by rw [hpool])
  waits := hwaits
  stop hs := by
    rw [hpool]
    exact hs.resolve_right hstop
  pause hp := by
    rw [hpool]
    exact Or.inl hp
  shutdown hs := Or.inl (hshutdown hs)

theorem CallerMove.self {pc : CallerPc} (hm : CallerMove s t c pc) : t.caller c = pc := by
  rw [hm.caller, Function.update_self]

theorem CallerMove.other {d : κ} {pc : CallerPc} (hm : CallerMove s t c pc) (hd : d ≠ c) :
    t.caller d = s.caller d := by
  rw [hm.caller, Function.update_of_ne hd]

/-- What does not tell a sleeping worker from a woken one is as it was. -/
theorem CallerMove.worker_congr {pc : CallerPc} (hm : CallerMove s t c pc) {β : Type*}
    (f : WorkerPc → β) (hf : f .asleep = f .lock) (w : Nat) : f (t.worker w) = f (s.worker w) := by
  rcases hm.worker w with hw | ⟨h1, h2⟩
  · rw [hw]
  · rw [h1, h2, hf]

theorem exists_callerMove {woken : Option Nat} (hs : s.callerStep c woken = some t) :
    ∃ pc, CallerMove s t c pc := by
  have hwake : ∀ w, wakeAll .asleep .lock s.worker w = s.worker w ∨
      (s.worker w = .asleep ∧ wakeAll .asleep .lock s.worker w = .lock) := by
    intro w
    by_cases hw : s.worker w = .asleep
    · exact Or.inr ⟨hw, if_pos hw⟩
    · exact Or.inl (wakeAll_of_ne hw)
  have hawake : ∀ w, wakeAll .asleep .lock s.worker w ≠ .asleep := wakeAll_ne (by simp) s.worker
  cases hpc : s.caller c with
  | enqueue_push =>
    simp only [callerStep, hpc] at hs
    cases hs
    exact ⟨_, rfl, Nat.le_refl _, fun _ => Or.inl rfl, fun _ => Or.inl rfl, rfl,
      Or.inr ⟨by simp, rfl⟩, by simp [waits], by simp, Or.inl, by simp [shutDown]⟩
  | enqueue_count =>
    simp only [callerStep, hpc] at hs
    cases hs
    exact ⟨_, rfl, Nat.le_refl _, fun _ => Or.inl rfl, fun _ => Or.inl rfl, rfl, Or.inl rfl,
      by simp [waits], by simp, Or.inl, by simp [shutDown]⟩
  | enqueue_notify_one =>
    cases woken with
    | none =>
      simp only [callerStep, hpc] at hs
      split_ifs at hs with hnone
      cases hs
      exact ⟨_, rfl, Nat.le_refl _, fun _ => Or.inl rfl,
        fun _ => Or.inr ⟨by rw [hpc]; rfl, Or.inr hnone⟩, rfl, Or.inl rfl, by simp [waits],
        by simp [setCaller], Or.inl, by simp [shutDown]⟩
    | some w =>
      simp only [callerStep, hpc] at hs
      split_ifs at hs with hw
      cases hs
      have hself : ((s.setCaller c .idle).setWorker w .lock).worker w = .lock := setWorker_self ..
      refine ⟨_, rfl, Nat.le_refl _, ?_, fun _ => Or.inr ⟨by rw [hpc]; rfl, Or.inl ⟨w, hw.1, hself⟩⟩,
        rfl, Or.inl rfl, by simp [waits], by simp [setCaller, setWorker], Or.inl, by simp [shutDown]⟩
      intro v
      by_cases hv : v = w
      · subst hv
        exact Or.inr ⟨hw.2, hself⟩
      · exact Or.inl (setWorker_of_ne hv)
  | wait_empty =>
    simp only [callerStep, hpc] at hs
    split_ifs at hs with he
    all_goals
      cases hs
      exact ⟨_, .of_pool rfl rfl rfl (by simp [hpc, notifies]) (by simp [waits, he]) (by simp)
        (by simp [shutDown])⟩
  | wait_active =>
    simp only [callerStep, hpc] at hs
    split_ifs at hs with h0
    all_goals
      cases hs
      exact ⟨_, .of_pool rfl rfl rfl (by simp [hpc, notifies]) (by simp [waits, h0]) (by simp)
        (by simp [shutDown])⟩
  | pause =>
    simp only [callerStep, hpc] at hs
    cases hs
    exact ⟨_, rfl, Nat.le_refl _, fun _ => Or.inl rfl, by simp [hpc, notifies], rfl, Or.inl rfl,
      by simp [waits], by simp, fun _ => Or.inl rfl, by simp [shutDown]⟩
  | resume =>
    simp only [callerStep, hpc] at hs
    cases hs
    exact ⟨_, rfl, Nat.le_refl _, fun _ => Or.inl rfl, by simp [hpc, notifies], rfl, Or.inl rfl,
      by simp [waits], by simp, fun _ => Or.inr rfl, by simp [shutDown]⟩
  | resume_notify_all =>
    simp only [callerStep, hpc] at hs
    cases hs
    exact ⟨_, rfl, Nat.le_refl _, hwake,
      fun _ => Or.inr ⟨by rw [hpc]; rfl, Or.inr (fun w _ => hawake w)⟩, rfl, Or.inl rfl,
      by simp [waits], by simp [setCaller, wakeWorkers], Or.inl, by simp [shutDown]⟩
  | resize n =>
    simp only [callerStep, hpc] at hs
    split_ifs at hs
    · cases hs
      exact ⟨_, .of_pool rfl rfl rfl (by simp [hpc, notifies]) (by simp [waits]) (by simp)
        (by simp [shutDown])⟩
    · cases hs
      exact ⟨.resize n, (by simp [← hpc]), Nat.le_succ _, fun _ => Or.inl rfl,
        by simp [hpc, notifies], rfl, Or.inl rfl, by simp [waits], by simp, Or.inl,
        by simp [shutDown]⟩
  | shutdown =>
    simp only [callerStep, hpc] at hs
    cases hs
    exact ⟨_, rfl, Nat.le_refl _, fun _ => Or.inl rfl, by simp [hpc, notifies], rfl, Or.inl rfl,
      by simp [waits], fun _ => rfl, Or.inl, by simp [shutDown]⟩
  | shutdown_notify_all =>
    simp only [callerStep, hpc] at hs
    cases hs
    exact ⟨_, rfl, Nat.le_refl _, hwake,
      fun _ => Or.inr ⟨by rw [hpc]; rfl, Or.inr (fun w _ => hawake w)⟩, rfl, Or.inl rfl,
      by simp [waits], by simp [setCaller, wakeWorkers], Or.inl, fun _ => Or.inr ⟨hpc, hawake⟩⟩
  | idle => simp [callerStep, hpc] at hs
  | wait_asleep => simp [callerStep, hpc] at hs
  | joined => simp [callerStep, hpc] at hs
  | _ =>
    simp only [callerStep, hpc] at hs
    try split_ifs at hs
    all_goals
      cases hs
      exact ⟨_, .of_pool rfl rfl rfl (by simp [hpc, notifies]) (by simp [hpc, waits]) (by simp)
        (by simp [hpc, shutDown])⟩

/-- Every step is a move of a worker or of a caller. -/
theorem step_cases {a : ThreadPoolAction κ} (h : Inv s) (hs : s.step a = some t) :
    (∃ w pc, WorkerMove s t w pc ∧ (s.worker w ≠ .asleep → a = .worker w)) ∨
    ∃ c pc, CallerMove s t c pc ∧ (notifying (s.caller c) = true → ∃ woken, a = .caller c woken) := by
  cases a with
  | call c call =>
    simp only [step] at hs
    split_ifs at hs with hidle
    cases hs
    refine Or.inr ⟨c, enter call, .of_pool rfl rfl rfl ?_ ?_ ?_ ?_, ?_⟩
    · simp [hidle, notifies]
    · cases call <;> simp [enter, waits]
    · cases call <;> simp [enter]
    · cases call <;> simp [enter, shutDown]
    · simp [hidle, notifying]
  | worker w =>
    simp only [step] at hs
    split_ifs at hs with hw
    obtain ⟨pc, hm⟩ := exists_workerMove hw hs
    exact Or.inl ⟨w, pc, hm, fun _ => rfl⟩
  | caller c woken =>
    obtain ⟨pc, hm⟩ := exists_callerMove hs
    exact Or.inr ⟨c, pc, hm, fun _ => ⟨woken, rfl⟩⟩
  | spurious u =>
    cases u with
    | inl w =>
      simp only [step] at hs
      split_ifs at hs with hasleep
      cases hs
      exact Or.inl ⟨w, _, workerMove_spurious (h.lt_of_asleep hasleep) hasleep,
        fun hne => absurd hasleep hne⟩
    | inr c =>
      simp only [step] at hs
      split_ifs at hs with hasleep
      cases hs
      refine Or.inr ⟨c, .wait_lock, .of_pool rfl rfl rfl ?_ ?_ ?_ ?_, ?_⟩
      · simp [hasleep, notifies]
      · simp [waits]
      · simp
      · simp [shutDown]
      · simp [hasleep, notifying]

/-! ## Callers of `wait_all` -/

/-- `active_` counts the workers that it should, and while a caller waits, there is a task or a
worker that will still notify `done_cv_`. -/
structure Awaited (s : ThreadPoolSystem κ) : Prop where
  active : s.pool.active_ =
    ((Finset.range s.pool.workers_).filter (fun w => counts (s.worker w) = true)).card
  awaited : ∀ c, waits (s.caller c) = true →
    s.pool.tasks_ ≠ [] ∨ ∃ w < s.pool.workers_, busy (s.worker w) = true

omit [DecidableEq κ] in
theorem awaited_start (n : Nat) : Awaited (start n : ThreadPoolSystem κ) := by
  refine ⟨?_, ?_⟩
  · simp [start, counts]
  · intro c hc
    cases hc

/-- The last worker that is busy does not notify `done_cv_` while a caller of `wait_all` is between
its test and its sleep, unless there are tasks left. -/
def DoneInTime (s : ThreadPoolSystem κ) : ThreadPoolAction κ → Prop
  | .worker w => s.worker w = .notify_all → s.pool.tasks_ = [] →
      (∀ v < s.pool.workers_, v ≠ w → busy (s.worker v) = false) → ∀ c, s.caller c ≠ .wait_block
  | _ => True

instance [Fintype κ] (s : ThreadPoolSystem κ) : ∀ a, Decidable (DoneInTime s a)
  | .worker w => inferInstanceAs (Decidable (s.worker w = .notify_all → s.pool.tasks_ = [] →
      (∀ v < s.pool.workers_, v ≠ w → busy (s.worker v) = false) → ∀ c, s.caller c ≠ .wait_block))
  | .call _ _ => isTrue trivial
  | .caller _ _ => isTrue trivial
  | .spurious _ => isTrue trivial

omit [DecidableEq κ] in
theorem Awaited.workerMove (h : Awaited s) {w : Nat} {pc : WorkerPc} (hm : WorkerMove s t w pc)
    (hok : s.worker w = .notify_all → DoneInTime s (.worker w)) : Awaited t := by
  constructor
  · have hcard := card_filter_update counts s.worker pc hm.live
    rw [hm.active, h.active, hm.workers, hm.worker]
    omega
  · intro c hc
    rw [hm.workers]
    rcases hm.tasks with htasks | ⟨task, rfl⟩
    · rw [htasks]
      rcases hm.caller with ⟨hnot, hcaller⟩ | ⟨hlast, hcaller⟩
      · rw [hcaller] at hc
        apply (h.awaited c hc).imp id
        rintro ⟨v, hv, hbusy⟩
        by_cases hvw : v = w
        · subst hvw
          exact ⟨v, hv, hm.self.symm ▸ (hm.busy hbusy).resolve_right hnot⟩
        · exact ⟨v, hv, (hm.other hvw).symm ▸ hbusy⟩
      · -- who waits and is not woken stands between its test and its sleep
        have hblock : s.caller c = .wait_block := by
          rw [hcaller] at hc
          by_cases ha : s.caller c = .wait_asleep
          · rw [wakeAll, if_pos ha] at hc
            cases hc
          · rw [wakeAll_of_ne ha] at hc
            revert hc ha
            cases s.caller c <;> simp [waits]
        by_contra hnone
        push Not at hnone
        obtain ⟨hempty, hidle⟩ := hnone
        refine hok hlast hlast hempty ?_ c hblock
        intro v hv hvw
        have := hidle v hv
        rw [hm.other hvw] at this
        simpa using this
    · exact Or.inr ⟨w, hm.live, by rw [hm.self]; rfl⟩

/-- A step of a caller wakes workers and adds workers, which stand at the lock. -/
theorem card_callerMove (hinv : Inv s) {b : WorkerPc → Bool} (hlock : b .lock = false)
    (hasleep : b .asleep = false) {c : κ} {pc : CallerPc} (hm : CallerMove s t c pc) :
    ((Finset.range t.pool.workers_).filter (fun w => b (t.worker w) = true)).card =
      ((Finset.range s.pool.workers_).filter (fun w => b (s.worker w) = true)).card := by
  have hsame : ∀ w, b (t.worker w) = b (s.worker w) :=
    hm.worker_congr b (hasleep.trans hlock.symm)
  congr 1
  ext w
  simp only [Finset.mem_filter, Finset.mem_range, hsame]
  constructor
  · rintro ⟨-, hb⟩
    refine ⟨?_, hb⟩
    by_contra hge
    rw [hinv.absent w (Nat.not_lt.mp hge), hlock] at hb
    cases hb
  · rintro ⟨hw, hb⟩
    exact ⟨Nat.lt_of_lt_of_le hw hm.workers, hb⟩

theorem Awaited.callerMove (hinv : Inv s) (h : Awaited s) {c : κ} {pc : CallerPc}
    (hm : CallerMove s t c pc) : Awaited t := by
  have hkeep : (s.pool.tasks_ ≠ [] ∨ ∃ w < s.pool.workers_, busy (s.worker w) = true) →
      t.pool.tasks_ ≠ [] ∨ ∃ w < t.pool.workers_, busy (t.worker w) = true := by
    rintro (htasks | ⟨w, hw, hbusy⟩)
    · rcases hm.tasks with hsame | ⟨hne, -⟩
      · exact Or.inl (hsame ▸ htasks)
      · exact Or.inl hne
    · refine Or.inr ⟨w, Nat.lt_of_lt_of_le hw hm.workers, ?_⟩
      rw [hm.worker_congr ThreadPoolSystem.busy rfl]
      exact hbusy
  constructor
  · rw [hm.active, h.active]
    exact (card_callerMove hinv rfl rfl hm).symm
  · intro d hd
    rw [hm.caller] at hd
    by_cases hdc : d = c
    · subst hdc
      rw [Function.update_self] at hd
      rcases hm.waits hd with hold | htasks | hactive
      · exact hkeep (h.awaited d hold)
      · exact hkeep (Or.inl htasks)
      · -- a worker that is counted will still notify
        rw [h.active] at hactive
        obtain ⟨w, hw⟩ := Finset.card_ne_zero.mp hactive
        simp only [Finset.mem_filter, Finset.mem_range] at hw
        refine hkeep (Or.inr ⟨w, hw.1, ?_⟩)
        have hc := hw.2
        revert hc
        cases s.worker w <;> simp [counts, busy]
    · rw [Function.update_of_ne hdc] at hd
      exact hkeep (h.awaited d hd)

theorem awaited_step {a : ThreadPoolAction κ} (hinv : Inv s) (h : Awaited s) (hok : DoneInTime s a)
    (hs : s.step a = some t) : Awaited t := by
  rcases step_cases hinv hs with ⟨w, pc, hm, ha⟩ | ⟨c, pc, hm, -⟩
  · apply h.workerMove hm
    intro hlast
    rw [← ha (by simp [hlast])]
    exact hok
  · exact h.callerMove hinv hm

/-- A caller that misses the last notification is lost when it goes to sleep. -/
theorem waiter_is_lost_after_a_missed_notification (hinv : Inv s) (h : Awaited s) {w : Nat}
    (hmissed : ¬ DoneInTime s (.worker w)) :
    ∃ c t u, s.step (.worker w) = some t ∧ t.step (.caller c none) = some u ∧ WaiterLost u := by
  unfold DoneInTime at hmissed
  push Not at hmissed
  obtain ⟨hlast, hempty, hidle, c, hc⟩ := hmissed
  have hw : w < s.pool.workers_ := by
    by_contra hge
    rw [hinv.absent w (Nat.not_lt.mp hge)] at hlast
    cases hlast
  let t : ThreadPoolSystem κ :=
    { s.setWorker w .lock with caller := wakeAll .wait_asleep .wait_lock s.caller }
  have ht : s.step (.worker w) = some t := by simp only [step, if_pos hw, workerStep, hlast, t]
  have hct : t.caller c = .wait_block := by
    change wakeAll .wait_asleep .wait_lock s.caller c = .wait_block
    rw [wakeAll_of_ne (by rw [hc]; simp), hc]
  have hsleeps : t.step (.caller c none) = some { t.setCaller c .wait_asleep with mtx_ := none } := by
    simp only [step, callerStep, hct]
  -- the worker was the last one that is busy, so none is counted
  have hbusy : ∀ v < s.pool.workers_, busy (t.worker v) = false := by
    intro v hv
    by_cases hvw : v = w
    · rw [hvw, show t.worker w = .lock from setWorker_self s w .lock]
      rfl
    · rw [show t.worker v = s.worker v from setWorker_of_ne hvw]
      exact hidle v hv hvw
  have hcounts : ∀ v < s.pool.workers_, ¬ counts (s.worker v) = true := by
    intro v hv
    by_cases hvw : v = w
    · rw [hvw, hlast]
      simp [counts]
    · have := hidle v hv hvw
      revert this
      cases s.worker v <;> simp [busy, counts]
  have hactive : s.pool.active_ = 0 := by
    rw [h.active, Finset.card_eq_zero, Finset.filter_eq_empty_iff]
    intro v hv
    exact hcounts v (Finset.mem_range.mp hv)
  exact ⟨c, t, _, ht, hsleeps, ⟨c, setCaller_self t c .wait_asleep⟩, hempty, hactive, hbusy⟩

/-- In a run in which the last `notify_all` never comes between the test and the sleep of a caller of
`wait_all`, no caller sleeps with nothing left to do and nothing to notify. -/
theorem no_waiter_is_lost_while_workers_notify_in_time {n : Nat} {as : List (ThreadPoolAction κ)}
    (hm : Meets step DoneInTime (start n) as) (hr : run step (start n) as = some s) :
    ¬ WaiterLost s := by
  have h : Inv s ∧ Awaited s :=
    invariant_of_meets (I := fun t => Inv t ∧ Awaited t)
      (fun _ a _ h hok hs => ⟨inv_step a h.1 hs, awaited_step h.1 h.2 hok hs⟩)
      ⟨inv_start n, awaited_start n⟩ hm hr
  rintro ⟨⟨c, hc⟩, hempty, -, hidle⟩
  rcases h.2.awaited c (by rw [hc]; rfl) with hne | ⟨w, hw, hbusy⟩
  · exact hne hempty
  · rw [hidle w hw] at hbusy
    cases hbusy

/-- The caller sleeps while the worker runs the task, and is woken. -/
def awaitedRun : List (ThreadPoolAction Unit) :=
  [.call () .enqueue] ++ callerSteps () 6 ++ workerSteps 0 11 ++ [.call () .wait_all] ++
    callerSteps () 4 ++ workerSteps 0 3 ++ callerSteps () 4

theorem one_waiter_is_woken : ∃ s : ThreadPoolSystem Unit, run step (start 1) awaitedRun = some s ∧
    s.finished = [0] ∧ s.caller () = .idle ∧ ¬ WaiterLost s := by
  obtain ⟨s, hs, hfinished, hidle⟩ : ∃ s : ThreadPoolSystem Unit,
      run step (start 1) awaitedRun = some s ∧ s.finished = [0] ∧ s.caller () = .idle :=
    exists_of_any (by decide +kernel)
  exact ⟨s, hs, hfinished, hidle, no_waiter_is_lost_while_workers_notify_in_time
    (by decide +kernel) hs⟩

/-- The worker ends the task after the caller has read `active_`, and notifies before the caller
sleeps. -/
def missedDoneRun : List (ThreadPoolAction Unit) :=
  [.call () .enqueue] ++ callerSteps () 6 ++ workerSteps 0 11 ++ [.call () .wait_all] ++
    callerSteps () 3 ++ workerSteps 0 3 ++ callerSteps () 1

theorem a_waiter_is_lost : ∃ s : ThreadPoolSystem Unit,
    run step (start 1) missedDoneRun = some s ∧ WaiterLost s := by
  obtain ⟨s, hs, hasleep, hempty, hactive, hworkers, hlock⟩ : ∃ s : ThreadPoolSystem Unit,
      run step (start 1) missedDoneRun = some s ∧ s.caller () = .wait_asleep ∧ s.pool.tasks_ = [] ∧
        s.pool.active_ = 0 ∧ s.pool.workers_ = 1 ∧ s.worker 0 = .lock :=
    exists_of_any (by decide +kernel)
  refine ⟨s, hs, ⟨(), hasleep⟩, hempty, hactive, ?_⟩
  intro w hw
  obtain rfl : w = 0 := by omega
  rw [hlock]
  rfl

/-! ## Workers that wait for tasks -/

/-- The worker sleeps, or is about to. -/
def resting : WorkerPc → Bool
  | .block => true
  | .asleep => true
  | _ => false

/-- The caller has stored `stop_`. -/
def stopping : CallerPc → Bool
  | .shutdown_notify_all => true
  | .join => true
  | .joined => true
  | _ => false

/-- The caller `c` is the last one to notify `cv_`. -/
def LastToNotify (s : ThreadPoolSystem κ) (c : κ) : Prop :=
  notifying (s.caller c) = true ∧ ∀ d, d ≠ c → notifies (s.caller d) = false

/-- No worker sleeps on a predicate that it evaluated before `shutdown` notified, and no last
notification comes while the only worker is between a predicate and its sleep, though there are
tasks and the pool is not paused. -/
def TasksInTime (s : ThreadPoolSystem κ) : ThreadPoolAction κ → Prop
  | .worker w => (s.worker w = .pause ∧ s.pool.pause_ = true) ∨
      (s.worker w = .empty ∧ s.pool.tasks_ = []) → ∀ c, shutDown (s.caller c) = false
  | .caller c _ =>
      (s.caller c = .shutdown_notify_all → ∀ w < s.pool.workers_, s.worker w ≠ .block) ∧
      (LastToNotify s c → s.pool.workers_ = 1 → s.worker 0 = .block → s.pool.pause_ = false →
        s.pool.tasks_ = [])
  | _ => True

instance [Fintype κ] (s : ThreadPoolSystem κ) (c : κ) : Decidable (LastToNotify s c) :=
  inferInstanceAs (Decidable (_ ∧ _))

instance [Fintype κ] (s : ThreadPoolSystem κ) : ∀ a, Decidable (TasksInTime s a)
  | .worker w => inferInstanceAs (Decidable ((s.worker w = .pause ∧ s.pool.pause_ = true) ∨
      (s.worker w = .empty ∧ s.pool.tasks_ = []) → ∀ c, shutDown (s.caller c) = false))
  | .caller c _ => inferInstanceAs (Decidable (
      (s.caller c = .shutdown_notify_all → ∀ w < s.pool.workers_, s.worker w ≠ .block) ∧
      (LastToNotify s c → s.pool.workers_ = 1 → s.worker 0 = .block → s.pool.pause_ = false →
        s.pool.tasks_ = [])))
  | .call _ _ => isTrue trivial
  | .spurious _ => isTrue trivial

/-- After `shutdown` no worker rests, and while there are tasks and the pool is not paused, someone
will notify or a worker is awake. -/
structure Alert (s : ThreadPoolSystem κ) : Prop where
  some_worker : 1 ≤ s.pool.workers_
  stopped : ∀ c, stopping (s.caller c) = true → s.pool.stop_ = true
  shutDown : ∀ c, shutDown (s.caller c) = true →
    ∀ w < s.pool.workers_, resting (s.worker w) = false
  tasks : s.pool.tasks_ ≠ [] → s.pool.pause_ = false →
    (∃ c, notifies (s.caller c) = true) ∨ ∃ w < s.pool.workers_, resting (s.worker w) = false

omit [DecidableEq κ] in
theorem alert_start {n : Nat} (hn : 1 ≤ n) : Alert (start n : ThreadPoolSystem κ) := by
  refine ⟨hn, ?_, ?_, ?_⟩
  · intro c hc
    cases hc
  · intro c hc
    cases hc
  · intro hne
    exact absurd rfl hne

theorem resting_iff (pc : WorkerPc) : resting pc = true ↔ pc = .block ∨ pc = .asleep := by
  cases pc <;> simp [resting]

omit [DecidableEq κ] in
theorem Alert.workerMove (h : Alert s) {w : Nat} {pc : WorkerPc} (hm : WorkerMove s t w pc)
    (hok : s.worker w ≠ .asleep → TasksInTime s (.worker w)) : Alert t := by
  refine ⟨by rw [hm.workers]; exact h.some_worker, ?_, ?_, ?_⟩
  · intro c hc
    rw [hm.caller_congr stopping rfl c] at hc
    rw [hm.stop]
    exact h.stopped c hc
  · intro c hc v hv
    rw [hm.caller_congr ThreadPoolSystem.shutDown rfl c] at hc
    rw [hm.workers] at hv
    by_cases hvw : v = w
    · rw [hvw, hm.self, ← Bool.not_eq_true, resting_iff]
      rintro (hblock | hasleep)
      · have hin : s.worker w ≠ .asleep := by
          rcases hm.block hblock with ⟨hp, -⟩ | ⟨hp, -⟩
          all_goals simp [hp]
        rw [hok hin (hm.block hblock) c] at hc
        cases hc
      · have hbefore := h.shutDown c hc w hm.live
        rw [hm.asleep hasleep] at hbefore
        cases hbefore
    · rw [hm.other hvw]
      exact h.shutDown c hc v hv
  · intro htasks hpause
    rw [hm.workers]
    rcases hm.tasks with hsame | ⟨task, rfl⟩
    · rw [hsame] at htasks
      rw [hm.pause] at hpause
      rcases h.tasks htasks hpause with ⟨c, hc⟩ | ⟨v, hv, hawake⟩
      · exact Or.inl ⟨c, by rw [hm.caller_congr notifies rfl c]; exact hc⟩
      · refine Or.inr ⟨v, hv, ?_⟩
        by_cases hvw : v = w
        · subst hvw
          rw [hm.self, ← Bool.not_eq_true, resting_iff]
          rintro (hblock | hasleep)
          · rcases hm.block hblock with ⟨-, hp⟩ | ⟨-, he⟩
            · rw [hpause] at hp
              cases hp
            · exact htasks he
          · rw [hm.asleep hasleep] at hawake
            cases hawake
        · rw [hm.other hvw]
          exact hawake
    · exact Or.inr ⟨w, hm.live, by rw [hm.self]; rfl⟩

theorem Alert.callerMove (hinv : Inv s) (h : Alert s) {c : κ} {pc : CallerPc}
    (hm : CallerMove s t c pc)
    (hok : notifying (s.caller c) = true → TasksInTime s (.caller c none)) : Alert t := by
  have hstay : ∀ w, resting (s.worker w) = false → resting (t.worker w) = false := by
    intro w hw
    rcases hm.worker w with hsame | ⟨-, hlock⟩
    · rw [hsame]
      exact hw
    · rw [hlock]
      rfl
  -- a worker that rests after all have been woken is about to sleep, and was before
  have hblock : ∀ w, t.worker w ≠ .asleep → resting (t.worker w) = true → s.worker w = .block := by
    intro w hne hrest
    rcases (resting_iff _).mp hrest with hb | ha
    · rcases hm.worker w with hsame | ⟨-, hlock⟩
      · exact hsame ▸ hb
      · rw [hlock] at hb
        cases hb
    · exact absurd ha hne
  refine ⟨Nat.le_trans h.some_worker hm.workers, ?_, ?_, ?_⟩
  · intro d hd
    by_cases hdc : d = c
    · rw [hdc, hm.self] at hd
      have hcases : pc = .shutdown_notify_all ∨ ThreadPoolSystem.shutDown pc = true := by
        revert hd
        cases pc <;> simp [stopping, ThreadPoolSystem.shutDown]
      rcases hcases with hpc | hpc
      · exact hm.stop (Or.inr hpc)
      · refine hm.stop (Or.inl (h.stopped c ?_))
        rcases hm.shutdown hpc with hold | ⟨hold, -⟩
        · revert hold
          cases s.caller c <;> simp [stopping, ThreadPoolSystem.shutDown]
        · rw [hold]
          rfl
    · rw [hm.other hdc] at hd
      exact hm.stop (Or.inl (h.stopped d hd))
  · intro d hd w hw
    have hbefore : ∀ e, ThreadPoolSystem.shutDown (s.caller e) = true →
        resting (t.worker w) = false := by
      intro e he
      apply hstay w
      by_cases hlt : w < s.pool.workers_
      · exact h.shutDown e he w hlt
      · rw [hinv.absent w (Nat.not_lt.mp hlt)]
        rfl
    by_cases hdc : d = c
    · rw [hdc, hm.self] at hd
      rcases hm.shutdown hd with hold | ⟨hold, hawake⟩
      · exact hbefore c hold
      · by_contra hrest
        have hb := hblock w (hawake w) (by simpa using hrest)
        have hlt : w < s.pool.workers_ := by
          by_contra hge
          rw [hinv.absent w (Nat.not_lt.mp hge)] at hb
          cases hb
        exact (hok (by rw [hold]; rfl)).1 hold w hlt hb
    · rw [hm.other hdc] at hd
      exact hbefore d hd
  · intro htasks hpause
    by_cases hpc : notifies pc = true
    · exact Or.inl ⟨c, by rw [hm.self]; exact hpc⟩
    have hsame : t.pool.tasks_ = s.pool.tasks_ := hm.tasks.resolve_right (fun hn => hpc hn.2)
    rw [hsame] at htasks
    have hpause' : s.pool.pause_ = false := by
      by_contra hp
      rcases hm.pause (by simpa using hp) with htrue | hn
      · rw [hpause] at htrue
        cases htrue
      · exact hpc hn
    rcases h.tasks htasks hpause' with ⟨d, hd⟩ | ⟨w, hw, hawake⟩
    · by_cases hdc : d = c
      · subst hdc
        obtain ⟨hlast, ⟨w, hw, hlock⟩ | hwoken⟩ := (hm.woken hd).resolve_left hpc
        · exact Or.inr ⟨w, Nat.lt_of_lt_of_le hw hm.workers, by rw [hlock]; rfl⟩
        · by_contra hnone
          push Not at hnone
          obtain ⟨hsilent, hrest⟩ := hnone
          have hb : ∀ w < s.pool.workers_, s.worker w = .block := by
            intro w hw
            apply hblock w (hwoken w hw)
            simpa using hrest w (Nat.lt_of_lt_of_le hw hm.workers)
          -- only one worker can be in the section of the mutex
          have hone : s.pool.workers_ = 1 := by
            by_contra hne
            have hmore : 1 < s.pool.workers_ := Nat.lt_of_le_of_ne h.some_worker (Ne.symm hne)
            have h0 : s.inside (.inl 0) := by
              simp [inside, hb 0 (Nat.lt_of_lt_of_le Nat.one_pos h.some_worker), workerInside]
            have h1 : s.inside (.inl 1) := by simp [inside, hb 1 hmore, workerInside]
            cases hinv.guards.unique h0 h1
          refine htasks ((hok hlast).2 ⟨hlast, ?_⟩ hone (hb 0 (by omega)) hpause')
          intro e he
          have := hsilent e
          rw [hm.other he] at this
          simpa using this
      · exact Or.inl ⟨d, by rw [hm.other hdc]; exact hd⟩
    · exact Or.inr ⟨w, Nat.lt_of_lt_of_le hw hm.workers, hstay w hawake⟩

theorem alert_step {a : ThreadPoolAction κ} (hinv : Inv s) (h : Alert s) (hok : TasksInTime s a)
    (hs : s.step a = some t) : Alert t := by
  rcases step_cases hinv hs with ⟨w, pc, hm, ha⟩ | ⟨c, pc, hm, ha⟩
  · exact h.workerMove hm (fun hne => ha hne ▸ hok)
  · apply h.callerMove hinv hm
    intro hn
    obtain ⟨woken, rfl⟩ := ha hn
    exact hok

/-- A worker at `block` goes to sleep next. -/
theorem step_block {w : Nat} (hw : w < t.pool.workers_) (hb : t.worker w = .block) :
    t.step (.worker w) = some { t.setWorker w .asleep with mtx_ := none } := by
  simp only [step, if_pos hw, workerStep, hb]

theorem notifying_step {c : κ} {woken : Option Nat} (hn : notifying (s.caller c) = true)
    (hs : s.step (.caller c woken) = some t) :
    t.pool = s.pool ∧ notifies (t.caller c) = false := by
  simp only [step] at hs
  cases hpc : s.caller c with
  | enqueue_notify_one =>
    cases woken with
    | none =>
      simp only [callerStep, hpc] at hs
      split_ifs at hs
      cases hs
      exact ⟨rfl, congrArg notifies (setCaller_self s c .idle)⟩
    | some w =>
      simp only [callerStep, hpc] at hs
      split_ifs at hs
      cases hs
      exact ⟨rfl, congrArg notifies (setCaller_self s c .idle)⟩
  | resume_notify_all =>
    simp only [callerStep, hpc] at hs
    cases hs
    exact ⟨rfl, congrArg notifies (setCaller_self s c .idle)⟩
  | shutdown_notify_all =>
    simp only [callerStep, hpc] at hs
    cases hs
    exact ⟨rfl, congrArg notifies (setCaller_self s c .join)⟩
  | _ => simp [hpc, notifying] at hn

/-- A worker that misses its notification is lost when it goes to sleep. -/
theorem worker_is_lost_after_a_missed_notification {a : ThreadPoolAction κ}
    (hmissed : ¬ TasksInTime s a) (hs : s.step a = some t) :
    ∃ w u, t.step (.worker w) = some u ∧ (JoinLost u ∨ TasksLost u) := by
  have hjoin : ∀ w < t.pool.workers_, t.worker w = .block → (∃ c, shutDown (t.caller c) = true) →
      ∃ w u, t.step (.worker w) = some u ∧ (JoinLost u ∨ TasksLost u) := fun w hw hb hc =>
    ⟨w, _, step_block hw hb, Or.inl ⟨hc, w, hw, setWorker_self t w .asleep⟩⟩
  cases a with
  | call c call => exact absurd trivial hmissed
  | spurious u => exact absurd trivial hmissed
  | worker w =>
    unfold TasksInTime at hmissed
    push Not at hmissed
    obtain ⟨hfalse, c, hc⟩ := hmissed
    simp only [step] at hs
    split_ifs at hs with hw
    have ht : t = s.setWorker w .block := by
      rcases hfalse with ⟨hpc, hp⟩ | ⟨hpc, he⟩
      · simpa [workerStep, hpc, hp] using hs.symm
      · simpa [workerStep, hpc, he] using hs.symm
    subst ht
    exact hjoin w hw (setWorker_self s w .block) ⟨c, by simpa [setWorker] using hc⟩
  | caller c woken =>
    obtain ⟨pc, hm⟩ := exists_callerMove hs
    have hblock : ∀ w, s.worker w = .block → t.worker w = .block := by
      intro w hb
      rcases hm.worker w with hsame | ⟨ha, -⟩
      · rw [hsame, hb]
      · rw [hb] at ha
        cases ha
    by_cases hstop : s.caller c = .shutdown_notify_all → ∀ w < s.pool.workers_, s.worker w ≠ .block
    · have hlost : ¬ (LastToNotify s c → s.pool.workers_ = 1 → s.worker 0 = .block →
          s.pool.pause_ = false → s.pool.tasks_ = []) := fun hl => hmissed ⟨hstop, hl⟩
      push Not at hlost
      obtain ⟨⟨hn, hothers⟩, hone, hb, hpause, htasks⟩ := hlost
      obtain ⟨hpool, hsilent⟩ := notifying_step hn hs
      refine ⟨0, _, step_block (by rw [hpool]; omega) (hblock 0 hb), Or.inr ⟨?_, ?_, ?_, ?_⟩⟩
      · exact (congrArg ThreadPool.pause_ hpool).trans hpause
      · exact fun he => htasks ((congrArg ThreadPool.tasks_ hpool).symm.trans he)
      · intro w hw
        change w < t.pool.workers_ at hw
        obtain rfl : w = 0 := by
          rw [hpool] at hw
          omega
        exact setWorker_self t 0 .asleep
      · intro d
        change notifies (t.caller d) = false
        by_cases hdc : d = c
        · rw [hdc]
          exact hsilent
        · rw [hm.other hdc]
          exact hothers d hdc
    · push Not at hstop
      obtain ⟨hpc, w, hw, hb⟩ := hstop
      simp only [step, callerStep, hpc] at hs
      cases hs
      exact hjoin w hw (hblock w hb) ⟨c, congrArg shutDown (setCaller_self s c .join)⟩

/-- In a run whose notifications come in time, no worker sleeps once `shutdown` has notified, and
the workers do not all sleep while there are tasks, the pool is not paused, and no one will
notify. -/
theorem no_worker_is_lost_while_notifications_come_in_time {n : Nat} (hn : 1 ≤ n)
    {as : List (ThreadPoolAction κ)} (hm : Meets step TasksInTime (start n) as)
    (hr : run step (start n) as = some s) : ¬ JoinLost s ∧ ¬ TasksLost s := by
  have h : Inv s ∧ Alert s :=
    invariant_of_meets (I := fun t => Inv t ∧ Alert t)
      (fun _ a _ h hok hs => ⟨inv_step a h.1 hs, alert_step h.1 h.2 hok hs⟩)
      ⟨inv_start n, alert_start hn⟩ hm hr
  constructor
  · rintro ⟨⟨c, hc⟩, w, hw, hasleep⟩
    have hawake := h.2.shutDown c hc w hw
    rw [hasleep] at hawake
    cases hawake
  · rintro ⟨hpause, htasks, hasleep, hsilent⟩
    rcases h.2.tasks htasks hpause with ⟨c, hc⟩ | ⟨w, hw, hawake⟩
    · rw [hsilent c] at hc
      cases hc
    · rw [hasleep w hw] at hawake
      cases hawake

/-- The worker sleeps through a pause, runs the task after it, and returns. -/
def resumedRun : List (ThreadPoolAction Unit) :=
  workerSteps 0 5 ++ [.call () .pause] ++ callerSteps () 1 ++ [.call () .enqueue] ++
    callerSteps () 5 ++ [.caller () (some 0)] ++ workerSteps 0 4 ++ [.call () .resume] ++
    callerSteps () 2 ++ workerSteps 0 14 ++ [.call () .shutdown] ++ callerSteps () 2 ++
    workerSteps 0 4 ++ callerSteps () 1

theorem one_worker_is_woken : ∃ s : ThreadPoolSystem Unit, run step (start 1) resumedRun = some s ∧
    s.finished = [0] ∧ s.caller () = .joined ∧ ¬ JoinLost s ∧ ¬ TasksLost s := by
  obtain ⟨s, hs, hfinished, hjoined⟩ : ∃ s : ThreadPoolSystem Unit,
      run step (start 1) resumedRun = some s ∧ s.finished = [0] ∧ s.caller () = .joined :=
    exists_of_any (by decide +kernel)
  exact ⟨s, hs, hfinished, hjoined, no_worker_is_lost_while_notifications_come_in_time (by decide)
    (by decide +kernel) hs⟩

/-- The worker has found the queue empty when the pool is shut down, and sleeps afterwards. -/
def missedShutdownRun : List (ThreadPoolAction Unit) :=
  workerSteps 0 4 ++ [.call () .shutdown] ++ callerSteps () 2 ++ workerSteps 0 1

/-- The worker is woken for the task, has found the pool paused when it is resumed, and sleeps
afterwards. -/
def missedResumeRun : List (ThreadPoolAction Unit) :=
  workerSteps 0 5 ++ [.call () .pause] ++ callerSteps () 1 ++ [.call () .enqueue] ++
    callerSteps () 5 ++ [.caller () (some 0)] ++ workerSteps 0 3 ++ [.call () .resume] ++
    callerSteps () 2 ++ workerSteps 0 1

theorem a_worker_is_lost :
    (∃ s : ThreadPoolSystem Unit, run step (start 1) missedShutdownRun = some s ∧ JoinLost s) ∧
    ∃ s : ThreadPoolSystem Unit, run step (start 1) missedResumeRun = some s ∧ TasksLost s := by
  constructor
  · obtain ⟨s, hs, hjoin, hworkers, hasleep⟩ : ∃ s : ThreadPoolSystem Unit,
        run step (start 1) missedShutdownRun = some s ∧ s.caller () = .join ∧
          s.pool.workers_ = 1 ∧ s.worker 0 = .asleep := exists_of_any (by decide +kernel)
    exact ⟨s, hs, ⟨(), by rw [hjoin]; rfl⟩, 0, by omega, hasleep⟩
  · obtain ⟨s, hs, hidle, hpause, htasks, hworkers, hasleep⟩ : ∃ s : ThreadPoolSystem Unit,
        run step (start 1) missedResumeRun = some s ∧ s.caller () = .idle ∧
          s.pool.pause_ = false ∧ s.pool.tasks_ = [0] ∧ s.pool.workers_ = 1 ∧
          s.worker 0 = .asleep := exists_of_any (by decide +kernel)
    refine ⟨s, hs, hpause, by simp [htasks], ?_, ?_⟩
    · intro w hw
      obtain rfl : w = 0 := by omega
      exact hasleep
    · intro c
      rw [hidle]
      rfl

end

end ThreadPoolSystem

end sci
