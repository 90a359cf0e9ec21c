-- What the destructor of a `LegacyThreadPool` leaves behind. A worker returns when it has found
-- `stop_` set and the queue empty, but `Enqueue` does not look at `stop_`: a task that is queued
-- after the last worker has returned stays in the queue, and its future is never satisfied.
import Scicompute.LegacyThreadPoolRuns

open Transition Monitor Holding

namespace sci

namespace bridges

namespace LegacyThreadPool

namespace System

variable {κ : Type*} {s t : System κ}

/-! ## What a worker has seen -/

/-- What a worker in its section has found out about the queue. -/
def SeesOk (p : LegacyThreadPool) : WorkerPc → Prop
  | .pause => p.tasks_ = []
  | .return => p.tasks_ = []
  | _ => True

def Sees (s : System κ) : Prop := ∀ w, SeesOk s.pool (s.worker w)

theorem SeesOk.of_empty {p p' : LegacyThreadPool} {pc : WorkerPc} (h : SeesOk p pc)
    (hempty : p.tasks_ = [] → p'.tasks_ = []) : SeesOk p' pc := by
  cases pc with
  | pause => exact hempty h
  | «return» => exact hempty h
  | _ => trivial

/-- The worker returns, or has returned. -/
def gone : WorkerPc → Bool
  | .return => true
  | .exited => true
  | _ => false

/-- What a step of the worker `w` finds, and what it leaves as it was. -/
structure Look (s t : System κ) (w : Nat) : Prop where
  before : s.worker w ≠ .exited
  workers : t.pool.workers_ = s.pool.workers_
  stop : t.pool.stop_ = s.pool.stop_
  sees : SeesOk t.pool (t.worker w)
  exited : t.worker w = .exited → s.worker w = .return

theorem look_workerStep {w : Nat} (hs : s.workerStep w = some t) : Look s t w := by
  cases hpc : s.worker w with
  | empty =>
    simp only [workerStep, hpc] at hs
    split_ifs at hs with he
    · cases hs
      exact ⟨by simp [hpc], rfl, rfl, by simpa [setWorker, SeesOk] using he, by simp [setWorker]⟩
    · cases hs
      exact ⟨by simp [hpc], rfl, rfl, by simp [setWorker, SeesOk], by simp [setWorker]⟩
  | test_return =>
    simp only [workerStep, hpc] at hs
    split_ifs at hs with he
    · cases hs
      exact ⟨by simp [hpc], rfl, rfl, by simpa [setWorker, SeesOk] using he.2, by simp [setWorker]⟩
    · cases hs
      exact ⟨by simp [hpc], rfl, rfl, by simp [setWorker, SeesOk], by simp [setWorker]⟩
  | pop =>
    simp only [workerStep, hpc] at hs
    split at hs
    all_goals
      cases hs
      exact ⟨by simp [hpc], rfl, rfl, by simp [setWorker, SeesOk], by simp [setWorker]⟩
  | unlock task =>
    cases task
    all_goals
      simp only [workerStep, hpc] at hs
      cases hs
      exact ⟨by simp [hpc], rfl, rfl, by simp [setWorker, SeesOk], by simp [setWorker]⟩
  | «return» =>
    simp only [workerStep, hpc] at hs
    cases hs
    exact ⟨by simp [hpc], rfl, rfl, by simp [setWorker, SeesOk], fun _ => hpc⟩
  | asleep => simp [workerStep, hpc] at hs
  | exited => simp [workerStep, hpc] at hs
  | _ =>
    simp only [workerStep, hpc] at hs
    try split_ifs at hs
    all_goals
      cases hs
      exact ⟨by simp [hpc], rfl, rfl, by simp [setWorker, SeesOk], by simp [setWorker]⟩

/-- A worker that wakes up for no reason. -/
theorem look_spurious {w : Nat} (hpc : s.worker w = .asleep) : Look s (s.setWorker w .lock) w :=
  ⟨by simp [hpc], rfl, rfl, by simp [setWorker, SeesOk], by simp [setWorker]⟩

theorem Sees.workerMove (h : Sees s) {w : Nat} {pc : WorkerPc} (hm : WorkerMove s t w pc)
    (hlook : Look s t w) : Sees t := by
  intro v
  by_cases hv : v = w
  · rw [hv]
    exact hlook.sees
  · rw [hm.other hv]
    exact (h v).of_empty hm.empty

/-- Who returns has seen the queue empty. -/
theorem WorkerMove.empty_of_gone {w : Nat} {pc : WorkerPc} (hm : WorkerMove s t w pc)
    (hlook : Look s t w) (h : Sees s) (hgone : gone pc = true) : t.pool.tasks_ = [] := by
  have hsees := hlook.sees
  have hexited := hlook.exited
  rw [hm.self] at hsees hexited
  cases pc with
  | «return» => exact hsees
  | exited =>
    have hreturn := h w
    rw [hexited rfl] at hreturn
    exact hm.empty hreturn
  | _ => cases hgone

section
variable [DecidableEq κ] {c : κ}

/-- A caller that pushes a task owns the mutex, and no worker is in its section. -/
theorem Sees.callerMove (h : Sees s) (hinv : Inv s) {pc : CallerPc} (hm : CallerMove s t c pc) :
    Sees t := by
  intro w
  have hsame : SeesOk s.pool (t.worker w) := by
    rcases hm.worker w with hw | ⟨-, -, hw⟩
    · rw [hw]
      exact h w
    · rw [hw]
      trivial
  rcases hm.tasks with ⟨htasks, -⟩ | ⟨-, -, -, hinside⟩
  · exact hsame.of_empty (fun he => htasks.trans he)
  · have hout : workerInside (t.worker w) = false := by
      rw [hm.worker_congr workerInside rfl]
      by_contra hin
      rw [Bool.not_eq_false] at hin
      cases hinv.guards.unique (show s.inside (.inl w) from hin)
        (show s.inside (.inr c) from hinside)
    revert hout
    cases t.worker w <;> simp [workerInside, SeesOk]

end

/-! ## Who manages the threads -/

/-- The caller starts threads or joins them. -/
def managing : CallerPc → Bool
  | .resize _ => true
  | .shutdown => true
  | .shutdown_notify_all => true
  | .join => true
  | .clear => true
  | _ => false

/-- The caller is in `Shutdown`. -/
def closing : CallerPc → Bool
  | .shutdown => true
  | .shutdown_notify_all => true
  | .join => true
  | .clear => true
  | _ => false

/-- `Resize` and `Shutdown` change `workers_` without the mutex, and do not overlap each other. -/
def ManagedApart (s : System κ) : Action κ → Prop
  | .call _ call => managing (enter call) = true → ∀ d, managing (s.caller d) = false
  | _ => True

instance [Fintype κ] (s : System κ) : ∀ a, Decidable (ManagedApart s a)
  | .call _ call => inferInstanceAs
      (Decidable (managing (enter call) = true → ∀ d, managing (s.caller d) = false))
  | .worker _ => isTrue trivial
  | .caller _ _ => isTrue trivial
  | .spurious _ => isTrue trivial

/-- The threads that are not in `workers_` have been joined. -/
structure Managed (s : System κ) : Prop where
  apart : ∀ c d, managing (s.caller c) = true → managing (s.caller d) = true → c = d
  joined : ∀ w < s.threads, w ∉ s.pool.workers_ → s.worker w = .exited
  clear : ∀ c, s.caller c = .clear → ∀ w ∈ s.pool.workers_, s.worker w = .exited

theorem managed_start (n : Nat) : Managed (start n : System κ) := by
  refine ⟨?_, ?_, ?_⟩
  · intro c d hc
    cases hc
  · intro w hw hout
    exact absurd (List.mem_range.mpr hw) hout
  · intro c hc
    cases hc

/-- Who has returned takes no step. -/
theorem WorkerMove.exited {w v : Nat} {pc : WorkerPc} (hm : WorkerMove s t w pc)
    (hbefore : s.worker w ≠ .exited) (hv : s.worker v = .exited) : t.worker v = .exited := by
  rw [hm.other]
  · exact hv
  · rintro rfl
    exact hbefore hv

theorem Managed.workerMove (h : Managed s) {w : Nat} {pc : WorkerPc} (hm : WorkerMove s t w pc)
    (hlook : Look s t w) : Managed t := by
  have hcaller : ∀ c p, p ≠ .wait_lock → t.caller c = p → s.caller c = p := by
    intro c p hp hc
    rcases hm.caller c with hsame | ⟨-, hwoken⟩
    · rw [← hsame, hc]
    · exact absurd (hc.symm.trans hwoken) hp
  refine ⟨?_, ?_, ?_⟩
  · intro c d hc hd
    rw [hm.caller_congr managing rfl] at hc hd
    exact h.apart c d hc hd
  · intro v hv hout
    rw [hm.threads] at hv
    rw [hlook.workers] at hout
    exact hm.exited hlook.before (h.joined v hv hout)
  · intro c hc v hv
    rw [hlook.workers] at hv
    exact hm.exited hlook.before (h.clear c (hcaller c _ (by simp) hc) v hv)

section
variable [DecidableEq κ] {c : κ}

/-- What a step of the caller `c` does to the threads of the pool. -/
structure Manage (s t : System κ) (c : κ) : Prop where
  workers : (t.pool.workers_ = s.pool.workers_ ∧ t.threads = s.threads) ∨
    (managing (s.caller c) = true ∧ closing (s.caller c) = false ∧ closing (t.caller c) = false ∧
      t.pool.workers_ = s.pool.workers_ ++ [s.threads] ∧ t.threads = s.threads + 1) ∨
    (s.caller c = .clear ∧ t.pool.workers_ = [] ∧ t.threads = s.threads)
  stop : t.pool.stop_ = s.pool.stop_ ∨ s.caller c = .shutdown
  clear : t.caller c = .clear → ∀ w ∈ s.pool.workers_, s.worker w = .exited
  closing : closing (s.caller c) = true →
    closing (t.caller c) = true ∨ (t.caller c = .idle ∧ t.pool.workers_ = [])

theorem manage_callerStep {woken : Option Nat} (hs : s.callerStep c woken = some t) :
    Manage s t c ∧ (managing (t.caller c) = true →
      managing (s.caller c) = true ∧ closing (t.caller c) = closing (s.caller c)) := by
  cases hpc : s.caller c with
  | enqueue_notify_one task =>
    cases woken with
    | none =>
      simp only [callerStep, hpc] at hs
      split_ifs at hs
      cases hs
      exact ⟨⟨Or.inl ⟨rfl, rfl⟩, Or.inl rfl, by simp [setCaller], by simp [hpc, closing]⟩,
        by simp [setCaller, managing]⟩
    | some w =>
      simp only [callerStep, hpc] at hs
      split_ifs at hs
      cases hs
      exact ⟨⟨Or.inl ⟨rfl, rfl⟩, Or.inl rfl, by simp [setCaller, setWorker],
        by simp [hpc, closing]⟩,
        by simp [setCaller, setWorker, managing]⟩
  | shutdown =>
    simp only [callerStep, hpc] at hs
    cases hs
    exact ⟨⟨Or.inl ⟨rfl, rfl⟩, Or.inr hpc, by simp [setCaller], by simp [setCaller, closing]⟩,
      fun _ => ⟨rfl, by simp [setCaller, closing]⟩⟩
  | join =>
    simp only [callerStep, hpc] at hs
    split_ifs at hs with hexited
    cases hs
    exact ⟨⟨Or.inl ⟨rfl, rfl⟩, Or.inl rfl, fun _ => hexited, by simp [setCaller, closing]⟩,
      fun _ => ⟨rfl, by simp [setCaller, closing]⟩⟩
  | clear =>
    simp only [callerStep, hpc] at hs
    cases hs
    exact ⟨⟨Or.inr (Or.inr ⟨hpc, rfl, rfl⟩), Or.inl rfl, by simp [setCaller], by simp [setCaller]⟩,
      by simp [setCaller, managing]⟩
  | resize n =>
    cases n with
    | zero =>
      simp only [callerStep, hpc] at hs
      cases hs
      exact ⟨⟨Or.inl ⟨rfl, rfl⟩, Or.inl rfl, by simp [setCaller], by simp [hpc, closing]⟩,
        by simp [setCaller, managing]⟩
    | succ n =>
      simp only [callerStep, hpc] at hs
      cases hs
      exact ⟨⟨Or.inr (Or.inl ⟨by rw [hpc]; rfl, by rw [hpc]; rfl, by simp [setCaller, closing],
        rfl, rfl⟩), Or.inl rfl, by simp [setCaller], by simp [hpc, closing]⟩,
        fun _ => ⟨rfl, by simp [setCaller, closing]⟩⟩
  | shutdown_notify_all =>
    simp only [callerStep, hpc] at hs
    cases hs
    exact ⟨⟨Or.inl ⟨rfl, rfl⟩, Or.inl rfl, by simp [setCaller, wakeWorkers],
      by simp [setCaller, wakeWorkers, closing]⟩,
      fun _ => ⟨rfl, by simp [setCaller, wakeWorkers, closing]⟩⟩
  | idle => simp [callerStep, hpc] at hs
  | wait_asleep => simp [callerStep, hpc] at hs
  | _ =>
    simp only [callerStep, hpc] at hs
    try split_ifs at hs
    all_goals
      cases hs
      exact ⟨⟨Or.inl ⟨rfl, rfl⟩, Or.inl rfl, by simp [setCaller, wakeWorkers],
        by simp [hpc, closing]⟩,
        by simp [setCaller, wakeWorkers, managing]⟩

theorem Managed.callerMove (h : Managed s) {pc : CallerPc} (hm : CallerMove s t c pc)
    (hmanage : Manage s t c)
    (hapart : managing pc = true →
      managing (s.caller c) = true ∨ ∀ d, managing (s.caller d) = false) : Managed t := by
  have hexited : ∀ w, s.worker w = .exited → t.worker w = .exited := by
    intro w hw
    rcases hm.worker w with hsame | ⟨-, hasleep, -⟩
    · rw [hsame, hw]
    · rw [hw] at hasleep
      cases hasleep
  -- no other caller manages the threads when this one does
  have hone : ∀ d, d ≠ c → managing (s.caller d) = true → managing pc = false := by
    intro d hd hmanaging
    by_contra hpc
    rw [Bool.not_eq_false] at hpc
    rcases hapart hpc with hbefore | hnone
    · exact hd (h.apart d c hmanaging hbefore)
    · rw [hnone d] at hmanaging
      cases hmanaging
  refine ⟨?_, ?_, ?_⟩
  · intro d e hd he
    by_cases hdc : d = c
    · by_cases hec : e = c
      · rw [hdc, hec]
      · rw [hm.other hec] at he
        rw [hdc, hm.self, hone e hec he] at hd
        cases hd
    · rw [hm.other hdc] at hd
      by_cases hec : e = c
      · rw [hec, hm.self, hone d hdc hd] at he
        cases he
      · rw [hm.other hec] at he
        exact h.apart d e hd he
  · intro w hw hout
    apply hexited w
    rcases hmanage.workers with ⟨hsame, hthreads⟩ | ⟨-, -, -, hadd, hthreads⟩ | ⟨hpc, -, hthreads⟩
    · rw [hthreads] at hw
      rw [hsame] at hout
      exact h.joined w hw hout
    · -- the thread that is started is in `workers_`
      rw [hthreads] at hw
      rw [hadd, List.mem_append, List.mem_singleton, not_or] at hout
      exact h.joined w (by omega) hout.1
    · rw [hthreads] at hw
      by_cases hmem : w ∈ s.pool.workers_
      · exact h.clear c hpc w hmem
      · exact h.joined w hw hmem
  · intro d hd w hw
    apply hexited w
    by_cases hdc : d = c
    · subst hdc
      have hbefore := hmanage.clear hd
      rcases hmanage.workers with ⟨hsame, -⟩ | ⟨-, -, hopen, -⟩ | ⟨-, hempty, -⟩
      · rw [hsame] at hw
        exact hbefore w hw
      · rw [hd] at hopen
        cases hopen
      · rw [hempty] at hw
        cases hw
    · rw [hm.other hdc] at hd
      have hmanaging : managing (s.caller d) = true := by rw [hd]; rfl
      rcases hmanage.workers with ⟨hsame, -⟩ | ⟨hother, -⟩ | ⟨hother, -⟩
      · rw [hsame] at hw
        exact h.clear d hd w hw
      · exact absurd (h.apart d c hmanaging hother) hdc
      · have hclearing : managing (s.caller c) = true := by rw [hother]; rfl
        exact absurd (h.apart d c hmanaging hclearing) hdc

/-- A step is a move of one worker, with what it finds, or of one caller, with what it does to the
threads. -/
theorem exists_manage {a : Action κ} (hinv : Inv s) (hs : s.step a = some t) :
    (∃ w pc, WorkerMove s t w pc ∧ Look s t w) ∨ ∃ c pc, CallerMove s t c pc ∧ Manage s t c ∧
      ((∃ call, a = .call c call ∧ pc = enter call) ∨
        (s.caller c ≠ .idle ∧ (managing pc = true →
          managing (s.caller c) = true ∧ closing pc = closing (s.caller c)))) := by
  cases a with
  | call c call =>
    simp only [step] at hs
    split_ifs at hs with hidle
    cases hs
    refine Or.inr ⟨c, _, callerMove_call hidle call, ⟨Or.inl ⟨rfl, rfl⟩, Or.inl rfl, ?_, ?_⟩,
      Or.inl ⟨call, rfl, rfl⟩⟩
    · cases call <;> simp [setCaller, enter]
    · simp [hidle, closing]
  | worker w =>
    simp only [step] at hs
    split_ifs at hs with hw
    obtain ⟨pc, hm⟩ := exists_workerMove hw hs
    exact Or.inl ⟨w, pc, hm, look_workerStep hs⟩
  | caller c woken =>
    obtain ⟨pc, hm⟩ := exists_callerMove hinv.absent hs
    obtain ⟨hmanage, hmanaging⟩ := manage_callerStep hs
    rw [hm.self] at hmanaging
    refine Or.inr ⟨c, pc, hm, hmanage, Or.inr ⟨?_, hmanaging⟩⟩
    intro hidle
    simp [step, callerStep, hidle] at hs
  | spurious u =>
    cases u with
    | inl w =>
      simp only [step] at hs
      split_ifs at hs with hw
      cases hs
      exact Or.inl ⟨w, _, workerMove_spurious (lt_of_asleep hinv.absent hw) hw, look_spurious hw⟩
    | inr c =>
      simp only [step] at hs
      split_ifs at hs with hc
      cases hs
      refine Or.inr ⟨c, _, callerMove_spurious hc, ⟨Or.inl ⟨rfl, rfl⟩, Or.inl rfl, ?_, ?_⟩, ?_⟩
      · simp [setCaller]
      · simp [hc, closing]
      · exact Or.inr ⟨by simp [hc], by simp [managing]⟩

/-! ## Runs -/

theorem sees_step {a : Action κ} (hinv : Inv s) (h : Sees s) (hs : s.step a = some t) : Sees t := by
  rcases exists_manage hinv hs with ⟨w, pc, hm, hlook⟩ | ⟨c, pc, hm, -⟩
  · exact h.workerMove hm hlook
  · exact h.callerMove hinv hm

/-- What every step keeps while the threads are managed by one caller at a time. -/
structure Orderly (s : System κ) : Prop where
  inv : Inv s
  sees : Sees s
  managed : Managed s

omit [DecidableEq κ] in
theorem orderly_start (n : Nat) : Orderly (start n : System κ) :=
  ⟨inv_start n, fun _ => trivial, managed_start n⟩

theorem orderly_step {a : Action κ} (h : Orderly s) (hok : ManagedApart s a)
    (hs : s.step a = some t) : Orderly t := by
  refine ⟨inv_step a h.inv hs, sees_step h.inv h.sees hs, ?_⟩
  rcases exists_manage h.inv hs with ⟨w, pc, hm, hlook⟩ | ⟨c, pc, hm, hmanage, hcalls⟩
  · exact h.managed.workerMove hm hlook
  · apply h.managed.callerMove hm hmanage
    intro hpc
    rcases hcalls with ⟨call, rfl, rfl⟩ | ⟨-, hbefore⟩
    · exact Or.inr (hok hpc)
    · exact Or.inl (hbefore hpc).1

/-! ## The destructor -/

/-- The action is no call of a caller. -/
def NoCall : Action κ → Prop
  | .call _ _ => False
  | _ => True

instance : ∀ a : Action κ, Decidable (NoCall a)
  | .call _ _ => isFalse id
  | .worker _ => isTrue trivial
  | .caller _ _ => isTrue trivial
  | .spurious _ => isTrue trivial

/-- The caller `c` is in the destructor, or has returned from it, and no other one is in a call. -/
structure Destroying (c : κ) (s : System κ) : Prop where
  others : ∀ d, d ≠ c → s.caller d = .idle
  closing : closing (s.caller c) = true ∨ (s.caller c = .idle ∧ s.pool.workers_ = [])

/-- A caller that takes a step in the destructor is `c`, and it changes neither the queue nor the
number of the threads. -/
theorem Destroying.step_cases (h : Destroying c s) (hinv : Inv s) {a : Action κ} (ha : NoCall a)
    (hs : s.step a = some t) : (∃ w pc, WorkerMove s t w pc ∧ Look s t w) ∨
      ∃ pc, CallerMove s t c pc ∧ Manage s t c ∧ System.closing (s.caller c) = true ∧
        t.pool.tasks_ = s.pool.tasks_ ∧ t.threads = s.threads := by
  rcases exists_manage hinv hs with hworker | ⟨d, pc, hm, hmanage, ⟨call, rfl, -⟩ | ⟨hbusy, -⟩⟩
  · exact Or.inl hworker
  · exact absurd ha id
  · have hdc : d = c := by
      by_contra hne
      exact hbusy (h.others d hne)
    subst hdc
    have hclosing : System.closing (s.caller d) = true :=
      h.closing.resolve_right (fun hidle => hbusy hidle.1)
    refine Or.inr ⟨pc, hm, hmanage, hclosing, ?_, ?_⟩
    · rcases hm.tasks with ⟨hsame, -⟩ | ⟨-, -, -, hinside⟩
      · exact hsame
      · revert hclosing hinside
        cases s.caller d <;> simp [System.closing, callerInside]
    · rcases hmanage.workers with ⟨-, hsame⟩ | ⟨-, hopen, -⟩ | ⟨-, -, hsame⟩
      · exact hsame
      · rw [hclosing] at hopen
        cases hopen
      · exact hsame

theorem Destroying.step (h : Destroying c s) (hinv : Inv s) {a : Action κ} (ha : NoCall a)
    (hs : s.step a = some t) : Destroying c t := by
  rcases h.step_cases hinv ha hs with ⟨w, pc, hm, hlook⟩ | ⟨pc, hm, hmanage, hclosing, -⟩
  · have hidle : ∀ d, s.caller d = .idle → t.caller d = .idle := by
      intro d hd
      rcases hm.caller d with hsame | ⟨hasleep, -⟩
      · rw [hsame, hd]
      · rw [hd] at hasleep
        cases hasleep
    refine ⟨fun d hd => hidle d (h.others d hd), ?_⟩
    rw [hm.caller_congr System.closing rfl, hlook.workers]
    exact h.closing.imp id (fun hc => ⟨hidle c hc.1, hc.2⟩)
  · refine ⟨?_, hmanage.closing hclosing⟩
    intro d hd
    rw [hm.other hd]
    exact h.others d hd

/-- A worker has not returned, and is not about to, or there is nothing left for it to do. -/
def Attended (s : System κ) : Prop :=
  s.pool.tasks_ = [] ∨ ∃ w < s.threads, gone (s.worker w) = false

theorem Attended.step (h : Attended s) (hd : Destroying c s) (hord : Orderly s) {a : Action κ}
    (ha : NoCall a) (hs : s.step a = some t) : Attended t := by
  rcases hd.step_cases hord.inv ha hs with ⟨w, pc, hm, hlook⟩ | ⟨pc, hm, -, -, htasks, hthreads⟩
  · by_cases hgone : gone pc = true
    · exact Or.inl (hm.empty_of_gone hlook hord.sees hgone)
    · refine Or.inr ⟨w, ?_, ?_⟩
      · rw [hm.threads]
        exact hm.live
      · rw [hm.self]
        exact Bool.not_eq_true _ ▸ hgone
  · unfold Attended
    rw [htasks, hthreads]
    apply h.imp id
    rintro ⟨w, hw, hlive⟩
    exact ⟨w, hw, by rw [hm.worker_congr gone rfl, hlive]⟩

/-- All workers have returned, and the tasks `ks` are left. -/
def Deserted (ks : List Nat) (s : System κ) : Prop :=
  s.pool.tasks_ = ks ∧ ∀ w < s.threads, s.worker w = .exited

theorem Deserted.step {ks : List Nat} (h : Deserted ks s) (hd : Destroying c s) (hinv : Inv s)
    {a : Action κ} (ha : NoCall a) (hs : s.step a = some t) : Deserted ks t := by
  rcases hd.step_cases hinv ha hs with ⟨w, pc, hm, hlook⟩ | ⟨pc, hm, -, -, htasks, hthreads⟩
  · exact absurd (h.2 w hm.live) hlook.before
  · refine ⟨htasks.trans h.1, ?_⟩
    intro w hw
    rw [hthreads] at hw
    rcases hm.worker w with hsame | ⟨-, hasleep, -⟩
    · rw [hsame, h.2 w hw]
    · rw [h.2 w hw] at hasleep
      cases hasleep

omit [DecidableEq κ] in
/-- When all threads have been joined, every task that is not in the queue has been run once. -/
theorem Inv.finished_of_exited (h : Inv s) (hexited : ∀ w < s.threads, s.worker w = .exited)
    (hempty : s.pool.tasks_ = []) {k : Nat} (hk : k < s.accepted) : s.finished.count k = 1 := by
  apply List.count_eq_one_of_mem (h.apart.nodup .finished)
  by_contra hout
  obtain ⟨w, hw, hheld⟩ := h.with_worker hk hempty hout
  rw [hexited w hw] at hheld
  cases hheld

omit [DecidableEq κ] in
theorem Orderly.exited_of_destroyed (h : Orderly s) (hd : Destroying c s)
    (hidle : s.caller c = .idle) : ∀ w < s.threads, s.worker w = .exited := by
  intro w hw
  apply h.managed.joined w hw
  rcases hd.closing with hclosing | ⟨-, hempty⟩
  · rw [hidle] at hclosing
    cases hclosing
  · rw [hempty]
    exact List.not_mem_nil

/-- Before the destructor no call is running. Its `Shutdown` is the last call. -/
theorem destroying_call (hidle : ∀ d, s.caller d = .idle)
    (hs : s.step (.call c .Shutdown) = some t) :
    ManagedApart s (.call c .Shutdown) ∧ Destroying c t := by
  refine ⟨fun _ d => by rw [hidle d]; rfl, ?_⟩
  simp only [step, if_pos (hidle c)] at hs
  cases hs
  refine ⟨?_, Or.inl ?_⟩
  · intro d hd
    exact (Function.update_of_ne hd ..).trans (hidle d)
  · simp [setCaller, enter, closing]

omit [DecidableEq κ] in
/-- A worker that is about to return has left nothing behind. -/
theorem Orderly.attended (h : Orderly s)
    (hleft : s.pool.tasks_ = [] ∨ ∃ w < s.threads, s.worker w ≠ .exited) : Attended s := by
  rcases hleft with hempty | ⟨w, hw, hlive⟩
  · exact Or.inl hempty
  · have hsees := h.sees w
    cases hpc : s.worker w with
    | «return» =>
      rw [hpc] at hsees
      exact Or.inl hsees
    | exited => exact absurd hpc hlive
    | _ => exact Or.inr ⟨w, hw, by rw [hpc]; rfl⟩

/-- What each step in the destructor keeps, the destructor keeps. -/
theorem invariant_of_destroying {I : System κ → Prop}
    (hstep : ∀ s a t, Orderly s → Destroying c s → NoCall a → I s → s.step a = some t → I t)
    {bs : List (Action κ)} (hcalls : ∀ a ∈ bs, NoCall a) (hord : Orderly s) (hd : Destroying c s)
    (hI : I s) (hr : run System.step s bs = some t) : Orderly t ∧ Destroying c t ∧ I t := by
  apply invariant_of_meets (I := fun u => Orderly u ∧ Destroying c u ∧ I u) ?_ ⟨hord, hd, hI⟩
    (meets_of_forall hcalls s) hr
  intro u a v h ha hs
  refine ⟨orderly_step h.1 ?_ hs, h.2.1.step h.1.inv ha hs, hstep u a v h.1 h.2.1 ha h.2.2 hs⟩
  cases a with
  | call d call => exact absurd ha id
  | _ => trivial

/-- A pool that is destroyed, after calls in any order by any number of callers, of which those that
change the threads do not overlap each other: when the destructor has returned, every accepted task
has been run exactly once if and only if, when it was called, the queue was empty or a worker had
not returned. -/
theorem tasks_are_run_when_the_destructor_returns_iff {n : Nat} {as bs : List (Action κ)}
    (hm : Meets step ManagedApart (start n) as) (hs : run step (start n) as = some s)
    (hidle : ∀ d, s.caller d = .idle) (hcalls : ∀ a ∈ bs, NoCall a)
    (ht : run step s (.call c .Shutdown :: bs) = some t) (hreturned : t.caller c = .idle) :
    (∀ k < t.accepted, t.finished.count k = 1) ↔
      s.pool.tasks_ = [] ∨ ∃ w < s.threads, s.worker w ≠ .exited := by
  have hord : Orderly s := invariant_of_meets (I := Orderly)
    (fun _ _ _ h hok hstep => orderly_step h hok hstep) (orderly_start n) hm hs
  obtain ⟨u, hu, hut⟩ := (run_cons ..).mp ht
  obtain ⟨hok, hdu⟩ := destroying_call hidle hu
  have hordu : Orderly u := orderly_step hord hok hu
  have hsame : u.pool = s.pool ∧ u.worker = s.worker ∧ u.threads = s.threads := by
    simp only [step, if_pos (hidle c)] at hu
    cases hu
    exact ⟨rfl, rfl, rfl⟩
  obtain ⟨hpool, hworker, hthreads⟩ := hsame
  constructor
  · intro hrun
    by_contra hleft
    push Not at hleft
    obtain ⟨htasks, hgone⟩ := hleft
    have hdesert : Deserted s.pool.tasks_ u := by
      unfold Deserted
      rw [hpool, hworker, hthreads]
      exact ⟨rfl, hgone⟩
    obtain ⟨hordt, -, hleft, -⟩ := invariant_of_destroying
      (fun _ _ _ h hd ha hdesert hs => Deserted.step hdesert hd h.inv ha hs) hcalls hordu hdu
      hdesert hut
    -- a task that is left is in the queue, and nowhere else
    obtain ⟨k, hk⟩ := List.exists_mem_of_ne_nil _ htasks
    have hqueue : k ∈ t.places .queue := by
      change k ∈ t.pool.tasks_
      rw [hleft]
      exact hk
    have hfinished : k ∈ t.places .finished := by
      have hcount := hrun k ((hordt.inv.accepted k).mpr ⟨_, hqueue⟩)
      exact List.count_pos_iff.mp (Nat.lt_of_lt_of_eq Nat.one_pos hcount.symm)
    cases hordt.inv.apart.unique hqueue hfinished
  · intro hleft k hk
    have hattended : Attended u := by
      unfold Attended
      rw [hpool, hworker, hthreads]
      exact hord.attended hleft
    obtain ⟨hordt, hdt, hempty⟩ := invariant_of_destroying
      (fun _ _ _ h hd ha hattended hs => Attended.step hattended hd h ha hs) hcalls hordu hdu
      hattended hut
    have hexited := hordt.exited_of_destroyed hdt hreturned
    apply hordt.inv.finished_of_exited hexited ?_ hk
    apply hempty.resolve_right
    rintro ⟨w, hw, hlive⟩
    rw [hexited w hw] at hlive
    cases hlive

/-! ## One worker -/

/-- A task is queued before the destructor is called. -/
def queuedRun : List (Action Unit) := [.call () .Enqueue] ++ callerSteps () 5

/-- The worker runs the task, finds `stop_` set, and returns. -/
def drainedRun : List (Action Unit) :=
  callerSteps () 2 ++ workerSteps 0 15 ++ callerSteps () 2

theorem one_task_is_run_before_the_destructor_returns : ∃ s t : System Unit,
    run step (start 1) queuedRun = some s ∧ run step s (.call () .Shutdown :: drainedRun) = some t ∧
      t.accepted = 1 ∧ t.finished.count 0 = 1 := by
  obtain ⟨s, hs, hidle, hthreads, hlive, hrest⟩ : ∃ s : System Unit,
      run step (start 1) queuedRun = some s ∧ s.caller () = .idle ∧ s.threads = 1 ∧
        s.worker 0 = .lock ∧ ((run step s (.call () .Shutdown :: drainedRun)).any
          (fun t => decide (t.accepted = 1 ∧ t.caller () = .idle))) = true :=
    exists_of_any (by decide +kernel)
  obtain ⟨t, ht, haccepted, hreturned⟩ := exists_of_any hrest
  have hiff := tasks_are_run_when_the_destructor_returns_iff (by decide +kernel) hs (fun _ => hidle)
    (by decide) ht hreturned
  exact ⟨s, t, hs, ht, haccepted, hiff.mpr (Or.inr ⟨0, by omega, by simp [hlive]⟩) 0 (by omega)⟩

/-- A task that is queued after a `Shutdown` has returned. -/
def shutDownRun : List (Action Unit) :=
  [.call () .Shutdown] ++ callerSteps () 2 ++ workerSteps 0 4 ++ callerSteps () 2 ++
    [.call () .Enqueue] ++ callerSteps () 5

theorem a_task_is_left_when_the_destructor_returns : ∃ s t : System Unit,
    run step (start 1) shutDownRun = some s ∧ Meets step ManagedApart (start 1) shutDownRun ∧
      s.caller () = .idle ∧ s.enqueued = [0] ∧
      run step s (.call () .Shutdown :: callerSteps () 4) = some t ∧ t.caller () = .idle ∧
      t.accepted = 1 ∧ t.finished.count 0 = 0 := by
  obtain ⟨s, hs, hidle, henqueued, hrest⟩ : ∃ s : System Unit,
      run step (start 1) shutDownRun = some s ∧ s.caller () = .idle ∧ s.enqueued = [0] ∧
        ((run step s (.call () .Shutdown :: callerSteps () 4)).any (fun t =>
          decide (t.caller () = .idle ∧ t.accepted = 1 ∧ t.finished.count 0 = 0))) = true :=
    exists_of_any (by decide +kernel)
  obtain ⟨t, ht, hreturned, haccepted, hcount⟩ := exists_of_any hrest
  exact ⟨s, t, hs, by decide +kernel, hidle, henqueued, ht, hreturned, haccepted, hcount⟩

end

end System

end LegacyThreadPool

end bridges

end sci
