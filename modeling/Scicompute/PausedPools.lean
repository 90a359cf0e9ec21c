-- What a pause of the two pools holds back. A worker of a `ThreadPool` looks at `pause_`
-- before it looks at the queue, and a task that is enqueued after the pause waits for a
-- resume. To a worker of a `LegacyThreadPool` the pause is one more reason to wake up: it
-- takes a task whenever there is one.
import Scicompute.LegacyThreadPoolProgress
import Scicompute.ThreadPoolCompletion

open Transition Monitor Holding

namespace sci

namespace ThreadPoolSystem

variable {κ : Type*} {s t : ThreadPoolSystem κ} {k : Nat}

/-! ## A worker of a `ThreadPool` takes a task -/

/-- The worker has looked at `pause_`, and may take a task before it looks again. -/
def looking : WorkerPc → Bool
  | .empty => true
  | .test_return => true
  | .test_continue => true
  | .pop => true
  | _ => false

theorem inside_of_looking {pc : WorkerPc} (h : looking pc = true) : workerInside pc = true := by
  revert h
  cases pc <;> simp [looking, workerInside]

/-- What a step of the worker `w` does to the tasks. -/
structure Take (s t : ThreadPoolSystem κ) (w : Nat) : Prop where
  looking : looking (t.worker w) = true →
    looking (s.worker w) = true ∨ s.pool.stop_ = true ∨ s.pool.pause_ = false
  tasks : ∀ k ∈ t.pool.tasks_, k ∈ s.pool.tasks_
  held : ∀ k, inFlight (t.worker w) = some k → inFlight (s.worker w) = some k ∨
    (ThreadPoolSystem.looking (s.worker w) = true ∧ k ∈ s.pool.tasks_)
  finished : ∀ k ∈ t.finished, k ∈ s.finished ∨ inFlight (s.worker w) = some k

theorem take_workerStep {w : Nat} (hs : s.workerStep w = some t) : Take s t w := by
  cases hpc : s.worker w with
  | stop =>
    simp only [workerStep, hpc] at hs
    split_ifs at hs with hstop
    · cases hs
      exact ⟨fun _ => Or.inr (Or.inl hstop), fun _ => id, by simp [setWorker, inFlight],
        fun _ => Or.inl⟩
    · cases hs
      exact ⟨by simp [setWorker, looking], fun _ => id, by simp [setWorker, inFlight],
        fun _ => Or.inl⟩
  | pause =>
    simp only [workerStep, hpc] at hs
    split_ifs at hs with hpause
    · cases hs
      exact ⟨by simp [setWorker, looking], fun _ => id, by simp [setWorker, inFlight],
        fun _ => Or.inl⟩
    · cases hs
      exact ⟨fun _ => Or.inr (Or.inr (by simpa using hpause)), fun _ => id,
        by simp [setWorker, inFlight], fun _ => Or.inl⟩
  | pop =>
    simp only [workerStep, hpc] at hs
    split at hs
    · cases hs
    · rename_i task tasks htasks
      cases hs
      refine ⟨by simp [setWorker, looking], ?_, ?_, fun _ => Or.inl⟩
      · intro k hk
        rw [htasks]
        exact List.mem_cons_of_mem _ hk
      · intro k hk
        rw [setWorker] at hk
        simp only [Function.update_self, inFlight, Option.some.injEq] at hk
        refine Or.inr ⟨by rw [hpc]; rfl, ?_⟩
        rw [htasks, hk]
        exact List.mem_cons_self ..
  | run task =>
    simp only [workerStep, hpc] at hs
    cases hs
    refine ⟨by simp [setWorker, looking], fun _ => id, by simp [setWorker, inFlight], ?_⟩
    intro k hk
    rcases List.mem_cons.mp hk with rfl | hk
    · exact Or.inr (by rw [hpc]; rfl)
    · exact Or.inl hk
  | asleep => simp [workerStep, hpc] at hs
  | exited => simp [workerStep, hpc] at hs
  | _ =>
    simp only [workerStep, hpc] at hs
    try split_ifs at hs
    all_goals
      cases hs
      exact ⟨by simp [setWorker, hpc, looking], fun _ => id, by simp [setWorker, hpc, inFlight],
        fun _ => Or.inl⟩

/-- The task is not run, and no worker that has looked at `pause_` can take it. -/
structure Untouched (k : Nat) (s : ThreadPoolSystem κ) : Prop where
  looking : ∀ w, looking (s.worker w) = true → k ∉ s.pool.tasks_
  held : ∀ w, inFlight (s.worker w) ≠ some k
  finished : k ∉ s.finished

/-- A task that is not yet accepted is nowhere. -/
theorem Inv.untouched (h : Inv s) (hk : s.accepted ≤ k) : Untouched k s := by
  have hnowhere : ∀ p, k ∉ s.places p := by
    intro p hp
    exact absurd ((h.accepted k).mpr ⟨p, hp⟩) (Nat.not_lt.mpr hk)
  refine ⟨fun _ _ => hnowhere .queue, ?_, hnowhere .finished⟩
  intro w hw
  exact hnowhere (.worker w) (Option.mem_toList.mpr hw)

theorem Untouched.workerMove (h : Untouched k s) {w : Nat} {pc : WorkerPc}
    (hm : WorkerMove s t w pc) (htake : Take s t w) (hstop : s.pool.stop_ = false)
    (hpause : s.pool.pause_ = true) : Untouched k t := by
  refine ⟨?_, ?_, ?_⟩
  · intro v hv hk
    by_cases hvw : v = w
    · rw [hvw] at hv
      rcases htake.looking hv with hbefore | hstopped | hresumed
      · exact h.looking w hbefore (htake.tasks k hk)
      · rw [hstop] at hstopped
        cases hstopped
      · rw [hpause] at hresumed
        cases hresumed
    · rw [hm.other hvw] at hv
      exact h.looking v hv (htake.tasks k hk)
  · intro v hv
    by_cases hvw : v = w
    · rw [hvw] at hv
      rcases htake.held k hv with hbefore | ⟨hlooking, hk⟩
      · exact h.held w hbefore
      · exact h.looking w hlooking hk
    · rw [hm.other hvw] at hv
      exact h.held v hv
  · intro hk
    rcases htake.finished k hk with hbefore | hheld
    · exact h.finished hbefore
    · exact h.held w hheld

section
variable [DecidableEq κ] {c : κ}

/-- A caller that pushes a task owns the mutex, and no worker is looking. -/
theorem Untouched.callerMove (h : Untouched k s) (hinv : Inv s) {pc : CallerPc}
    (hm : CallerMove s t c pc) (hwait : WaitMove s t c) : Untouched k t := by
  refine ⟨?_, ?_, ?_⟩
  · intro w hw
    rw [hm.worker_congr ThreadPoolSystem.looking rfl] at hw
    have htasks : t.pool.tasks_ = s.pool.tasks_ := by
      apply hwait.tasks.resolve_right
      intro hpush
      have hin : s.inside (.inr c) := by simp [inside, hpush, callerInside]
      cases hinv.guards.unique (show s.inside (.inl w) from inside_of_looking hw) hin
    rw [htasks]
    exact h.looking w hw
  · intro w
    rw [hm.worker_congr inFlight rfl]
    exact h.held w
  · rw [hwait.finished]
    exact h.finished

/-! ## The pause of a `ThreadPool` -/

/-- What a step of the caller `c` does to the flags. -/
structure Store (s t : ThreadPoolSystem κ) (c : κ) : Prop where
  stop : t.pool.stop_ = s.pool.stop_ ∨ s.caller c = .shutdown
  pause : s.pool.pause_ = true → t.pool.pause_ = true ∨ s.caller c = .resume
  shutdown : t.caller c ≠ .shutdown

theorem store_callerStep {woken : Option Nat} (hs : s.callerStep c woken = some t) :
    Store s t c := by
  cases hpc : s.caller c with
  | enqueue_notify_one =>
    cases woken with
    | none =>
      simp only [callerStep, hpc] at hs
      split_ifs at hs
      cases hs
      exact ⟨Or.inl rfl, Or.inl, by simp [setCaller]⟩
    | some w =>
      simp only [callerStep, hpc] at hs
      split_ifs at hs
      cases hs
      exact ⟨Or.inl rfl, Or.inl, by simp [setCaller, setWorker]⟩
  | pause =>
    simp only [callerStep, hpc] at hs
    cases hs
    exact ⟨Or.inl rfl, fun _ => Or.inl rfl, by simp [setCaller]⟩
  | resume =>
    simp only [callerStep, hpc] at hs
    cases hs
    exact ⟨Or.inl rfl, fun _ => Or.inr hpc, by simp [setCaller]⟩
  | shutdown =>
    simp only [callerStep, hpc] at hs
    cases hs
    exact ⟨Or.inr hpc, Or.inl, by simp [setCaller]⟩
  | idle => simp [callerStep, hpc] at hs
  | wait_asleep => simp [callerStep, hpc] at hs
  | joined => simp [callerStep, hpc] at hs
  | _ =>
    simp only [callerStep, hpc] at hs
    try split_ifs at hs
    all_goals
      cases hs
      exact ⟨Or.inl rfl, Or.inl, by simp [setCaller, wakeWorkers, hpc]⟩

/-- No `shutdown` has begun. -/
structure Unstopped (s : ThreadPoolSystem κ) : Prop where
  stop : s.pool.stop_ = false
  shutdown : ∀ c, s.caller c ≠ .shutdown

omit [DecidableEq κ] in
theorem unstopped_start (n : Nat) : Unstopped (start n : ThreadPoolSystem κ) :=
  ⟨rfl, fun _ => by simp [start]⟩

theorem unstopped_setCaller (h : Unstopped s) {pc : CallerPc} (hpc : pc ≠ .shutdown) :
    Unstopped (s.setCaller c pc) := by
  refine ⟨h.stop, ?_⟩
  intro d
  by_cases hdc : d = c
  · rw [hdc, setCaller_self]
    exact hpc
  · rw [setCaller_of_ne hdc]
    exact h.shutdown d

theorem unstopped_step {a : ThreadPoolAction κ} (h : Unstopped s) (ha : ∀ d, a ≠ .call d .shutdown)
    (hs : s.step a = some t) : Unstopped t := by
  cases a with
  | call c call =>
    simp only [step] at hs
    split_ifs at hs
    cases hs
    apply unstopped_setCaller h
    cases call with
    | shutdown => exact absurd rfl (ha c)
    | _ => simp [enter]
  | worker w =>
    simp only [step] at hs
    split_ifs at hs with hw
    obtain ⟨pc, hm⟩ := exists_workerMove hw hs
    refine ⟨hm.stop.trans h.stop, ?_⟩
    intro c hc
    rcases hm.caller with ⟨-, hcaller⟩ | ⟨-, hcaller⟩
    · rw [hcaller] at hc
      exact h.shutdown c hc
    · rw [hcaller] at hc
      exact h.shutdown c ((wakeAll_eq_iff (by simp) (by simp)).mp hc)
  | caller c woken =>
    obtain ⟨pc, hm⟩ := exists_callerMove hs
    have hstore := store_callerStep hs
    refine ⟨(hstore.stop.resolve_right (h.shutdown c)).trans h.stop, ?_⟩
    intro d hd
    by_cases hdc : d = c
    · rw [hdc] at hd
      exact hstore.shutdown hd
    · rw [hm.other hdc] at hd
      exact h.shutdown d hd
  | spurious u =>
    cases u with
    | inl w =>
      simp only [step] at hs
      split_ifs at hs
      cases hs
      exact ⟨h.stop, h.shutdown⟩
    | inr c =>
      simp only [step] at hs
      split_ifs at hs
      cases hs
      exact unstopped_setCaller h (by simp)

/-- No caller of `resume` clears `pause_`. -/
def NotResumed (s : ThreadPoolSystem κ) : ThreadPoolAction κ → Prop
  | .caller c _ => s.caller c ≠ .resume
  | _ => True

instance (s : ThreadPoolSystem κ) : ∀ a, Decidable (NotResumed s a)
  | .caller c _ => inferInstanceAs (Decidable (s.caller c ≠ .resume))
  | .call _ _ => isTrue trivial
  | .worker _ => isTrue trivial
  | .spurious _ => isTrue trivial

/-- What every step keeps between a pause and the first resume or shutdown after it. -/
structure Paused (k : Nat) (s : ThreadPoolSystem κ) : Prop where
  inv : Inv s
  unstopped : Unstopped s
  pause : s.pool.pause_ = true
  untouched : Untouched k s

theorem paused_step {a : ThreadPoolAction κ} (h : Paused k s) (ha : ∀ d, a ≠ .call d .shutdown)
    (hok : NotResumed s a) (hs : s.step a = some t) : Paused k t := by
  have hinv := inv_step a h.inv hs
  have hunstopped := unstopped_step h.unstopped ha hs
  obtain ⟨hlooking, hheld, hfinished⟩ := h.untouched
  cases a with
  | call c call =>
    simp only [step] at hs
    split_ifs at hs
    cases hs
    exact ⟨hinv, hunstopped, h.pause, hlooking, hheld, hfinished⟩
  | worker w =>
    simp only [step] at hs
    split_ifs at hs with hw
    obtain ⟨pc, hm⟩ := exists_workerMove hw hs
    exact ⟨hinv, hunstopped, hm.pause.trans h.pause,
      h.untouched.workerMove hm (take_workerStep hs) h.unstopped.stop h.pause⟩
  | caller c woken =>
    obtain ⟨pc, hm⟩ := exists_callerMove hs
    exact ⟨hinv, hunstopped, ((store_callerStep hs).pause h.pause).resolve_right hok,
      h.untouched.callerMove h.inv hm (waitMove hs)⟩
  | spurious u =>
    cases u with
    | inl w =>
      simp only [step] at hs
      split_ifs at hs with hasleep
      cases hs
      refine ⟨hinv, hunstopped, h.pause, ?_, ?_, hfinished⟩
      · intro v hv
        by_cases hvw : v = w
        · rw [hvw, setWorker_self] at hv
          cases hv
        · rw [setWorker_of_ne hvw] at hv
          exact hlooking v hv
      · intro v hv
        by_cases hvw : v = w
        · rw [hvw, setWorker_self] at hv
          cases hv
        · rw [setWorker_of_ne hvw] at hv
          exact hheld v hv
    | inr c =>
      simp only [step] at hs
      split_ifs at hs
      cases hs
      exact ⟨hinv, hunstopped, h.pause, hlooking, hheld, hfinished⟩

/-- A pause returns in the state `p` of a pool that is not shut down, and no resume and no shutdown
begins after it. -/
structure PausedRun (n : Nat) (p : ThreadPoolSystem κ) (bs : List (ThreadPoolAction κ))
    (t : ThreadPoolSystem κ) : Prop where
  pause : ∃ as s c woken, run step (start n) as = some s ∧ (∀ d, .call d .shutdown ∉ as) ∧
    s.caller c = .pause ∧ s.step (.caller c woken) = some p
  resume : ∀ d, .call d .resume ∉ bs
  shutdown : ∀ d, .call d .shutdown ∉ bs
  run : run step p bs = some t

/-- The run of the task has begun. -/
def Started (s : ThreadPoolSystem κ) (task : Nat) : Prop :=
  task ∈ s.finished ∨ ∃ w, s.worker w = .run task

theorem PausedRun.paused {n : Nat} {p : ThreadPoolSystem κ} {bs : List (ThreadPoolAction κ)}
    (h : PausedRun n p bs t) (hk : p.accepted ≤ k) : Paused k p := by
  obtain ⟨as, s, c, woken, hs, has, hpc, hp⟩ := h.pause
  have hcalls : Meets step (fun _ a => ∀ d, a ≠ .call d .shutdown) (start n) as :=
    meets_of_not_mem has (start n)
  have hstopped : Unstopped s := invariant_of_meets (I := Unstopped)
    (fun _ _ _ h ha hs => unstopped_step h ha hs) (unstopped_start n) hcalls hs
  have hinv : Inv p := inv_step _ (inv_of_run hs) hp
  refine ⟨hinv, unstopped_step hstopped (by simp) hp, ?_, hinv.untouched hk⟩
  simp only [step, callerStep, hpc] at hp
  cases hp
  rfl

/-- A resume that began before the pause, and clears `pause_` after it, is the only way out. -/
theorem PausedRun.not_started {n : Nat} {p : ThreadPoolSystem κ} {bs : List (ThreadPoolAction κ)}
    (h : PausedRun n p bs t) (hm : Meets step NotResumed p bs) (hk : p.accepted ≤ k) :
    ¬ t.Started k := by
  have hcalls : Meets step (fun _ a => ∀ d, a ≠ .call d .shutdown) p bs :=
    meets_of_not_mem h.shutdown p
  have hpaused : Paused k t := invariant_of_meets (I := Paused k)
    (fun _ _ _ h hok hs => paused_step h hok.2 hok.1 hs) (h.paused hk) (hm.and hcalls) h.run
  rintro (hfinished | ⟨w, hw⟩)
  · exact hpaused.untouched.finished hfinished
  · exact hpaused.untouched.held w (by rw [hw]; rfl)

/-- A run with a pause in it, by evaluation. -/
theorem exists_pausedRun {n : Nat} (as : List (ThreadPoolAction κ)) (c : κ)
    {bs : List (ThreadPoolAction κ)}
    {P : ThreadPoolSystem κ → ThreadPoolSystem κ → Prop} [∀ p t, Decidable (P p t)]
    (h : (run step (start n) as).any (fun s => decide (s.caller c = .pause ∧
      (s.step (.caller c none)).any (fun p => (run step p bs).any
        (fun t => decide (P p t))) = true)) = true)
    (has : ∀ d, .call d .shutdown ∉ as)
    (hbs : (∀ d, .call d .resume ∉ bs) ∧ ∀ d, .call d .shutdown ∉ bs) :
    ∃ p t, PausedRun n p bs t ∧ P p t := by
  obtain ⟨s, hs, hpc, hp⟩ := exists_of_any h
  obtain ⟨p, hp, hrest⟩ := (Option.any_eq_true ..).mp hp
  obtain ⟨t, ht, hP⟩ := exists_of_any hrest
  exact ⟨p, t, ⟨⟨as, s, c, none, hs, has, hpc, hp⟩, hbs.1, hbs.2, ht⟩, hP⟩

end

end ThreadPoolSystem

/-! ## The pause of a `LegacyThreadPool` -/

namespace bridges

namespace LegacyThreadPool

namespace System

variable {κ : Type*} [DecidableEq κ] {n k : Nat} {p t u : System κ} {bs cs : List (Action κ)}

/-- A pause returns in the state `p` of a pool that is not shut down, and no resume and no shutdown
begins after it. -/
structure PausedRun (n : Nat) (p : System κ) (bs : List (Action κ)) (t : System κ) : Prop where
  pause : ∃ as s c woken, run step (start n) as = some s ∧ (∀ d, .call d .Shutdown ∉ as) ∧
    s.caller c = .pause ∧ s.step (.caller c woken) = some p
  resume : ∀ d, .call d .Resume ∉ bs
  shutdown : ∀ d, .call d .Shutdown ∉ bs
  run : run step p bs = some t

/-- The run of the task has begun. -/
def Started (s : System κ) (task : Nat) : Prop :=
  task ∈ s.finished ∨ ∃ w, s.worker w = .run task

theorem PausedRun.append (h : PausedRun n p bs t) (hcalm : ∀ a ∈ cs, Calm a)
    (hr : Transition.run step t cs = some u) : PausedRun n p (bs ++ cs) u where
  pause := h.pause
  resume := by
    intro d hd
    rcases List.mem_append.mp hd with hd | hd
    · exact h.resume d hd
    · exact (hcalm _ hd d).1 rfl
  shutdown := by
    intro d hd
    rcases List.mem_append.mp hd with hd | hd
    · exact h.shutdown d hd
    · exact (hcalm _ hd d).2 rfl
  run := run_append h.run hr

theorem PausedRun.running (h : PausedRun n p bs t) : Running t := by
  obtain ⟨as, s, c, woken, hs, has, -, hp⟩ := h.pause
  have hrunning : Running s := running_run (running_start n) has hs
  exact running_run (running_step hrunning (by simp) hp) h.shutdown h.run

/-- A task that is not yet started is started in a continuation of the run. -/
theorem PausedRun.exists_started (h : PausedRun n p bs t) (hlive : 0 < t.threads)
    (hk : k < t.accepted) : ∃ cs u, PausedRun n p (bs ++ cs) u ∧
      u.pool.pause_ = t.pool.pause_ ∧ u.Started k := by
  by_cases hfinished : k ∈ t.finished
  · exact ⟨[], t, h.append (by simp) rfl, rfl, Or.inl hfinished⟩
  · obtain ⟨cs, u, hcs, hu, hpause, hrun⟩ := h.running.exists_run hlive hk hfinished
    exact ⟨cs, u, h.append (fun a ha => (hcs a ha).calm) hu, hpause, Or.inr hrun⟩

/-- A pool that has just been paused accepts a new task, and starts it. -/
theorem PausedRun.exists_new_started (h : PausedRun n p [] p) : ∃ bs t k, PausedRun n p bs t ∧
    t.pool.pause_ = true ∧ p.accepted ≤ k ∧ t.Started k := by
  obtain ⟨as, s, c, woken, hs, -, hpc, hp⟩ := h.pause
  have hpaused : p.pool.pause_ = true ∧ p.caller c = .idle := by
    simp only [step, callerStep, hpc] at hp
    cases hp
    exact ⟨rfl, Function.update_self ..⟩
  obtain ⟨bs, t, k, hbs, ht, -, hpause, hlive, hnew, hk, -⟩ :=
    h.running.exists_accepted hpaused.2
  obtain ⟨cs, u, hu, hpause', hstarted⟩ := (h.append hbs ht).exists_started hlive hk
  exact ⟨_, u, k, hu, by rw [hpause', hpause, hpaused.1], hnew, hstarted⟩

/-- A run with a pause in it, by evaluation. -/
theorem exists_pausedRun (as : List (Action κ)) (c : κ) {P : System κ → System κ → Prop}
    [∀ p t, Decidable (P p t)]
    (h : (Transition.run step (start n) as).any (fun s => decide (s.caller c = .pause ∧
      (s.step (.caller c none)).any (fun p => (Transition.run step p bs).any
        (fun t => decide (P p t))) = true)) = true)
    (has : ∀ d, .call d .Shutdown ∉ as)
    (hbs : (∀ d, .call d .Resume ∉ bs) ∧ ∀ d, .call d .Shutdown ∉ bs) :
    ∃ p t, PausedRun n p bs t ∧ P p t := by
  obtain ⟨s, hs, hpc, hp⟩ := exists_of_any h
  obtain ⟨p, hp, hrest⟩ := (Option.any_eq_true ..).mp hp
  obtain ⟨t, ht, hP⟩ := exists_of_any hrest
  exact ⟨p, t, ⟨⟨as, s, c, none, hs, has, hpc, hp⟩, hbs.1, hbs.2, ht⟩, hP⟩

end System

end LegacyThreadPool

end bridges

/-! ## Both pools -/

open bridges.LegacyThreadPool (System)

/-- A task that is enqueued after a pause has returned gets a number from `accepted` on. With any
number of workers and callers, such a task is not started in a `ThreadPool` before a resume or a
shutdown begins, if no resume that began before the pause clears `pause_`. No `LegacyThreadPool`
holds one back: after every pause one is accepted and started in some run, and in every run after
the pause each of them can be started next. -/
theorem only_a_ThreadPool_holds_new_tasks_back {κ : Type*} [DecidableEq κ] :
    (∀ (n : Nat) (bs : List (ThreadPoolAction κ)) (p t : ThreadPoolSystem κ),
      ThreadPoolSystem.PausedRun n p bs t →
      Meets ThreadPoolSystem.step ThreadPoolSystem.NotResumed p bs →
      ∀ k, p.accepted ≤ k → ¬ t.Started k) ∧
    (∀ (n : Nat) (p : System κ), System.PausedRun n p [] p →
      ∃ bs t k, System.PausedRun n p bs t ∧ t.pool.pause_ = true ∧ p.accepted ≤ k ∧ t.Started k) ∧
    ∀ (n : Nat) (bs : List (bridges.LegacyThreadPool.Action κ)) (p t : System κ),
      System.PausedRun n p bs t → 0 < t.threads → ∀ k, p.accepted ≤ k → k < t.accepted →
      ∃ cs u, System.PausedRun n p (bs ++ cs) u ∧ u.pool.pause_ = t.pool.pause_ ∧ u.Started k := by
  refine ⟨?_, ?_, ?_⟩
  · intro n bs p t h hm k hk
    exact h.not_started hm hk
  · intro n p h
    exact h.exists_new_started
  · intro n bs p t h hlive k _ hk
    exact h.exists_started hlive hk

/-- The worker finds the pool paused, and sleeps. -/
def sleepingRun : List (ThreadPoolAction Unit) :=
  [.call () .enqueue] ++ ThreadPoolSystem.callerSteps () 6 ++ ThreadPoolSystem.workerSteps 0 4

/-- The task is in the queue, and the worker has not begun. -/
def queuedRun : List (bridges.LegacyThreadPool.Action Unit) :=
  [.call () .Enqueue] ++ System.callerSteps () 5

theorem one_task_is_held_back :
    (∃ p t : ThreadPoolSystem Unit, ThreadPoolSystem.PausedRun 1 p sleepingRun t ∧
      t.pool.tasks_ = [0] ∧ ¬ t.Started 0) ∧
    (∃ p t : System Unit, ∃ k bs, System.PausedRun 1 p bs t ∧ p.accepted = 0 ∧
      t.pool.pause_ = true ∧ t.Started k) ∧
    ∃ p u : System Unit, ∃ cs, System.PausedRun 1 p (queuedRun ++ cs) u ∧ u.Started 0 := by
  refine ⟨?_, ?_, ?_⟩
  · obtain ⟨p, t, h, haccepted, htasks, hm⟩ : ∃ p t : ThreadPoolSystem Unit,
        ThreadPoolSystem.PausedRun 1 p sleepingRun t ∧ p.accepted = 0 ∧ t.pool.tasks_ = [0] ∧
          Meets ThreadPoolSystem.step ThreadPoolSystem.NotResumed p sleepingRun :=
      ThreadPoolSystem.exists_pausedRun [.call () .pause] () (by decide +kernel) (by simp)
        (by simp [sleepingRun, ThreadPoolSystem.callerSteps, ThreadPoolSystem.workerSteps])
    exact ⟨p, t, h, htasks, only_a_ThreadPool_holds_new_tasks_back.1 1 _ p t h hm 0 (by omega)⟩
  · obtain ⟨p, t, h, haccepted⟩ : ∃ p t : System Unit, System.PausedRun 1 p [] t ∧
        p.accepted = 0 :=
      System.exists_pausedRun [.call () .Pause] () (by decide +kernel) (by simp) (by simp)
    obtain ⟨bs, u, k, hu, hpause, -, hstarted⟩ :=
      only_a_ThreadPool_holds_new_tasks_back.2.1 1 p ⟨h.pause, h.resume, h.shutdown, rfl⟩
    exact ⟨p, u, k, bs, hu, haccepted, hpause, hstarted⟩
  · obtain ⟨p, t, h, haccepted, haccepted', hlive⟩ : ∃ p t : System Unit,
        System.PausedRun 1 p queuedRun t ∧ p.accepted = 0 ∧ t.accepted = 1 ∧ t.threads = 1 :=
      System.exists_pausedRun [.call () .Pause] () (by decide +kernel) (by simp)
        (by simp [queuedRun, System.callerSteps])
    obtain ⟨cs, u, hu, -, hstarted⟩ := only_a_ThreadPool_holds_new_tasks_back.2.2 1 _ p t h
      (by omega) 0 (by omega) (by omega)
    exact ⟨p, u, cs, hu, hstarted⟩

/-- A resume that began before the pause clears `pause_` after it. -/
def overlappingRun : List (ThreadPoolAction Bool) :=
  [.caller true none, .call false .enqueue] ++ ThreadPoolSystem.callerSteps false 6 ++
    ThreadPoolSystem.workerSteps 0 11

/-- The worker takes the task though the pool is paused. -/
def unpausedRun : List (bridges.LegacyThreadPool.Action Unit) :=
  [.call () .Enqueue] ++ System.callerSteps () 5 ++ System.workerSteps 0 9

theorem new_tasks_are_run_in_a_paused_pool :
    (∃ p t : System Unit, System.PausedRun 1 p unpausedRun t ∧ p.accepted = 0 ∧
      t.pool.pause_ = true ∧ t.finished = [0]) ∧
    ∃ p t : ThreadPoolSystem Bool, ThreadPoolSystem.PausedRun 1 p overlappingRun t ∧
      p.accepted = 0 ∧ t.finished = [0] := by
  constructor
  · exact System.exists_pausedRun [.call () .Pause] () (by decide +kernel) (by simp)
      (by simp [unpausedRun, System.callerSteps, System.workerSteps])
  · exact ThreadPoolSystem.exists_pausedRun [.call true .resume, .call false .pause] false
      (by decide +kernel) (by simp)
      (by simp [overlappingRun, ThreadPoolSystem.callerSteps, ThreadPoolSystem.workerSteps])

end sci
