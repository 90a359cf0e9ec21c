-- What `wait_all` promises. When it returns, every accepted task has been run to its end. But a
-- worker leaves `active_` before it enters `completed_`, and a caller may return in between.
import Scicompute.ThreadPoolWakeups

open Transition Monitor Holding

namespace sci

namespace ThreadPoolSystem

variable {κ : Type*} {s t u : ThreadPoolSystem κ}

/-! ## The counters -/

/-- The worker has run its task, and `completed_` does not count the task yet. -/
def owes : WorkerPc → Bool
  | .sub_active => true
  | .add_completed => true
  | _ => false

/-- `active_` counts the workers that it should, and `completed_` lags behind the finished tasks by
the workers that have not counted theirs. -/
structure Counted (s : ThreadPoolSystem κ) : Prop where
  active : s.pool.active_ =
    ((Finset.range s.pool.workers_).filter (fun w => counts (s.worker w) = true)).card
  completed : s.pool.completed_ +
    ((Finset.range s.pool.workers_).filter (fun w => owes (s.worker w) = true)).card =
      s.finished.length

theorem counted_start (n : Nat) : Counted (start n : ThreadPoolSystem κ) := by
  refine ⟨?_, ?_⟩
  · simp [start, counts]
  · simp [start, owes]

theorem Counted.not_counts (h : Counted s) (hinv : Inv s) (h0 : s.pool.active_ = 0) (w : Nat) :
    counts (s.worker w) = false := by
  by_cases hw : w < s.pool.workers_
  · rw [h.active, Finset.card_eq_zero, Finset.filter_eq_empty_iff] at h0
    simpa using h0 (Finset.mem_range.mpr hw)
  · rw [hinv.absent w (Nat.not_lt.mp hw)]
    rfl

/-- A step of a worker counts its task, or leaves the sum of the two as it was. -/
theorem completed_workerStep {w : Nat} (hs : s.workerStep w = some t) :
    t.pool.completed_ + (owes (t.worker w)).toNat + s.finished.length =
      s.pool.completed_ + (owes (s.worker w)).toNat + t.finished.length := by
  cases hpc : s.worker w with
  | pop =>
    simp only [workerStep, hpc] at hs
    split at hs
    · cases hs
    · cases hs
      simp [setWorker, owes]
  | run task =>
    simp only [workerStep, hpc] at hs
    cases hs
    simp only [setWorker, Function.update_self, owes, Bool.toNat_true, Bool.toNat_false,
      List.length_cons]
    omega
  | add_completed =>
    simp only [workerStep, hpc] at hs
    cases hs
    simp [setWorker, owes]
  | asleep => simp [workerStep, hpc] at hs
  | exited => simp [workerStep, hpc] at hs
  | _ =>
    simp only [workerStep, hpc] at hs
    try split_ifs at hs
    all_goals
      cases hs
      simp [setWorker, owes]

/-- A worker enters `active_` in the section in which it takes its task. -/
theorem inside_of_counts {w : Nat} (hs : s.workerStep w = some t)
    (hc : counts (t.worker w) = true) :
    counts (s.worker w) = true ∨ workerInside (t.worker w) = true := by
  cases hpc : s.worker w with
  | pop =>
    simp only [workerStep, hpc] at hs
    split at hs
    · cases hs
    · cases hs
      simp [setWorker, counts] at hc
  | add_active task =>
    simp only [workerStep, hpc] at hs
    cases hs
    exact Or.inr (by simp [setWorker, workerInside])
  | unlock task | run task | sub_active => exact Or.inl rfl
  | asleep => simp [workerStep, hpc] at hs
  | exited => simp [workerStep, hpc] at hs
  | _ =>
    simp only [workerStep, hpc] at hs
    try split_ifs at hs
    all_goals
      cases hs
      simp [setWorker, counts] at hc

theorem Counted.workerMove (h : Counted s) {w : Nat} {pc : WorkerPc} (hm : WorkerMove s t w pc)
    (hcompleted : t.pool.completed_ + (owes pc).toNat + s.finished.length =
      s.pool.completed_ + (owes (s.worker w)).toNat + t.finished.length) : Counted t := by
  constructor
  · have hcard := card_filter_update counts s.worker pc hm.live
    rw [hm.active, h.active, hm.workers, hm.worker]
    omega
  · have hcard := card_filter_update owes s.worker pc hm.live
    have hbefore := h.completed
    rw [hm.workers, hm.worker]
    omega

/-! ## What a caller finds out in `wait_all` -/

/-- The caller of `wait_all` has seen the queue empty, and then `active_` at zero. -/
structure Emptied (s : ThreadPoolSystem κ) : Prop where
  wait_active : ∀ c, s.caller c = .wait_active → s.pool.tasks_ = []
  wait_unlock : ∀ c, s.caller c = .wait_unlock → s.pool.tasks_ = [] ∧ s.pool.active_ = 0

theorem emptied_start (n : Nat) : Emptied (start n : ThreadPoolSystem κ) := by
  constructor
  · intro c hc
    cases hc
  · intro c hc
    cases hc

/-- While a caller is in its section, no worker takes a task or enters `active_`. -/
theorem Emptied.workerMove (h : Emptied s) (hinv : Inv s) (hinv' : Inv t) (hcounted : Counted s)
    {w : Nat} {pc : WorkerPc} (hm : WorkerMove s t w pc)
    (hinside : counts pc = true → counts (s.worker w) = true ∨ workerInside pc = true) :
    Emptied t := by
  have hbefore : ∀ c p, p ≠ .wait_asleep → p ≠ .wait_lock → t.caller c = p → s.caller c = p := by
    intro c p h1 h2 hc
    rcases hm.caller with ⟨-, hcaller⟩ | ⟨-, hcaller⟩
    · rwa [hcaller] at hc
    · rw [hcaller] at hc
      exact (wakeAll_eq_iff h1 h2).mp hc
  have hout : ∀ c, callerInside (t.caller c) = true → workerInside pc = false := by
    intro c hc
    by_contra hw
    rw [Bool.not_eq_false] at hw
    have hin : t.inside (.inl w) := by
      rw [← hm.self] at hw
      exact hw
    have hin' : t.inside (.inr c) := hc
    cases hinv'.guards.unique hin hin'
  have htasks : ∀ c, callerInside (t.caller c) = true → t.pool.tasks_ = s.pool.tasks_ := by
    intro c hc
    rcases hm.tasks with hsame | ⟨task, rfl⟩
    · exact hsame
    · exact absurd (hout c hc) (by simp [workerInside])
  constructor
  · intro c hc
    rw [htasks c (by rw [hc]; rfl)]
    exact h.wait_active c (hbefore c _ (by simp) (by simp) hc)
  · intro c hc
    have hin : callerInside (t.caller c) = true := by rw [hc]; rfl
    obtain ⟨hempty, hzero⟩ := h.wait_unlock c (hbefore c _ (by simp) (by simp) hc)
    refine ⟨by rw [htasks c hin, hempty], ?_⟩
    have hpc : counts pc = false := by
      by_contra hne
      rw [Bool.not_eq_false] at hne
      rcases hinside hne with hold | hnew
      · rw [hcounted.not_counts hinv hzero w] at hold
        cases hold
      · rw [hout c hin] at hnew
        cases hnew
    rw [hm.active, hzero, hpc]
    simp

section
variable [DecidableEq κ] {c : κ}

/-- What a step of a caller does to the tasks and the counters. -/
structure WaitMove (s t : ThreadPoolSystem κ) (c : κ) : Prop where
  tasks : t.pool.tasks_ = s.pool.tasks_ ∨ s.caller c = .enqueue_push
  accepted : t.accepted = s.accepted ∨ s.caller c = .enqueue_push
  finished : t.finished = s.finished
  completed : t.pool.completed_ = s.pool.completed_
  wait_active : t.caller c = .wait_active → s.pool.tasks_ = []
  wait_unlock : t.caller c = .wait_unlock → s.caller c = .wait_active ∧ s.pool.active_ = 0

theorem waitMove {woken : Option Nat} (hs : s.callerStep c woken = some t) : WaitMove s t c := by
  cases hpc : s.caller c with
  | enqueue_push =>
    simp only [callerStep, hpc] at hs
    cases hs
    exact ⟨Or.inr hpc, Or.inr hpc, rfl, rfl, by simp [setCaller], by simp [setCaller]⟩
  | enqueue_notify_one =>
    cases woken with
    | none =>
      simp only [callerStep, hpc] at hs
      split_ifs at hs
      cases hs
      exact ⟨Or.inl rfl, Or.inl rfl, rfl, rfl, by simp [setCaller], by simp [setCaller]⟩
    | some w =>
      simp only [callerStep, hpc] at hs
      split_ifs at hs
      cases hs
      exact ⟨Or.inl rfl, Or.inl rfl, rfl, rfl, by simp [setCaller, setWorker],
        by simp [setCaller, setWorker]⟩
  | wait_empty =>
    simp only [callerStep, hpc] at hs
    split_ifs at hs with hempty
    · cases hs
      exact ⟨Or.inl rfl, Or.inl rfl, rfl, rfl, fun _ => hempty, by simp [setCaller]⟩
    · cases hs
      exact ⟨Or.inl rfl, Or.inl rfl, rfl, rfl, by simp [setCaller], by simp [setCaller]⟩
  | wait_active =>
    simp only [callerStep, hpc] at hs
    split_ifs at hs with hzero
    · cases hs
      exact ⟨Or.inl rfl, Or.inl rfl, rfl, rfl, by simp [setCaller], fun _ => ⟨hpc, hzero⟩⟩
    · cases hs
      exact ⟨Or.inl rfl, Or.inl rfl, rfl, rfl, by simp [setCaller], by simp [setCaller]⟩
  | idle => simp [callerStep, hpc] at hs
  | wait_asleep => simp [callerStep, hpc] at hs
  | joined => simp [callerStep, hpc] at hs
  | _ =>
    simp only [callerStep, hpc] at hs
    try split_ifs at hs
    all_goals
      cases hs
      exact ⟨Or.inl rfl, Or.inl rfl, rfl, rfl, by simp [setCaller, wakeWorkers, hpc],
        by simp [setCaller, wakeWorkers, hpc]⟩

theorem Emptied.callerMove (h : Emptied s) (hinv : Inv s) {pc : CallerPc}
    (hm : CallerMove s t c pc) (hw : WaitMove s t c) : Emptied t := by
  -- a caller that stands in its section keeps the others from adding tasks
  have htasks : ∀ d, callerInside (s.caller d) = true → s.caller d ≠ .enqueue_push →
      t.pool.tasks_ = s.pool.tasks_ := by
    intro d hd hne
    refine hw.tasks.resolve_right fun hpush => hne ?_
    have hin : s.inside (.inr c) := by simp [inside, hpush, callerInside]
    have hin' : s.inside (.inr d) := hd
    cases hinv.guards.unique hin hin'
    exact hpush
  constructor
  · intro d hd
    by_cases hdc : d = c
    · subst hdc
      have hempty := hw.wait_active hd
      rcases hm.tasks with hsame | ⟨-, hnotifies⟩
      · rw [hsame, hempty]
      · rw [← hm.self, hd] at hnotifies
        cases hnotifies
    · rw [hm.other hdc] at hd
      rw [htasks d (by rw [hd]; rfl) (by simp [hd])]
      exact h.wait_active d hd
  · intro d hd
    rw [hm.active]
    by_cases hdc : d = c
    · subst hdc
      obtain ⟨hold, hzero⟩ := hw.wait_unlock hd
      rw [htasks d (by rw [hold]; rfl) (by simp [hold])]
      exact ⟨h.wait_active d hold, hzero⟩
    · rw [hm.other hdc] at hd
      rw [htasks d (by rw [hd]; rfl) (by simp [hd])]
      exact h.wait_unlock d hd

/-- The caller goes to another place. -/
theorem Emptied.setCaller (h : Emptied s) {pc : CallerPc}
    (hpc : pc ≠ .wait_active ∧ pc ≠ .wait_unlock) : Emptied (s.setCaller c pc) := by
  constructor
  · intro d hd
    by_cases hdc : d = c
    · rw [hdc, setCaller_self] at hd
      exact absurd hd hpc.1
    · rw [setCaller_of_ne hdc] at hd
      exact h.wait_active d hd
  · intro d hd
    by_cases hdc : d = c
    · rw [hdc, setCaller_self] at hd
      exact absurd hd hpc.2
    · rw [setCaller_of_ne hdc] at hd
      exact h.wait_unlock d hd

/-! ## Runs -/

/-- What every step keeps. -/
structure Settled (s : ThreadPoolSystem κ) : Prop where
  inv : Inv s
  counted : Counted s
  emptied : Emptied s

omit [DecidableEq κ] in
theorem settled_start (n : Nat) : Settled (start n : ThreadPoolSystem κ) :=
  ⟨inv_start n, counted_start n, emptied_start n⟩

theorem settled_step (a : ThreadPoolAction κ) (h : Settled s) (hs : s.step a = some t) :
    Settled t := by
  have hinv := inv_step a h.inv hs
  cases a with
  | call c call =>
    simp only [step] at hs
    split_ifs at hs
    cases hs
    refine ⟨hinv, ⟨h.counted.active, h.counted.completed⟩, h.emptied.setCaller ?_⟩
    cases call <;> simp [enter]
  | worker w =>
    simp only [step] at hs
    split_ifs at hs with hw
    obtain ⟨pc, hm⟩ := exists_workerMove hw hs
    have hcompleted := completed_workerStep hs
    have hinside := inside_of_counts hs
    rw [hm.self] at hcompleted hinside
    exact ⟨hinv, h.counted.workerMove hm hcompleted,
      h.emptied.workerMove h.inv hinv h.counted hm hinside⟩
  | caller c woken =>
    obtain ⟨pc, hm⟩ := exists_callerMove hs
    have hw := waitMove hs
    refine ⟨hinv, ⟨?_, ?_⟩, h.emptied.callerMove h.inv hm hw⟩
    · rw [hm.active, card_callerMove h.inv rfl rfl hm]
      exact h.counted.active
    · rw [hw.completed, hw.finished, card_callerMove h.inv rfl rfl hm]
      exact h.counted.completed
  | spurious u =>
    cases u with
    | inl w =>
      simp only [step] at hs
      split_ifs at hs with hasleep
      cases hs
      have hm := workerMove_spurious (h.inv.lt_of_asleep hasleep) hasleep
      refine ⟨hinv, h.counted.workerMove hm ?_,
        h.emptied.workerMove h.inv hinv h.counted hm (fun hc => by cases hc)⟩
      simp [hasleep, owes, setWorker]
    | inr c =>
      simp only [step] at hs
      split_ifs at hs with hasleep
      cases hs
      exact ⟨hinv, ⟨h.counted.active, h.counted.completed⟩, h.emptied.setCaller (by simp)⟩

theorem settled_of_run {n : Nat} {as : List (ThreadPoolAction κ)}
    (hr : run step (start n) as = some s) : Settled s :=
  invariant_of_run (fun _ a _ h hs => settled_step a h hs) (settled_start n) hr

/-! ## When `wait_all` returns -/

omit [DecidableEq κ] in
/-- Every accepted task is finished, and the workers that have not counted theirs stand between
their two counters. -/
theorem Settled.returns (h : Settled s) (hc : s.caller c = .wait_unlock) :
    (∀ k < s.accepted, k ∈ s.finished) ∧
      s.pool.completed_ + ((Finset.range s.pool.workers_).filter
        (fun w => s.worker w = .add_completed)).card = s.accepted := by
  obtain ⟨hempty, hzero⟩ := h.emptied.wait_unlock c hc
  have hcounts := h.counted.not_counts h.inv hzero
  have hin : s.inside (.inr c) := by simp [inside, hc, callerInside]
  have hflight : ∀ w, inFlight (s.worker w) = none := by
    intro w
    have hout : workerInside (s.worker w) = false := by
      by_contra hne
      rw [Bool.not_eq_false] at hne
      have hin' : s.inside (.inl w) := hne
      cases h.inv.guards.unique hin hin'
    have hidle := hcounts w
    revert hout hidle
    cases s.worker w <;> simp [workerInside, counts, inFlight]
  have hfinished : ∀ k < s.accepted, k ∈ s.finished := by
    intro k hk
    obtain ⟨p, hp⟩ := (h.inv.accepted k).mp hk
    cases p with
    | queue =>
      rw [places, hempty] at hp
      cases hp
    | worker w =>
      rw [places, hflight w] at hp
      cases hp
    | finished => exact hp
  refine ⟨hfinished, ?_⟩
  have hlength : s.finished.length = s.accepted := by
    have hperm : s.finished.Perm (List.range s.accepted) := by
      have hnodup : s.finished.Nodup := h.inv.apart.nodup .finished
      rw [List.perm_ext_iff_of_nodup hnodup List.nodup_range]
      intro k
      rw [List.mem_range]
      exact ⟨fun hk => (h.inv.accepted k).mpr ⟨.finished, hk⟩, hfinished k⟩
    rw [hperm.length_eq, List.length_range]
  have howes : ∀ w, owes (s.worker w) = true ↔ s.worker w = .add_completed := by
    intro w
    have hidle := hcounts w
    revert hidle
    cases s.worker w <;> simp [counts, owes]
  have hcompleted := h.counted.completed
  simp only [howes] at hcompleted
  rw [hcompleted, hlength]

/-- The caller is in a call of `enqueue`. -/
def enqueuing : CallerPc → Bool
  | .enqueue_lock => true
  | .enqueue_stop => true
  | .enqueue_throw => true
  | .enqueue_push => true
  | .enqueue_count => true
  | .enqueue_unlock => true
  | .enqueue_notify_one => true
  | _ => false

omit [DecidableEq κ] in
theorem accepted_workerStep {w : Nat} (hs : s.workerStep w = some t) :
    t.accepted = s.accepted := by
  unfold workerStep at hs
  split at hs
  all_goals
    try split at hs
  all_goals
    cases hs
    try rfl

theorem enqueuing_callerStep {woken : Option Nat} (hs : s.callerStep c woken = some t)
    (hnot : enqueuing (s.caller c) = false) : enqueuing (t.caller c) = false := by
  cases hpc : s.caller c with
  | resize n =>
    simp only [callerStep, hpc] at hs
    split_ifs at hs
    · cases hs
      simp [ThreadPoolSystem.setCaller, enqueuing]
    · cases hs
      exact hnot
  | enqueue_lock | enqueue_stop | enqueue_throw | enqueue_push | enqueue_count | enqueue_unlock
  | enqueue_notify_one =>
    rw [hpc] at hnot
    cases hnot
  | idle => simp [callerStep, hpc] at hs
  | wait_asleep => simp [callerStep, hpc] at hs
  | joined => simp [callerStep, hpc] at hs
  | _ =>
    simp only [callerStep, hpc] at hs
    try split_ifs at hs
    all_goals
      cases hs
      simp [ThreadPoolSystem.setCaller, wakeWorkers, enqueuing]

/-- Between two calls of `enqueue` no task is accepted. -/
theorem accepted_step {a : ThreadPoolAction κ} (hnot : ∀ d, enqueuing (s.caller d) = false)
    (ha : ∀ d, a ≠ .call d .enqueue) (hs : s.step a = some t) :
    t.accepted = s.accepted ∧ ∀ d, enqueuing (t.caller d) = false := by
  cases a with
  | call c call =>
    simp only [step] at hs
    split_ifs at hs
    cases hs
    refine ⟨rfl, ?_⟩
    intro d
    by_cases hdc : d = c
    · subst hdc
      rw [setCaller_self]
      cases call with
      | enqueue => exact absurd rfl (ha d)
      | _ => rfl
    · rw [setCaller_of_ne hdc]
      exact hnot d
  | worker w =>
    simp only [step] at hs
    split_ifs at hs with hw
    obtain ⟨pc, hm⟩ := exists_workerMove hw hs
    refine ⟨accepted_workerStep hs, ?_⟩
    intro d
    rcases hm.caller with ⟨-, hcaller⟩ | ⟨-, hcaller⟩
    · rw [hcaller]
      exact hnot d
    · rw [hcaller, wakeAll_congr enqueuing (by rfl)]
      exact hnot d
  | caller c woken =>
    obtain ⟨pc, hm⟩ := exists_callerMove hs
    constructor
    · refine (waitMove hs).accepted.resolve_right fun hpush => ?_
      have hc := hnot c
      rw [hpush] at hc
      cases hc
    · intro d
      by_cases hdc : d = c
      · subst hdc
        exact enqueuing_callerStep hs (hnot d)
      · rw [hm.other hdc]
        exact hnot d
  | spurious u =>
    cases u with
    | inl w =>
      simp only [step] at hs
      split_ifs at hs
      cases hs
      exact ⟨rfl, hnot⟩
    | inr c =>
      simp only [step] at hs
      split_ifs at hs
      cases hs
      refine ⟨rfl, ?_⟩
      intro d
      by_cases hdc : d = c
      · rw [hdc, setCaller_self]
        rfl
      · rw [setCaller_of_ne hdc]
        exact hnot d

/-- When every `enqueue` has returned before `wait_all` is called and none is called until it
returns, all tasks have been run to their end by then; and `completed_` is their number if and only
if no worker stands between `active_.fetch_sub` and `completed_.fetch_add`. -/
theorem completed_is_final_when_wait_all_returns_iff {n : Nat}
    {as bs : List (ThreadPoolAction κ)} (hs : run step (start n) as = some s)
    (hreturned : ∀ d, enqueuing (s.caller d) = false)
    (ht : run step s (.call c .wait_all :: bs) = some t)
    (hnone : ∀ a ∈ bs, ∀ d, a ≠ .call d .enqueue) (hc : t.caller c = .wait_unlock)
    {woken : Option Nat} (hu : t.step (.caller c woken) = some u) :
    u.caller c = .idle ∧ (∀ k < s.accepted, k ∈ u.finished) ∧
      (u.pool.completed_ = s.accepted ↔ ∀ w, t.worker w ≠ .add_completed) := by
  obtain ⟨s', hs', hrun⟩ := (run_cons ..).mp ht
  have hcall := accepted_step (a := .call c .wait_all) hreturned (by simp) hs'
  have hkept : t.accepted = s.accepted ∧ ∀ d, enqueuing (t.caller d) = false := by
    refine invariant_of_meets (I := fun t => t.accepted = s.accepted ∧
      ∀ d, enqueuing (t.caller d) = false) ?_ hcall (meets_of_forall hnone s') hrun
    intro v a v' hv ha hstep
    obtain ⟨haccepted, hnot⟩ := accepted_step hv.2 ha hstep
    exact ⟨haccepted.trans hv.1, hnot⟩
  have hsettled : Settled t := settled_of_run (run_append hs ht)
  obtain ⟨hfinished, hcompleted⟩ := hsettled.returns hc
  rw [hkept.1] at hfinished hcompleted
  simp only [step, callerStep, hc] at hu
  cases hu
  refine ⟨setCaller_self t c .idle, hfinished, ?_⟩
  change t.pool.completed_ = s.accepted ↔ _
  constructor
  · intro hall w hw
    -- a worker below the bound would be counted
    have hlt : w < t.pool.workers_ := by
      by_contra hge
      rw [hsettled.inv.absent w (Nat.not_lt.mp hge)] at hw
      cases hw
    have hcard : ((Finset.range t.pool.workers_).filter
        (fun w => t.worker w = .add_completed)).card = 0 := by omega
    rw [Finset.card_eq_zero, Finset.filter_eq_empty_iff] at hcard
    exact hcard (Finset.mem_range.mpr hlt) hw
  · intro hnot
    have hcard : (Finset.range t.pool.workers_).filter
        (fun w => t.worker w = .add_completed) = ∅ :=
      Finset.filter_eq_empty_iff.mpr fun w _ => hnot w
    rw [hcard, Finset.card_empty] at hcompleted
    exact hcompleted

end

/-- The worker has run the task and has taken `k` more steps when `wait_all` is called. -/
def taskDone (k : Nat) : List (ThreadPoolAction Unit) :=
  [.call () .enqueue] ++ callerSteps () 6 ++ workerSteps 0 (11 + k)

/-- The call of `wait_all`, up to its return. -/
def waitAll : List (ThreadPoolAction Unit) := .call () .wait_all :: callerSteps () 3

theorem one_task_is_completed : ∃ s t u : ThreadPoolSystem Unit,
    run step (start 1) (taskDone 2) = some s ∧ run step s waitAll = some t ∧
    t.step (.caller () none) = some u ∧ s.accepted = 1 ∧ 0 ∈ u.finished ∧
    u.pool.completed_ = 1 := by
  obtain ⟨s, hs, haccepted, hidle, hwait⟩ : ∃ s : ThreadPoolSystem Unit,
      run step (start 1) (taskDone 2) = some s ∧ s.accepted = 1 ∧ s.caller () = .idle ∧
      (run step s waitAll).any (fun t => decide (t.caller () = .wait_unlock ∧
        t.pool.workers_ = 1 ∧ t.worker 0 = .notify_all ∧
        (t.step (.caller () none)).isSome = true)) = true :=
    exists_of_any (by decide +kernel)
  obtain ⟨t, ht, hunlock, hworkers, hplace, hsome⟩ := exists_of_any hwait
  obtain ⟨u, hu⟩ := Option.isSome_iff_exists.mp hsome
  have hnone : ∀ w, t.worker w ≠ .add_completed := by
    intro w
    by_cases hw : w < t.pool.workers_
    · obtain rfl : w = 0 := by omega
      simp [hplace]
    · rw [(inv_of_run (run_append hs ht)).absent w (Nat.not_lt.mp hw)]
      simp
  obtain ⟨-, hfinished, hcompleted⟩ := completed_is_final_when_wait_all_returns_iff hs
    (fun d => by rw [hidle]; rfl) ht (by simp [callerSteps]) hunlock hu
  rw [haccepted] at hfinished hcompleted
  exact ⟨s, t, u, hs, ht, hu, haccepted, hfinished 0 (by decide), hcompleted.mpr hnone⟩

/-- `wait_all` returns after the worker has left `active_`, and before it enters `completed_`. -/
theorem wait_all_returns_before_the_count : ∃ s t u : ThreadPoolSystem Unit,
    run step (start 1) (taskDone 1) = some s ∧ s.accepted = 1 ∧ s.caller () = .idle ∧
    run step s waitAll = some t ∧ t.caller () = .wait_unlock ∧
    t.step (.caller () none) = some u ∧ u.caller () = .idle ∧ u.pool.completed_ = 0 := by
  obtain ⟨s, hs, haccepted, hidle, hwait⟩ : ∃ s : ThreadPoolSystem Unit,
      run step (start 1) (taskDone 1) = some s ∧ s.accepted = 1 ∧ s.caller () = .idle ∧
      (run step s waitAll).any (fun t => decide (t.caller () = .wait_unlock ∧
        (t.step (.caller () none)).any (fun u =>
          decide (u.caller () = .idle ∧ u.pool.completed_ = 0)) = true)) = true :=
    exists_of_any (by decide +kernel)
  obtain ⟨t, ht, hunlock, hreturn⟩ := exists_of_any hwait
  obtain ⟨u, hu, hlast⟩ := (Option.any_eq_true _ _).mp hreturn
  obtain ⟨hreturned, hzero⟩ := of_decide_eq_true hlast
  exact ⟨s, t, u, hs, haccepted, hidle, ht, hunlock, hu, hreturned, hzero⟩

end ThreadPoolSystem

end sci
