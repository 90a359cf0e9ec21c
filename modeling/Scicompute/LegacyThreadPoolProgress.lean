-- Progress of a `LegacyThreadPool` that is not shut down (src/bridges/thread_pool_bridge.cpp,
-- 17-38): while it has a worker, every task that it has accepted can be run, by steps of the
-- workers and of the callers that are in a section of the mutex. A pause is not in their way.
import Scicompute.LegacyThreadPoolShutdown

open Transition Monitor Holding

namespace sci

namespace bridges

namespace LegacyThreadPool

namespace System

variable {κ : Type*} {s t : System κ} {v w k : Nat}

/-! ## The workers of a running pool -/

/-- A step of a worker leaves `pause_` as it is, and the loop only when the pool is stopped. -/
structure Turn (s t : System κ) (w : Nat) : Prop where
  pause : t.pool.pause_ = s.pool.pause_
  gone : gone (t.worker w) = true → gone (s.worker w) = true ∨ s.pool.stop_ = true

theorem turn_workerStep (hs : s.workerStep w = some t) : Turn s t w := by
  cases hpc : s.worker w with
  | test_return =>
    simp only [workerStep, hpc] at hs
    split_ifs at hs with hstop
    · cases hs
      exact ⟨rfl, fun _ => Or.inr hstop.1⟩
    · cases hs
      exact ⟨rfl, by simp [setWorker, System.gone]⟩
  | «return» =>
    simp only [workerStep, hpc] at hs
    cases hs
    exact ⟨rfl, fun _ => Or.inl (by rw [hpc]; rfl)⟩
  | pop =>
    simp only [workerStep, hpc] at hs
    split at hs
    all_goals
      cases hs
      exact ⟨rfl, by simp [setWorker, System.gone]⟩
  | unlock task =>
    cases task
    all_goals
      simp only [workerStep, hpc] at hs
      cases hs
      exact ⟨rfl, by simp [setWorker, System.gone]⟩
  | asleep => simp [workerStep, hpc] at hs
  | exited => simp [workerStep, hpc] at hs
  | _ =>
    simp only [workerStep, hpc] at hs
    try split_ifs at hs
    all_goals
      cases hs
      exact ⟨rfl, by simp [setWorker, System.gone]⟩

theorem exists_workerStep (hasleep : s.worker w ≠ .asleep) (hexited : s.worker w ≠ .exited)
    (hlock : s.worker w = .lock → s.mtx_ = none) : ∃ t, s.workerStep w = some t := by
  rw [← Option.isSome_iff_exists]
  cases hpc : s.worker w with
  | lock => simp [workerStep, hpc, hlock hpc]
  | asleep => exact absurd hpc hasleep
  | exited => exact absurd hpc hexited
  | unlock task => cases task <;> simp [workerStep, hpc]
  | pop =>
    simp only [workerStep, hpc]
    split <;> rfl
  | _ =>
    simp only [workerStep, hpc]
    try split_ifs
    all_goals rfl

section
variable [DecidableEq κ] {c : κ}

/-- No `Shutdown` has begun, and no worker has left its loop. -/
structure Running (s : System κ) : Prop where
  inv : Inv s
  stop : s.pool.stop_ = false
  closing : ∀ c, closing (s.caller c) = false
  alive : ∀ w, gone (s.worker w) = false

omit [DecidableEq κ] in
theorem running_start (n : Nat) : Running (start n : System κ) :=
  ⟨inv_start n, rfl, fun _ => rfl, fun _ => rfl⟩

theorem Running.alive_step (h : Running s) {a : Action κ} (hs : s.step a = some t) :
    ∀ v, gone (t.worker v) = false := by
  have hcaller : ∀ {c pc}, CallerMove s t c pc → ∀ v, gone (t.worker v) = false := by
    intro c pc hm v
    rw [hm.worker_congr gone rfl]
    exact h.alive v
  intro v
  cases a with
  | call c call =>
    simp only [step] at hs
    split_ifs at hs with hidle
    cases hs
    exact hcaller (callerMove_call hidle call) v
  | caller c woken =>
    obtain ⟨pc, hm⟩ := exists_callerMove h.inv.absent hs
    exact hcaller hm v
  | worker w =>
    simp only [step] at hs
    split_ifs at hs with hw
    obtain ⟨pc, hm⟩ := exists_workerMove hw hs
    by_cases hvw : v = w
    · by_contra hgone
      rw [Bool.not_eq_false, hvw] at hgone
      rcases (turn_workerStep hs).gone hgone with hbefore | hstop
      · rw [h.alive w] at hbefore
        cases hbefore
      · rw [h.stop] at hstop
        cases hstop
    · rw [hm.other hvw]
      exact h.alive v
  | spurious u =>
    cases u with
    | inl w =>
      simp only [step] at hs
      split_ifs at hs
      cases hs
      by_cases hvw : v = w
      · simp [setWorker, hvw, gone]
      · simp only [setWorker, Function.update_of_ne hvw]
        exact h.alive v
    | inr c =>
      simp only [step] at hs
      split_ifs at hs with hasleep
      cases hs
      exact hcaller (callerMove_spurious hasleep) v

theorem running_step {a : Action κ} (h : Running s) (ha : ∀ d, a ≠ .call d .Shutdown)
    (hs : s.step a = some t) : Running t := by
  have hinv := inv_step a h.inv hs
  have halive := h.alive_step hs
  rcases exists_manage h.inv hs with ⟨w, pc, hm, hlook⟩ | ⟨c, pc, hm, hmanage, hcalls⟩
  · refine ⟨hinv, hlook.stop.trans h.stop, ?_, halive⟩
    intro c
    rw [hm.caller_congr System.closing rfl]
    exact h.closing c
  · have hpc : System.closing pc = false := by
      rcases hcalls with ⟨call, rfl, rfl⟩ | ⟨-, hbefore⟩
      · cases call with
        | Shutdown => exact absurd rfl (ha c)
        | _ => rfl
      · by_contra hclosing
        rw [Bool.not_eq_false] at hclosing
        have hmanaging : managing pc = true := by
          revert hclosing
          cases pc <;> simp [System.closing, managing]
        rw [(hbefore hmanaging).2, h.closing c] at hclosing
        cases hclosing
    refine ⟨hinv, ?_, ?_, halive⟩
    · apply (hmanage.stop.resolve_right ?_).trans h.stop
      intro hshutdown
      have hclosing := h.closing c
      rw [hshutdown] at hclosing
      cases hclosing
    · intro d
      by_cases hdc : d = c
      · rw [hdc, hm.self, hpc]
      · rw [hm.other hdc]
        exact h.closing d

theorem running_run {as : List (Action κ)} (h : Running s) (hcalls : ∀ d, .call d .Shutdown ∉ as)
    (hr : run step s as = some t) : Running t :=
  invariant_of_meets (I := Running) (fun _ _ _ h ha hs => running_step h ha hs) h
    (meets_of_not_mem hcalls s) hr

end

/-! ## The owner of the mutex leaves -/

/-- How many steps a worker takes in its section of the mutex, at most. -/
def sectionRank : WorkerPc → Nat
  | .stop => 6
  | .empty => 5
  | .pause => 4
  | .test_return => 3
  | .pop => 2
  | .unlock _ => 1
  | .block => 1
  | .return => 1
  | _ => 0

def callerRank : CallerPc → Nat
  | .enqueue_push => 3
  | .enqueue_count _ => 2
  | .enqueue_unlock _ => 1
  | .wait_empty => 3
  | .wait_active => 2
  | .wait_block => 1
  | .wait_unlock => 1
  | _ => 0

def ownerRank (s : System κ) : Nat :=
  match s.mtx_ with
  | none => 0
  | some (.inl w) => sectionRank (s.worker w)
  | some (.inr c) => callerRank (s.caller c)

theorem sectionRank_lt (hs : s.workerStep w = some t)
    (hinside : workerInside (s.worker w) = true) :
    sectionRank (t.worker w) < sectionRank (s.worker w) := by
  cases hpc : s.worker w with
  | pop =>
    simp only [workerStep, hpc] at hs
    split at hs
    all_goals
      cases hs
      simp [setWorker, sectionRank]
  | unlock task =>
    cases task
    all_goals
      simp only [workerStep, hpc] at hs
      cases hs
      simp [setWorker, sectionRank]
  | stop | empty | pause | test_return | block | «return» =>
    simp only [workerStep, hpc] at hs
    try split_ifs at hs
    all_goals
      cases hs
      simp [setWorker, sectionRank]
  | _ =>
    rw [hpc] at hinside
    cases hinside

section
variable [DecidableEq κ] {c : κ}

/-- A caller that owns the mutex can go on. -/
theorem exists_owner_callerStep (hinside : callerInside (s.caller c) = true) :
    ∃ t, s.callerStep c none = some t ∧ callerRank (t.caller c) < callerRank (s.caller c) ∧
      t.pool.pause_ = s.pool.pause_ := by
  cases hpc : s.caller c with
  | wait_empty =>
    simp only [callerStep, hpc]
    split_ifs
    all_goals exact ⟨_, rfl, by simp [setCaller, callerRank], rfl⟩
  | wait_active =>
    simp only [callerStep, hpc]
    split_ifs
    all_goals exact ⟨_, rfl, by simp [setCaller, callerRank], rfl⟩
  | enqueue_push | enqueue_count task | enqueue_unlock task | wait_block | wait_unlock =>
    simp only [callerStep, hpc]
    exact ⟨_, rfl, by simp [setCaller, callerRank], rfl⟩
  | _ =>
    rw [hpc] at hinside
    cases hinside

/-- The move of the thread that owns the mutex. -/
inductive OwnerMove (s t : System κ) : Nat ⊕ κ → Prop
  | worker {v : Nat} {pc : WorkerPc} (hm : WorkerMove s t v pc) : OwnerMove s t (.inl v)
  | caller {c : κ} {pc : CallerPc} (hm : CallerMove s t c pc) : OwnerMove s t (.inr c)

omit [DecidableEq κ] in
/-- A thread of rank `n` that passes the mutex on, or keeps it with a lower rank. -/
theorem ownerRank_lt {u : Nat ⊕ κ} {i i' : Bool} {n : Nat} (hp : Passes u i i' (some u) t.mtx_)
    (hpos : 0 < n) (hkeeps : t.mtx_ = some u → ownerRank t < n) : ownerRank t < n := by
  generalize hmtx : t.mtx_ = owner at hp
  cases hp with
  | leave =>
    unfold ownerRank
    rw [hmtx]
    exact hpos
  | stay => exact hkeeps hmtx

theorem Running.owner_step (h : Running s) {u : Nat ⊕ κ} (hu : s.mtx_ = some u) :
    ∃ a t, NoCall a ∧ s.step a = some t ∧ Running t ∧ t.pool.pause_ = s.pool.pause_ ∧
      ownerRank t < ownerRank s ∧ OwnerMove s t u := by
  have hinside : s.inside u := (h.inv.guards u).mpr hu
  cases u with
  | inl v =>
    have hv : v < s.threads := by
      by_contra hlt
      simp only [inside, h.inv.absent v (by omega), workerInside] at hinside
      cases hinside
    have hpcs : ∀ pc, workerInside pc = false → s.worker v ≠ pc := by
      rintro pc hout rfl
      rw [inside, hout] at hinside
      cases hinside
    obtain ⟨t, hs⟩ := exists_workerStep (hpcs .asleep rfl) (hpcs .exited rfl)
      (fun hpc => absurd hpc (hpcs .lock rfl))
    obtain ⟨pc, hm⟩ := exists_workerMove hv hs
    have hstep : s.step (.worker v) = some t := by rw [step, if_pos hv, hs]
    have hlt := sectionRank_lt hs hinside
    have hown : ownerRank s = sectionRank (s.worker v) := by rw [ownerRank, hu]
    refine ⟨.worker v, t, trivial, hstep, running_step h (by simp) hstep,
      (turn_workerStep hs).pause, ?_, .worker hm⟩
    rw [hown]
    apply ownerRank_lt (hu ▸ hm.mutex) (by omega)
    intro hmtx
    rw [ownerRank, hmtx]
    exact hlt
  | inr c =>
    obtain ⟨t, hs, hlt, hpause⟩ := exists_owner_callerStep hinside
    obtain ⟨pc, hm⟩ := exists_callerMove h.inv.absent hs
    have hown : ownerRank s = callerRank (s.caller c) := by rw [ownerRank, hu]
    have hstep : s.step (.caller c none) = some t := hs
    refine ⟨.caller c none, t, trivial, hstep, running_step h (by simp) hstep, hpause, ?_,
      .caller hm⟩
    rw [hown]
    apply ownerRank_lt (hu ▸ hm.mutex) (by omega)
    intro hmtx
    rw [ownerRank, hmtx]
    exact hlt

end

/-! ## A task comes nearer to a worker -/

/-- How far a worker is from taking a task out of a queue that is not empty. -/
def cycleRank : WorkerPc → Nat
  | .pop => 0
  | .test_return => 1
  | .empty => 2
  | .stop => 3
  | .lock => 4
  | .asleep => 5
  | .unlock none => 5
  | .notify_all => 5
  | .block => 6
  | .sub_active => 6
  | .pause => 7
  | .add_completed => 7
  | .run _ => 8
  | .sub_queued _ => 9
  | .add_active _ => 10
  | .unlock (some _) => 11
  | .return => 0
  | .exited => 0

theorem cycleRank_lt (hs : s.workerStep w = some t) (hstop : s.pool.stop_ = false)
    (halive : gone (s.worker w) = false) (htasks : s.pool.tasks_ ≠ []) :
    cycleRank (t.worker w) < cycleRank (s.worker w) ∨
      ∃ task, s.pool.tasks_ = task :: t.pool.tasks_ := by
  cases hpc : s.worker w with
  | pop =>
    simp only [workerStep, hpc] at hs
    split at hs
    · rename_i hempty
      exact absurd hempty htasks
    · rename_i task tasks hcons
      cases hs
      exact Or.inr ⟨task, hcons⟩
  | unlock task =>
    cases task
    all_goals
      simp only [workerStep, hpc] at hs
      cases hs
      simp [setWorker, cycleRank]
  | asleep => simp [workerStep, hpc] at hs
  | exited => simp [workerStep, hpc] at hs
  | «return» =>
    rw [hpc] at halive
    cases halive
  | _ =>
    simp only [workerStep, hpc, hstop, htasks, Bool.false_eq_true, false_and, if_false] at hs
    try split_ifs at hs
    all_goals
      cases hs
      simp [setWorker, cycleRank]

theorem cycleRank_le (pc : WorkerPc) : cycleRank pc ≤ 11 := by
  cases pc with
  | unlock task => cases task <;> simp [cycleRank]
  | _ => simp [cycleRank]

/-- A step of a worker takes the task, or another one that is before it, or none. -/
theorem WorkerMove.idxOf {pc : WorkerPc} (hm : WorkerMove s t v pc) (hk : k ∈ s.pool.tasks_) :
    inFlight (t.worker v) = some k ∨ k ∈ t.pool.tasks_ ∧
      (t.pool.tasks_ = s.pool.tasks_ ∨ s.pool.tasks_.idxOf k = t.pool.tasks_.idxOf k + 1) := by
  cases hm.moves with
  | stay htasks => exact Or.inr ⟨htasks ▸ hk, Or.inl htasks⟩
  | finish _ htasks => exact Or.inr ⟨htasks ▸ hk, Or.inl htasks⟩
  | take task htasks _ hafter =>
    by_cases htask : task = k
    · rw [hm.self, hafter, htask]
      exact Or.inl rfl
    · rw [htasks] at hk
      refine Or.inr ⟨(List.mem_cons.mp hk).resolve_left (Ne.symm htask), Or.inr ?_⟩
      rw [htasks, List.idxOf_cons_ne _ htask]

section
variable [DecidableEq κ] {c : κ}

theorem CallerMove.idxOf {pc : CallerPc} (hm : CallerMove s t c pc) (hk : k ∈ s.pool.tasks_) :
    k ∈ t.pool.tasks_ ∧ t.pool.tasks_.idxOf k = s.pool.tasks_.idxOf k := by
  rcases hm.tasks with ⟨htasks, -⟩ | ⟨htasks, -⟩
  · rw [htasks]
    exact ⟨hk, rfl⟩
  · rw [htasks, List.idxOf_append_of_mem hk]
    exact ⟨List.mem_append_left _ hk, rfl⟩

/-- The rank of the owner, if that is not the worker `w`. -/
def otherRank (w : Nat) (s : System κ) : Nat := if s.mtx_ = some (.inl w) then 0 else ownerRank s

/-- How far the task `k` is from the hands of a worker, where `w` is the one that goes for it. -/
def rank (w k : Nat) (s : System κ) : Nat :=
  100 * s.pool.tasks_.idxOf k + 12 * otherRank w s + cycleRank (s.worker w)

theorem otherRank_le (w : Nat) (s : System κ) : otherRank w s ≤ ownerRank s := by
  unfold otherRank
  split_ifs
  · exact Nat.zero_le _
  · exact Nat.le_refl _

/-- A worker has the task and is about to run it. -/
def Held (k : Nat) (s : System κ) : Prop := ∃ v < s.threads, inFlight (s.worker v) = some k

/-- The owner of the mutex goes on. -/
theorem Running.owner_toward (h : Running s) {u : Nat ⊕ κ} (hu : s.mtx_ = some u)
    (huw : u ≠ .inl w) (hw : w < s.threads) (hk : k ∈ s.pool.tasks_) :
    ∃ a t, NoCall a ∧ s.step a = some t ∧ Running t ∧ t.pool.pause_ = s.pool.pause_ ∧
      w < t.threads ∧ (Held k t ∨ k ∈ t.pool.tasks_ ∧ rank w k t < rank w k s) := by
  obtain ⟨a, t, ha, hs, hrunning, hpause, hlt, hmove⟩ := h.owner_step hu
  have hother : otherRank w t < otherRank w s := by
    have hown : otherRank w s = ownerRank s := if_neg (by rw [hu, Option.some.injEq]; exact huw)
    rw [hown]
    exact Nat.lt_of_le_of_lt (otherRank_le w t) hlt
  cases hmove with
  | @worker v pc hm =>
    refine ⟨a, t, ha, hs, hrunning, hpause, hm.threads ▸ hw, ?_⟩
    have hsame : t.worker w = s.worker w := hm.other fun hwv => huw (by rw [hwv])
    rcases hm.idxOf hk with hheld | ⟨hkt, hidx⟩
    · exact Or.inl ⟨v, hm.threads ▸ hm.live, hheld⟩
    · refine Or.inr ⟨hkt, ?_⟩
      unfold rank
      rw [hsame]
      rcases hidx with htasks | hidx
      · rw [htasks]
        omega
      · omega
  | @caller c pc hm =>
    obtain ⟨hkt, hidx⟩ := hm.idxOf hk
    refine ⟨a, t, ha, hs, hrunning, hpause, Nat.lt_of_lt_of_le hw hm.threads, Or.inr ⟨hkt, ?_⟩⟩
    have hcycle : cycleRank (t.worker w) ≤ cycleRank (s.worker w) := by
      rcases hm.worker w with hsame | ⟨-, hasleep, hawake⟩
      · rw [hsame]
      · rw [hasleep, hawake]
        decide
    unfold rank
    omega

/-- The worker `w` goes on: the mutex is free, or its own. -/
theorem Running.worker_toward (h : Running s) (hmtx : s.mtx_ = none ∨ s.mtx_ = some (.inl w))
    (hw : w < s.threads) (hk : k ∈ s.pool.tasks_) :
    ∃ a t, NoCall a ∧ s.step a = some t ∧ Running t ∧ t.pool.pause_ = s.pool.pause_ ∧
      w < t.threads ∧ (Held k t ∨ k ∈ t.pool.tasks_ ∧ rank w k t < rank w k s) := by
  by_cases hasleep : s.worker w = .asleep
  · -- it wakes up by itself
    have hs : s.step (.spurious (.inl w)) = some (s.setWorker w .lock) := if_pos hasleep
    refine ⟨.spurious (.inl w), _, trivial, hs, running_step h (by simp) hs, rfl, hw,
      Or.inr ⟨hk, ?_⟩⟩
    have hother : otherRank w (s.setWorker w .lock) = otherRank w s := by
      rcases hmtx with hmtx | hmtx <;> simp [otherRank, ownerRank, setWorker, hmtx]
    simp only [rank, hother, hasleep]
    simp [setWorker, cycleRank]
  · have hlock : s.worker w = .lock → s.mtx_ = none := by
      intro hpc
      apply hmtx.resolve_right
      intro hown
      have hinside := (h.inv.guards (.inl w)).mpr hown
      simp [inside, hpc, workerInside] at hinside
    have hexited : s.worker w ≠ .exited := by
      intro hpc
      have halive := h.alive w
      rw [hpc] at halive
      cases halive
    obtain ⟨t, hworker⟩ := exists_workerStep hasleep hexited hlock
    have hs : s.step (.worker w) = some t := by rw [step, if_pos hw, hworker]
    obtain ⟨pc, hm⟩ := exists_workerMove hw hworker
    refine ⟨.worker w, t, trivial, hs, running_step h (by simp) hs,
      (turn_workerStep hworker).pause, hm.threads ▸ hw, ?_⟩
    have hother : otherRank w t = 0 := by
      have hp := hm.mutex
      unfold otherRank ownerRank
      generalize s.mtx_ = before at hp hmtx
      generalize t.mtx_ = after at hp ⊢
      cases hp with
      | enter => exact if_pos rfl
      | leave => rfl
      | stay =>
        rcases hmtx with rfl | rfl
        · rfl
        · exact if_pos rfl
    rcases hm.idxOf hk with hheld | ⟨hkt, hidx⟩
    · exact Or.inl ⟨w, hm.threads ▸ hw, hheld⟩
    · refine Or.inr ⟨hkt, ?_⟩
      have hbound := cycleRank_le (t.worker w)
      unfold rank
      rw [hother]
      rcases hidx with htasks | hidx
      · have hlt := (cycleRank_lt hworker h.stop (h.alive w) (List.ne_nil_of_mem hk)).resolve_right
          (by rw [htasks]; rintro ⟨task, htake⟩; exact List.cons_ne_self _ _ htake.symm)
        rw [htasks]
        omega
      · omega

/-- A task in the queue comes into the hands of a worker. -/
theorem Running.exists_held (h : Running s) (hw : w < s.threads) (hk : k ∈ s.pool.tasks_) :
    ∃ as t, (∀ a ∈ as, NoCall a) ∧ run step s as = some t ∧ Running t ∧
      t.pool.pause_ = s.pool.pause_ ∧ Held k t := by
  obtain ⟨as, t, has, ht, ⟨hrunning, hpause, -, -⟩, hheld⟩ : ∃ as t, (∀ a ∈ as, NoCall a) ∧
      run step s as = some t ∧ (Running t ∧ t.pool.pause_ = s.pool.pause_ ∧ w < t.threads ∧
        (Held k t ∨ k ∈ t.pool.tasks_)) ∧ Held k t := by
    apply exists_run_of_rank (rank w k) ?_ ⟨h, rfl, hw, Or.inr hk⟩
    rintro u ⟨hu, hpause, hwu, hheld | hku⟩
    · exact Or.inl hheld
    · have htoward : ∃ a t, NoCall a ∧ u.step a = some t ∧ Running t ∧
          t.pool.pause_ = u.pool.pause_ ∧ w < t.threads ∧
          (Held k t ∨ k ∈ t.pool.tasks_ ∧ rank w k t < rank w k u) := by
        cases hmtx : u.mtx_ with
        | none => exact hu.worker_toward (Or.inl hmtx) hwu hku
        | some o =>
          by_cases ho : o = .inl w
          · exact hu.worker_toward (Or.inr (ho ▸ hmtx)) hwu hku
          · exact hu.owner_toward hmtx ho hwu hku
      obtain ⟨a, t, ha, ht, hrunning, hsame, hwt, htoward⟩ := htoward
      exact Or.inr ⟨a, t, ha, ht, ⟨hrunning, hsame.trans hpause, hwt, htoward.imp_right And.left⟩,
        htoward.imp_right And.right⟩
  exact ⟨as, t, has, ht, hrunning, hpause, hheld⟩

theorem exists_run_of_held (h : Held k s) :
    ∃ as t, (∀ a ∈ as, NoCall a) ∧ run step s as = some t ∧ t.pool.pause_ = s.pool.pause_ ∧
      ∃ v, t.worker v = .run k := by
  obtain ⟨v, hv, hheld⟩ := h
  obtain ⟨n, t, ht, hpause, hrun⟩ : ∃ n t, run step s (workerSteps v n) = some t ∧
      t.pool.pause_ = s.pool.pause_ ∧ t.worker v = .run k := by
    cases hpc : s.worker v with
    | unlock task =>
      rw [hpc] at hheld
      cases hheld
      refine ⟨3, ?_⟩
      simp [workerSteps, run, step, workerStep, setWorker, hv, hpc]
    | add_active task =>
      rw [hpc] at hheld
      cases hheld
      refine ⟨2, ?_⟩
      simp [workerSteps, run, step, workerStep, setWorker, hv, hpc]
    | sub_queued task =>
      rw [hpc] at hheld
      cases hheld
      refine ⟨1, ?_⟩
      simp [workerSteps, run, step, workerStep, setWorker, hv, hpc]
    | run task =>
      rw [hpc] at hheld
      cases hheld
      exact ⟨0, s, rfl, rfl, hpc⟩
    | _ =>
      rw [hpc] at hheld
      cases hheld
  refine ⟨workerSteps v n, t, ?_, ht, hpause, v, hrun⟩
  intro a ha
  rw [List.eq_of_mem_replicate ha]
  trivial

/-- Every task that is accepted and not finished can be run. -/
theorem Running.exists_run (h : Running s) (hlive : 0 < s.threads) (hk : k < s.accepted)
    (hunfinished : k ∉ s.finished) :
    ∃ as t, (∀ a ∈ as, NoCall a) ∧ run step s as = some t ∧ t.pool.pause_ = s.pool.pause_ ∧
      ∃ v, t.worker v = .run k := by
  obtain ⟨place, hplace⟩ := (h.inv.accepted k).mp hk
  cases place with
  | queue =>
    obtain ⟨as, t, has, ht, -, hpause, hheld⟩ := h.exists_held hlive hplace
    obtain ⟨bs, u, hbs, hu, hpause', hrun⟩ := exists_run_of_held hheld
    refine ⟨as ++ bs, u, ?_, run_append ht hu, hpause'.trans hpause, hrun⟩
    intro a ha
    exact (List.mem_append.mp ha).elim (has a) (hbs a)
  | worker v =>
    have hheld : inFlight (s.worker v) = some k := Option.mem_toList.mp hplace
    have hv : v < s.threads := by
      by_contra hlt
      rw [h.inv.absent v (by omega)] at hheld
      cases hheld
    exact exists_run_of_held ⟨v, hv, hheld⟩
  | finished => exact absurd hplace hunfinished

/-! ## A new task -/

/-- The mutex comes free while the caller waits for it. -/
theorem Running.exists_free (h : Running s) (hpc : s.caller c = .enqueue_lock) :
    ∃ as t, (∀ a ∈ as, NoCall a) ∧ run step s as = some t ∧ Running t ∧
      t.pool.pause_ = s.pool.pause_ ∧ t.caller c = .enqueue_lock ∧ s.accepted ≤ t.accepted ∧
      s.threads ≤ t.threads ∧ t.mtx_ = none := by
  obtain ⟨as, t, has, ht, ⟨hrunning, hpause, hcaller, haccepted, hthreads⟩, hfree⟩ : ∃ as t,
      (∀ a ∈ as, NoCall a) ∧ run step s as = some t ∧ (Running t ∧
        t.pool.pause_ = s.pool.pause_ ∧ t.caller c = .enqueue_lock ∧ s.accepted ≤ t.accepted ∧
        s.threads ≤ t.threads) ∧ t.mtx_ = none := by
    apply exists_run_of_rank ownerRank ?_ ⟨h, rfl, hpc, Nat.le_refl _, Nat.le_refl _⟩
    rintro u ⟨hu, hpause, hcaller, haccepted, hthreads⟩
    cases hmtx : u.mtx_ with
    | none => exact Or.inl rfl
    | some o =>
      obtain ⟨a, t, ha, ht, hrunning, hsame, hlt, hmove⟩ := hu.owner_step hmtx
      refine Or.inr ⟨a, t, ha, ht, ⟨hrunning, hsame.trans hpause, ?_⟩, Or.inr hlt⟩
      cases hmove with
      | @worker v pc hm =>
        refine ⟨?_, hm.accepted ▸ haccepted, hm.threads ▸ hthreads⟩
        rcases hm.caller c with hsame | ⟨hasleep, -⟩
        · rw [hsame, hcaller]
        · rw [hcaller] at hasleep
          cases hasleep
      | @caller d pc hm =>
        refine ⟨?_, haccepted.trans hm.accepted_le, hthreads.trans hm.threads⟩
        have hcd : c ≠ d := by
          rintro rfl
          have hinside := (hu.inv.guards (.inr c)).mpr hmtx
          simp [inside, hcaller, callerInside] at hinside
        rw [hm.other hcd, hcaller]
  exact ⟨as, t, has, ht, hrunning, hpause, hcaller, haccepted, hthreads, hfree⟩

/-- The call is neither `Resume` nor `Shutdown`, and `NoCall` is none at all. -/
def Calm (a : Action κ) : Prop := ∀ d, a ≠ .call d .Resume ∧ a ≠ .call d .Shutdown

omit [DecidableEq κ] in
theorem NoCall.calm {a : Action κ} (h : NoCall a) : Calm a := by
  intro d
  constructor <;>
  · rintro rfl
    exact h

omit [DecidableEq κ] in
theorem calm_of_not_mem {as : List (Action κ)} (hresume : ∀ d, .call d .Resume ∉ as)
    (hshutdown : ∀ d, .call d .Shutdown ∉ as) : ∀ a ∈ as, Calm a := by
  intro a ha d
  exact ⟨fun h => hresume d (h ▸ ha), fun h => hshutdown d (h ▸ ha)⟩

/-- An idle caller can enqueue a task, and start a thread for it first. -/
theorem Running.exists_accepted (h : Running s) (hidle : s.caller c = .idle) :
    ∃ as t k, (∀ a ∈ as, Calm a) ∧ run step s as = some t ∧ Running t ∧
      t.pool.pause_ = s.pool.pause_ ∧ 0 < t.threads ∧ s.accepted ≤ k ∧ k < t.accepted ∧
      k ∉ t.finished := by
  obtain ⟨u, hu, hpause, hcaller, haccepted, hthreads⟩ : ∃ u,
      run step s [.call c (.Resize 1), .caller c none, .caller c none, .call c .Enqueue] = some u ∧
        u.pool.pause_ = s.pool.pause_ ∧ u.caller c = .enqueue_lock ∧ u.accepted = s.accepted ∧
        u.threads = s.threads + 1 := by
    simp [run, step, callerStep, setCaller, enter, hidle]
  have hrunning := running_run h (by simp) hu
  obtain ⟨as, v, has, hv, hfree, hpause', hlock, hle, hle', hmtx⟩ := hrunning.exists_free hcaller
  obtain ⟨t, ht, hpause'', hthreads', haccepted', hfinished⟩ : ∃ t,
      run step v [.caller c none, .caller c none] = some t ∧ t.pool.pause_ = v.pool.pause_ ∧
        t.threads = v.threads ∧ t.accepted = v.accepted + 1 ∧ t.finished = v.finished := by
    simp [run, step, callerStep, setCaller, hlock, hmtx]
  refine ⟨_, t, v.accepted, ?_, run_append (run_append hu hv) ht, running_run hfree (by simp) ht,
    by rw [hpause'', hpause', hpause], by omega, by omega, by omega, ?_⟩
  · intro a ha
    rcases List.mem_append.mp ha with ha | ha
    · rcases List.mem_append.mp ha with ha | ha
      · exact calm_of_not_mem (by simp) (by simp) a ha
      · exact (has a ha).calm
    · exact calm_of_not_mem (by simp) (by simp) a ha
  · intro hmem
    rw [hfinished] at hmem
    exact absurd ((hfree.inv.accepted v.accepted).mpr ⟨.finished, hmem⟩) (Nat.lt_irrefl _)

end

end System

end LegacyThreadPool

end bridges

end sci
