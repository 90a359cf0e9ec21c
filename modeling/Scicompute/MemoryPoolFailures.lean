-- A chunk allocation that throws. The legacy `Allocate` sets `is_expanding_` before it calls
-- `Expand` and clears it afterwards; when `operator new[]` throws in between, nothing clears it.
import Scicompute.MemoryPoolRuns

open Transition

namespace sci.pools

/-- The thread is between the two writes of `is_expanding_` in the legacy `Allocate`. -/
def Pc.expanding : Pc → Bool
  | .expand _ .allocate => true
  | .end_expanding => true
  | _ => false

namespace LockFreeStack

variable (v : Version) (p : FixedSizeMemoryPool) (weak : Bool)

theorem Push_is_expanding_ (node : Nat) (op : PushPc) :
    (Push v p node weak op).1.is_expanding_ = p.is_expanding_ := by
  cases op with
  | compare_exchange expected =>
    simp only [Push]
    split_ifs <;> rfl
  | _ => rfl

theorem Pop_is_expanding_ (op : PopPc) :
    (Pop p weak op).1.is_expanding_ = p.is_expanding_ := by
  cases op with
  | compare_exchange head next =>
    simp only [Pop]
    split_ifs <;> rfl
  | _ => rfl

end LockFreeStack

/-- The thread of an action. -/
def PoolAction.thread {ι : Type*} : PoolAction ι → ι
  | .allocate t => t
  | .deallocate t _ => t
  | .expand t => t
  | .use t _ _ => t
  | .step t _ => t
  | .new t _ => t

namespace PoolSystem

variable {ι : Type*} [DecidableEq ι] {s s' : PoolSystem ι} {t u : ι} {a : PoolAction ι}

/-! ## One thread moves -/

theorem finish_pool (s : PoolSystem ι) (t : ι) (ptr : Nat) : (s.finish t ptr).pool = s.pool := by
  unfold finish
  split_ifs <;> rfl

theorem endExpand_pool (s : PoolSystem ι) (v : Version) (t : ι) (caller : Caller) :
    (s.endExpand v t caller).pool = s.pool := by
  cases caller <;> cases v <;> rfl

theorem afterPop_pool (s : PoolSystem ι) (v : Version) (t : ι) (second : Bool) (ptr : Nat) :
    (s.afterPop v t second ptr).pool = s.pool := by
  unfold afterPop
  cases v <;> simp only <;> split_ifs <;> simp [finish_pool, setPc]

variable (s t) in
theorem finish_of_ne (ptr : Nat) (hu : u ≠ t) : (s.finish t ptr).pc u = s.pc u := by
  unfold finish
  split_ifs
  · exact s.setPc_of_ne t _ hu
  · exact s.setPc_of_ne t _ hu

variable (s t) in
theorem endExpand_of_ne (v : Version) (caller : Caller) (hu : u ≠ t) :
    (s.endExpand v t caller).pc u = s.pc u := by
  cases caller <;> cases v <;> exact s.setPc_of_ne t _ hu

variable (s t) in
theorem afterPop_of_ne (v : Version) (second : Bool) (ptr : Nat) (hu : u ≠ t) :
    (s.afterPop v t second ptr).pc u = s.pc u := by
  unfold afterPop
  cases v with
  | memory =>
    simp only
    split_ifs
    · exact s.setPc_of_ne t _ hu
    · exact s.finish_of_ne t ptr hu
  | legacy_pool =>
    simp only
    split_ifs
    · exact s.setPc_of_ne t _ hu
    · exact s.finish_of_ne t ptr hu
    · exact s.setPc_of_ne t _ hu

theorem Expand_of_ne {v : Version} {weak : Bool} {caller : Caller} {op : ExpandPc}
    (h : s.Expand v t weak caller op = some s') (hu : u ≠ t) : s'.pc u = s.pc u := by
  cases op with
  | check_limit =>
    simp only [Expand] at h
    split_ifs at h
    all_goals cases h
    · exact s.endExpand_of_ne t v caller hu
    · exact s.setPc_of_ne t _ hu
  | lock =>
    simp only [Expand] at h
    split_ifs at h
    all_goals
      cases h
      exact s.setPc_of_ne t _ hu
  | new_chunk => cases h
  | push_back page blocks =>
    simp only [Expand] at h
    split_ifs at h
    cases h
    exact s.setPc_of_ne t _ hu
  | carve page i blocks =>
    simp only [Expand] at h
    split_ifs at h
    · cases h
      exact s.setPc_of_ne t _ hu
    · cases v
      all_goals cases h
      · exact s.endExpand_of_ne t .memory caller hu
      · exact s.setPc_of_ne t _ hu
  | push page i blocks op =>
    simp only [Expand] at h
    split at h
    · cases h
      exact s.setPc_of_ne t _ hu
    · cases v
      all_goals
        cases h
        exact s.setPc_of_ne t _ hu
  | count page i blocks =>
    cases h
    exact s.setPc_of_ne t _ hu
  | unlock =>
    cases h
    exact s.endExpand_of_ne t v caller hu

theorem threadStep_of_ne {v : Version} {weak : Bool} (h : s.threadStep v t weak = some s')
    (hu : u ≠ t) : s'.pc u = s.pc u := by
  cases hpc : s.pc t with
  | idle => simp [threadStep, hpc] at h
  | pop op second =>
    simp only [threadStep, hpc] at h
    split at h
    · cases h
      exact s.setPc_of_ne t _ hu
    · cases h
      exact afterPop_of_ne _ t v second _ hu
  | try_expanding =>
    simp only [threadStep, hpc] at h
    split_ifs at h
    all_goals
      cases h
      exact s.setPc_of_ne t _ hu
  | expand op caller =>
    simp only [threadStep, hpc] at h
    exact Expand_of_ne h hu
  | sub_freed ptr =>
    simp only [threadStep, hpc] at h
    cases h
    exact finish_of_ne _ t ptr hu
  | dealloc ptr op =>
    simp only [threadStep, hpc] at h
    split at h
    · cases h
      exact s.setPc_of_ne t _ hu
    · cases v
      all_goals
        cases h
        exact s.setPc_of_ne t _ hu
  | _ =>
    simp only [threadStep, hpc] at h
    cases h
    exact s.setPc_of_ne t _ hu

/-- An action moves its own thread only. -/
theorem step_of_ne {v : Version} (h : step v s a = some s') (hu : u ≠ a.thread) :
    s'.pc u = s.pc u := by
  cases a with
  | step t weak => exact threadStep_of_ne h hu
  | use t ptr value =>
    simp only [step] at h
    split_ifs at h
    cases h
    rfl
  | deallocate t ptr =>
    simp only [step] at h
    split at h
    · split_ifs at h
      all_goals cases h
      · rfl
      · exact s.setPc_of_ne t _ hu
    · cases h
  | new t page =>
    simp only [step, newStep] at h
    split at h
    · cases page with
      | none =>
        cases v
        all_goals
          cases h
          exact s.setPc_of_ne t _ hu
      | some page =>
        simp only at h
        split_ifs at h
        cases h
        exact s.setPc_of_ne t _ hu
    · cases h
  | _ =>
    simp only [step] at h
    split at h
    · cases h
      exact s.setPc_of_ne _ _ hu
    · cases h

/-! ## The flag -/

/-- What a step of the thread `t` does to `is_expanding_`. -/
inductive FlagMoves (s s' : PoolSystem ι) (t : ι) : Prop
  | stay (hflag : s'.pool.is_expanding_ = s.pool.is_expanding_)
      (hpc : (s'.pc t).expanding = (s.pc t).expanding)
  | enter (hflag : s.pool.is_expanding_ = false) (hflag' : s'.pool.is_expanding_ = true)
      (hpc : (s'.pc t).expanding = true)
  | leave (hpc : (s.pc t).expanding = true) (hpc' : (s'.pc t).expanding = false)

theorem endExpand_expanding (op : ExpandPc) (caller : Caller) :
    ((s.endExpand .legacy_pool t caller).pc t).expanding = (Pc.expand op caller).expanding := by
  cases caller <;> simp [endExpand, Pc.expanding]

theorem Expand_flag {weak : Bool} {caller : Caller} {op : ExpandPc}
    (h : s.Expand .legacy_pool t weak caller op = some s') :
    s'.pool.is_expanding_ = s.pool.is_expanding_ ∧
      (s'.pc t).expanding = (Pc.expand op caller).expanding := by
  have hany : ∀ op', (Pc.expand op' caller).expanding = (Pc.expand op caller).expanding := by
    intro op'
    cases caller <;> rfl
  have hset : ∀ op', ((s.setPc t (.expand op' caller)).pc t).expanding =
      (Pc.expand op caller).expanding := by
    intro op'
    rw [setPc_self]
    exact hany op'
  cases op with
  | check_limit =>
    simp only [Expand] at h
    split_ifs at h
    all_goals cases h
    · exact ⟨by rw [endExpand_pool], endExpand_expanding _ caller⟩
    · exact ⟨rfl, hset _⟩
  | lock =>
    simp only [Expand] at h
    split_ifs at h
    all_goals
      cases h
      exact ⟨rfl, hset _⟩
  | new_chunk => cases h
  | push_back page blocks =>
    simp only [Expand] at h
    split at h
    · cases h
    · cases h
      exact ⟨rfl, hset _⟩
  | carve page i blocks =>
    simp only [Expand] at h
    split_ifs at h
    all_goals
      cases h
      exact ⟨rfl, hset _⟩
  | push page i blocks op =>
    have hflag := LockFreeStack.Push_is_expanding_ .legacy_pool s.pool weak (s.pool.block page i) op
    simp only [Expand] at h
    split at h
    all_goals
      rename_i hpush
      rw [hpush] at hflag
      cases h
      exact ⟨hflag, hset _⟩
  | count page i blocks =>
    cases h
    exact ⟨rfl, hset _⟩
  | unlock =>
    cases h
    refine ⟨?_, endExpand_expanding _ caller⟩
    change (s.endExpand .legacy_pool t caller).pool.is_expanding_ = _
    rw [endExpand_pool]

theorem afterPop_not_expanding (second : Bool) (ptr : Nat) :
    ((s.afterPop .legacy_pool t second ptr).pc t).expanding = false := by
  unfold afterPop finish
  simp only
  split_ifs <;> simp [Pc.expanding]

theorem threadStep_flag {weak : Bool} (h : s.threadStep .legacy_pool t weak = some s') :
    FlagMoves s s' t := by
  cases hpc : s.pc t with
  | idle => simp [threadStep, hpc] at h
  | pop op second =>
    have hflag := LockFreeStack.Pop_is_expanding_ s.pool weak op
    simp only [threadStep, hpc] at h
    split at h
    all_goals
      rename_i hpop
      rw [hpop] at hflag
      cases h
      apply FlagMoves.stay
    · exact hflag
    · simp [hpc, Pc.expanding]
    · rw [afterPop_pool]
      exact hflag
    · rw [afterPop_not_expanding, hpc]
      rfl
  | try_expanding =>
    simp only [threadStep, hpc] at h
    split_ifs at h with hset
    · cases h
      exact .stay rfl (by simp [hpc, Pc.expanding])
    · cases h
      exact .enter (by simpa using hset) rfl (by simp [Pc.expanding])
  | expand op caller =>
    simp only [threadStep, hpc] at h
    obtain ⟨hflag, hexp⟩ := Expand_flag h
    exact .stay hflag (by rw [hexp, hpc])
  | end_expanding =>
    simp only [threadStep, hpc] at h
    cases h
    exact .leave (by rw [hpc]; rfl) (by simp [Pc.expanding])
  | sub_freed ptr =>
    simp only [threadStep, hpc] at h
    cases h
    apply FlagMoves.stay
    · rw [finish_pool]
    · unfold finish
      split_ifs <;> simp [hpc, Pc.expanding]
  | dealloc ptr op =>
    have hflag := LockFreeStack.Push_is_expanding_ .legacy_pool s.pool weak ptr op
    simp only [threadStep, hpc] at h
    split at h
    all_goals
      rename_i hpush
      rw [hpush] at hflag
      cases h
      exact .stay hflag (by simp [hpc, Pc.expanding])
  | add_freed =>
    simp only [threadStep, hpc] at h
    cases h
    exact .stay rfl (by simp [hpc, Pc.expanding])

theorem step_flag (h : step .legacy_pool s a = some s') : FlagMoves s s' a.thread := by
  cases a with
  | step t weak => exact threadStep_flag h
  | use t ptr value =>
    simp only [step] at h
    split_ifs at h
    cases h
    exact .stay rfl rfl
  | deallocate t ptr =>
    simp only [step] at h
    split at h
    · rename_i hpc
      split_ifs at h
      all_goals cases h
      · exact .stay rfl rfl
      · exact .stay rfl (by simp [PoolAction.thread, hpc, Pc.expanding])
    · cases h
  | new t page =>
    simp only [step, newStep] at h
    split at h
    · rename_i caller hpc
      cases page with
      | none =>
        cases h
        cases caller with
        | allocate =>
          apply FlagMoves.leave
          · simp [PoolAction.thread, hpc, Pc.expanding]
          · simp [PoolAction.thread, Pc.expanding]
        | user => exact .stay rfl (by simp [PoolAction.thread, hpc, Pc.expanding])
      | some page =>
        simp only at h
        split_ifs at h
        cases h
        refine .stay rfl ?_
        cases caller <;> simp [PoolAction.thread, hpc, Pc.expanding]
    · cases h
  | _ =>
    simp only [step] at h
    split at h
    · rename_i hpc
      cases h
      exact .stay rfl (by simp [PoolAction.thread, hpc, Pc.expanding])
    · cases h

/-- The flag is set while a thread expands the pool in `Allocate`, and no two threads do. -/
structure Guarded (s : PoolSystem ι) : Prop where
  flag : ∀ t, (s.pc t).expanding = true → s.pool.is_expanding_ = true
  unique : ∀ t u, (s.pc t).expanding = true → (s.pc u).expanding = true → t = u

/-- The flag is set, and no thread will clear it. -/
structure Stuck (s : PoolSystem ι) : Prop where
  flag : s.pool.is_expanding_ = true
  not_expanding : ∀ t, (s.pc t).expanding = false

theorem Guarded.step (h : s.Guarded) (hstep : step .legacy_pool s a = some s') : s'.Guarded := by
  have hother : ∀ u, u ≠ a.thread → s'.pc u = s.pc u := fun u hu => step_of_ne hstep hu
  cases step_flag hstep with
  | stay hflag hpc =>
    have hsame : ∀ u, (s'.pc u).expanding = (s.pc u).expanding := by
      intro u
      by_cases hu : u = a.thread
      · rw [hu, hpc]
      · rw [hother u hu]
    constructor
    · intro u hu
      rw [hflag]
      exact h.flag u (hsame u ▸ hu)
    · intro t u ht hu
      exact h.unique t u (hsame t ▸ ht) (hsame u ▸ hu)
  | enter hflag hflag' hpc =>
    -- no thread was expanding the pool
    have hnone : ∀ u, (s'.pc u).expanding = true → u = a.thread := by
      intro u hu
      by_contra hne
      rw [hother u hne] at hu
      have hset := h.flag u hu
      rw [hflag] at hset
      cases hset
    constructor
    · exact fun _ _ => hflag'
    · intro t u ht hu
      rw [hnone t ht, hnone u hu]
  | leave hpc hpc' =>
    have hnone : ∀ u, (s'.pc u).expanding ≠ true := by
      intro u hu
      by_cases hne : u = a.thread
      · rw [hne, hpc'] at hu
        cases hu
      · rw [hother u hne] at hu
        exact hne (h.unique u a.thread hu hpc)
    exact ⟨fun u hu => absurd hu (hnone u), fun u _ hu => absurd hu (hnone u)⟩

theorem Stuck.step (h : s.Stuck) (hstep : step .legacy_pool s a = some s') : s'.Stuck := by
  cases step_flag hstep with
  | stay hflag hpc =>
    constructor
    · rw [hflag, h.flag]
    · intro u
      by_cases hu : u = a.thread
      · rw [hu, hpc, h.not_expanding]
      · rw [step_of_ne hstep hu, h.not_expanding]
  | enter hflag =>
    rw [h.flag] at hflag
    cases hflag
  | leave hpc =>
    rw [h.not_expanding] at hpc
    cases hpc

/-- The chunk allocation of an `Allocate` throws. -/
theorem Guarded.stuck (h : s.Guarded) (hpc : s.pc t = .expand .new_chunk .allocate)
    (hthrow : PoolSystem.step .legacy_pool s (.new t none) = some s') : s'.Stuck := by
  have hexp : (s.pc t).expanding = true := by
    rw [hpc]
    rfl
  have hflag := h.flag t hexp
  simp only [PoolSystem.step, newStep, hpc] at hthrow
  cases hthrow
  refine ⟨hflag, ?_⟩
  intro u
  by_cases hu : u = t
  · simp [hu, Pc.expanding]
  · change ((s.setPc t .idle).pc u).expanding = false
    rw [s.setPc_of_ne t _ hu, Bool.eq_false_iff]
    intro hexp'
    exact hu (h.unique u t hexp' hexp)

/-- Without a free block, `Allocate` finds the flag and returns null. -/
theorem Stuck.allocate_null (h : s.Stuck) (hidle : s.pc u = .idle) (hhead : s.pool.head_ = 0)
    (w w' w'' : Bool) :
    run (PoolSystem.step .legacy_pool) s [.allocate u, .step u w, .step u w', .step u w''] =
      some s := by
  have hsame : Function.update s.pc u .idle = s.pc := by rw [← hidle, Function.update_eq_self]
  simp [run, PoolSystem.step, threadStep, hidle, setPc, LockFreeStack.Pop, LockFreeStack.test,
    hhead, afterPop, h.flag, finish, hsame]

/-! ## A call that runs alone -/

/-- What a call of `Allocate` by one thread alone has written when it has no chunk yet, where
`before` is the pool before the call. -/
def Pending (before p : FixedSizeMemoryPool) : Pc → Prop
  | .pop .load false => p = before
  | .pop (.read_next head) false => p = before ∧ head ≠ 0
  | .pop (.compare_exchange head _) false => p = before ∧ head ≠ 0
  | .try_expanding => p = before ∧ before.head_ = 0
  | .expand op caller =>
    (op = .check_limit ∨ op = .lock ∨ op = .new_chunk ∨ op = .unlock) ∧ caller = .allocate ∧
      p = { before with is_expanding_ := true } ∧ before.is_expanding_ = false ∧ before.head_ = 0
  | .dealloc _ _ | .add_freed => False
  | _ => True

variable {before : FixedSizeMemoryPool}

/-- The first pop of the call reads an empty free list, or goes on. -/
theorem pending_test {op : PopPc} {weak : Bool} {head : Nat} (hpc : s.pc t = .pop op false)
    (hpop : LockFreeStack.Pop s.pool weak op = (s.pool, LockFreeStack.test head))
    (hpool : s.pool = before) (hhead : head = 0 → before.head_ = 0)
    (h : s.threadStep .legacy_pool t weak = some s') : Pending before s'.pool (s'.pc t) := by
  simp only [threadStep, hpc, hpop, LockFreeStack.test] at h
  by_cases h0 : head = 0
  · rw [if_pos h0] at h
    cases h
    simpa [afterPop, setPc, Pending] using And.intro hpool (hhead h0)
  · rw [if_neg h0] at h
    cases h
    simpa [setPc, Pending] using And.intro hpool h0

/-- The first pop of the call. -/
theorem pending_pop {op : PopPc} {weak : Bool} (hpc : s.pc t = .pop op false)
    (h : Pending before s.pool (.pop op false))
    (hstep : s.threadStep .legacy_pool t weak = some s') : Pending before s'.pool (s'.pc t) := by
  cases op with
  | load => exact pending_test hpc rfl h (fun h0 => h ▸ h0) hstep
  | read_next head =>
    simp only [threadStep, hpc] at hstep
    cases hstep
    simpa [Pending] using h
  | compare_exchange head next =>
    by_cases hc : s.pool.head_ = head ∧ weak = false
    · simp only [threadStep, hpc, LockFreeStack.Pop, if_pos hc] at hstep
      cases hstep
      simp [afterPop, h.2, Pending]
    · exact pending_test hpc (by rw [LockFreeStack.Pop, if_neg hc]) h.1 (fun h0 => h.1 ▸ h0) hstep

theorem pending_step {weak : Bool} (h : Pending before s.pool (s.pc t))
    (hstep : s.threadStep .legacy_pool t weak = some s') : Pending before s'.pool (s'.pc t) := by
  cases hpc : s.pc t with
  | idle => simp [threadStep, hpc] at hstep
  | pop op second =>
    rw [hpc] at h
    cases second with
    | false => exact pending_pop hpc h hstep
    | true =>
      simp only [threadStep, hpc] at hstep
      split at hstep
      · cases hstep
        simp [Pending]
      · cases hstep
        unfold afterPop finish
        simp only
        split_ifs <;> simp_all [Pending]
  | try_expanding =>
    rw [hpc] at h
    obtain ⟨rfl, hhead⟩ := h
    simp only [threadStep, hpc] at hstep
    split_ifs at hstep with hflag
    · cases hstep
      simp [Pending]
    · cases hstep
      simpa [Pending] using And.intro hflag hhead
  | expand op caller =>
    rw [hpc] at h
    obtain ⟨hop, rfl, hpool, hbefore⟩ := h
    simp only [threadStep, hpc] at hstep
    rcases hop with rfl | rfl | rfl | rfl
    · simp only [Expand] at hstep
      split_ifs at hstep
      all_goals cases hstep
      · simp [endExpand, Pending]
      · simpa [setPc, Pending] using And.intro hpool hbefore
    · simp only [Expand] at hstep
      split_ifs at hstep
      all_goals
        cases hstep
        simpa [setPc, Pending] using And.intro hpool hbefore
    · cases hstep
    · cases hstep
      simp [endExpand, Pending]
  | end_expanding =>
    simp only [threadStep, hpc] at hstep
    cases hstep
    simp [Pending]
  | sub_freed ptr =>
    simp only [threadStep, hpc] at hstep
    cases hstep
    unfold finish
    split_ifs <;> simp [Pending]
  | dealloc ptr op =>
    rw [hpc] at h
    cases h
  | add_freed =>
    rw [hpc] at h
    cases h

theorem pending_run {weaks : List Bool} (h : Pending before s.pool (s.pc t))
    (hrun : run (step .legacy_pool) s (weaks.map (.step t)) = some s') :
    Pending before s'.pool (s'.pc t) := by
  induction weaks generalizing s with
  | nil =>
    cases hrun
    exact h
  | cons weak weaks ih =>
    obtain ⟨u, hu, hrest⟩ := (run_cons ..).mp hrun
    exact ih (pending_step h hu) hrest

/-- A call of `Allocate` that runs alone until its chunk allocation. -/
theorem pending_call {weaks : List Bool}
    (hcall : run (step .legacy_pool) s (.allocate t :: weaks.map (.step t)) = some s') :
    Pending s.pool s'.pool (s'.pc t) := by
  obtain ⟨u, hu, hrest⟩ := (run_cons ..).mp hcall
  refine pending_run (s := u) ?_ hrest
  simp only [step] at hu
  split at hu
  · cases hu
    simp [setPc, Pending]
  · cases hu

/-! ## Every throw -/

omit [DecidableEq ι] in
theorem guarded_start {p : FixedSizeMemoryPool} : (start (ι := ι) .legacy_pool p).Guarded :=
  ⟨fun _ h => absurd h Bool.false_ne_true, fun _ _ h => absurd h Bool.false_ne_true⟩

/-- When the chunk allocation of an `Allocate` throws, `is_expanding_` stays set for good and an
`Allocate` that finds no free block returns null. A call that ran alone found the flag clear, and
left the pool as it was but for the flag. -/
theorem a_throw_is_not_undone {p : FixedSizeMemoryPool} {as : List (PoolAction ι)}
    {s₁ s₂ : PoolSystem ι} (hrun : run (step .legacy_pool) (start .legacy_pool p) as = some s₁)
    (hpc : s₁.pc t = .expand .new_chunk .allocate)
    (hthrow : step .legacy_pool s₁ (.new t none) = some s₂) :
    (∀ bs s₃, run (step .legacy_pool) s₂ bs = some s₃ → s₃.pool.is_expanding_ = true ∧
      ∀ u, s₃.pc u = .idle → s₃.pool.head_ = 0 → ∀ w w' w'', run (step .legacy_pool) s₃
        [.allocate u, .step u w, .step u w', .step u w''] = some s₃) ∧
    ∀ (s : PoolSystem ι) (weaks : List Bool),
      run (step .legacy_pool) s (.allocate t :: weaks.map (.step t)) = some s₁ →
      s.pool.is_expanding_ = false ∧ s.pool.head_ = 0 ∧
        s₂.pool = { s.pool with is_expanding_ := true } := by
  have hguarded : s₁.Guarded :=
    invariant_of_run (fun _ _ _ h hstep => Guarded.step h hstep) guarded_start hrun
  have hstuck : s₂.Stuck := hguarded.stuck hpc hthrow
  constructor
  · intro bs s₃ hlater
    have hstuck' : s₃.Stuck :=
      invariant_of_run (fun _ _ _ h hstep => Stuck.step h hstep) hstuck hlater
    exact ⟨hstuck'.flag, fun u hidle hhead => hstuck'.allocate_null hidle hhead⟩
  · intro s weaks hcall
    have hpending := pending_call hcall
    rw [hpc] at hpending
    obtain ⟨-, -, hpool, hflag, hhead⟩ := hpending
    simp only [step, newStep, hpc] at hthrow
    cases hthrow
    exact ⟨hflag, hhead, hpool⟩

/-- A pool with one block, before and after a thread has got it. -/
def oneBlock : PoolSystem Bool :=
  start .legacy_pool ((construct .legacy_pool 16 1 4096 fun _ => 0).configure 0 none)

def getBlock : List (PoolAction Bool) := .allocate false :: steps false 4

/-- The next call, until its chunk allocation. -/
def getAnother : List (PoolAction Bool) :=
  .allocate false :: [false, false, false, false].map (.step false)

theorem a_throw_sets_the_flag : ∃ s s₁ s₂ : PoolSystem Bool,
    run (step .legacy_pool) oneBlock getBlock = some s ∧
    run (step .legacy_pool) s getAnother = some s₁ ∧
    step .legacy_pool s₁ (.new false none) = some s₂ ∧
    s₂.pool = { s.pool with is_expanding_ := true } := by
  obtain ⟨s, hs⟩ : ∃ s, run (step .legacy_pool) oneBlock getBlock = some s := ⟨_, rfl⟩
  obtain ⟨s₁, hs₁, hpc⟩ : ∃ s₁, run (step .legacy_pool) s getAnother = some s₁ ∧
      s₁.pc false = .expand .new_chunk .allocate := by
    cases hs
    exact ⟨_, rfl, rfl⟩
  obtain ⟨s₂, hs₂⟩ : ∃ s₂, step .legacy_pool s₁ (.new false none) = some s₂ := by
    simp [step, newStep, hpc]
  exact ⟨s, s₁, s₂, hs, hs₁, hs₂,
    ((a_throw_is_not_undone (run_append hs hs₁) hpc hs₂).2 s _ hs₁).2.2⟩

/-- The flag is clear before the call and set after it, and the next call gets null though no chunk
allocation fails again. -/
theorem the_pool_stays_empty_after_a_throw :
    (∃ s, run (step .legacy_pool) oneBlock getBlock = some s ∧ s.pool.is_expanding_ = false) ∧
    (∃ s, run (step .legacy_pool) oneBlock (getBlock ++ getAnother ++ [.new false none]) = some s ∧
      s.pool.is_expanding_ = true) ∧
    ∃ s, run (step .legacy_pool) oneBlock (getBlock ++ getAnother ++ [.new false none] ++
      .allocate false :: steps false 3 ++ [.allocate false]) = some s ∧ s.owned = [(false, 4096)] :=
  ⟨exists_of_any (by decide +kernel), exists_of_any (by decide +kernel),
    exists_of_any (by decide +kernel)⟩

end PoolSystem

end sci.pools
