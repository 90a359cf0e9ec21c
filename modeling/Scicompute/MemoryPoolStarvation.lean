-- The pools of blocks that run dry. After it has got a chunk, `Allocate` pops the free list once
-- more, and it returns null when the other threads have emptied the list by then.
import Scicompute.MemoryPoolFailures
import Scicompute.Supply

open Transition

namespace sci.pools

/-! ## The last pop of a call -/

/-- The thread is in the `Pop` whose result `Allocate` returns. -/
def Pc.lastPop : Pc → Bool
  | .pop _ true => true
  | _ => false

@[simp] theorem Pc.lastPop_pop (op : PopPc) (second : Bool) :
    (Pc.pop op second).lastPop = second := by
  cases second <;> rfl

def PopPc.NonNull : PopPc → Prop
  | .load => True
  | .read_next head => head ≠ 0
  | .compare_exchange head _ => head ≠ 0

/-- A place in the code of the version, with no null pointer for a block or a chunk. -/
def Pc.Valid (v : Version) : Pc → Prop
  | .pop op _ => op.NonNull
  | .try_expanding => v = .legacy_pool
  | .expand .check_limit _ => v = .legacy_pool
  | .expand .lock _ => v = .legacy_pool
  | .expand .unlock _ => v = .legacy_pool
  | .expand (.push_back page _) _ => page ≠ 0
  | .expand (.carve page _ _) _ => page ≠ 0
  | .expand (.push page _ _ _) _ => page ≠ 0
  | .expand (.count page _ _) _ => page ≠ 0
  | .dealloc ptr _ => ptr ≠ 0
  | _ => True

/-- The next step of the thread leaves the other threads their last pops, where `alone` says that no
other thread is in one. -/
def Pc.KeepsStock (v : Version) (p : FixedSizeMemoryPool) (weak : Bool) (alone : Prop) : Pc → Prop
  | .pop (.compare_exchange head next) _ => p.head_ = head → weak = false → next = 0 → alone
  | .try_expanding => p.is_expanding_ = true → p.head_ ≠ 0
  | .expand (.carve _ i blocks) .allocate => v = .memory → blocks ≤ i → p.head_ ≠ 0
  | .end_expanding => p.head_ ≠ 0
  | _ => True

instance (v : Version) (p : FixedSizeMemoryPool) (weak : Bool) (alone : Prop) [Decidable alone] :
    ∀ pc : Pc, Decidable (pc.KeepsStock v p weak alone)
  | .pop (.compare_exchange head next) _ =>
    inferInstanceAs (Decidable (p.head_ = head → weak = false → next = 0 → alone))
  | .try_expanding => inferInstanceAs (Decidable (p.is_expanding_ = true → p.head_ ≠ 0))
  | .expand (.carve _ i blocks) .allocate =>
    inferInstanceAs (Decidable (v = .memory → blocks ≤ i → p.head_ ≠ 0))
  | .end_expanding => inferInstanceAs (Decidable (p.head_ ≠ 0))
  | .idle | .pop .load _ | .pop (.read_next _) _ | .expand .check_limit _ | .expand .lock _
  | .expand .new_chunk _ | .expand (.push_back ..) _ | .expand (.push ..) _ | .expand (.count ..) _
  | .expand .unlock _ | .expand (.carve ..) .user | .sub_freed _ | .dealloc .. | .add_freed =>
    isTrue trivial

namespace LockFreeStack

variable (v : Version) (p : FixedSizeMemoryPool) (weak : Bool)

/-- A push leaves the head alone or sets it to its node. -/
theorem Push_head_ (node : Nat) (op : PushPc) :
    (Push v p node weak op).1.head_ = p.head_ ∨ (Push v p node weak op).1.head_ = node := by
  cases op with
  | compare_exchange expected =>
    simp only [Push]
    split_ifs
    · exact Or.inr rfl
    · exact Or.inl rfl
  | _ => exact Or.inl rfl

theorem test_eq (head : Nat) :
    (head = 0 ∧ test head = .inr 0) ∨ (head ≠ 0 ∧ test head = .inl (.read_next head)) := by
  unfold test
  by_cases h0 : head = 0
  · exact Or.inl ⟨h0, if_pos h0⟩
  · exact Or.inr ⟨h0, if_neg h0⟩

/-- What a step of a pop does. -/
inductive PopsTo (p : FixedSizeMemoryPool) (weak : Bool) (op : PopPc) :
    FixedSizeMemoryPool → PopPc ⊕ Nat → Prop
  /-- The list is empty. -/
  | null (hhead : p.head_ = 0) : PopsTo p weak op p (.inr 0)
  | goes {op' : PopPc} (hop : op'.NonNull) : PopsTo p weak op p (.inl op')
  /-- The compare-exchange succeeds. -/
  | takes {next : Nat} (hop : op = .compare_exchange p.head_ next) (hhead : p.head_ ≠ 0)
      (hweak : weak = false) : PopsTo p weak op { p with head_ := next } (.inr p.head_)

theorem Pop_popsTo {op : PopPc} (hop : op.NonNull) :
    PopsTo p weak op (Pop p weak op).1 (Pop p weak op).2 := by
  have htest : PopsTo p weak op p (test p.head_) := by
    rcases test_eq p.head_ with ⟨h0, heq⟩ | ⟨h0, heq⟩
    · rw [heq]
      exact .null h0
    · rw [heq]
      exact .goes h0
  cases op with
  | load => exact htest
  | read_next head => exact .goes hop
  | compare_exchange head next =>
    by_cases hc : p.head_ = head ∧ weak = false
    · simp only [Pop, if_pos hc]
      obtain ⟨rfl, hweak⟩ := hc
      exact .takes rfl hop hweak
    · simp only [Pop, if_neg hc]
      exact htest

end LockFreeStack

namespace PoolSystem

variable {ι : Type*} [DecidableEq ι] {s s' : PoolSystem ι} {t : ι} {a : PoolAction ι}

/-- The step returns null from `Allocate`. -/
def returnsNull (s : PoolSystem ι) : PoolAction ι → Bool
  | .step t weak =>
    match s.pc t with
    | .pop op true =>
      match (LockFreeStack.Pop s.pool weak op).2 with
      | .inl _ => false
      | .inr ptr => decide (ptr = 0)
    | _ => false
  | _ => false

/-- No `Allocate` starts its last `Pop` when the free list is empty, and no `Pop` empties the list
while another thread is in its last `Pop`. -/
def KeepsStock (v : Version) (s : PoolSystem ι) : PoolAction ι → Prop
  | .step t weak =>
    (s.pc t).KeepsStock v s.pool weak (∀ u, u ≠ t → (s.pc u).lastPop = false)
  | _ => True

instance [Fintype ι] (v : Version) (s : PoolSystem ι) : ∀ a, Decidable (s.KeepsStock v a)
  | .step t weak => inferInstanceAs (Decidable ((s.pc t).KeepsStock v s.pool weak _))
  | .allocate _ | .deallocate .. | .expand _ | .use .. | .new .. => isTrue trivial

/-- The free list is not empty while a thread is in its last `Pop`. -/
abbrev Supplied (v : Version) (s : PoolSystem ι) : Prop :=
  Supply.Supplied (Pc.Valid v) (fun (_ : Unit) => Pc.lastPop) s.pc fun _ => s.pool.head_ ≠ 0

/-- What a step of the thread `t` leaves behind. -/
abbrev Leaves (v : Version) (s s' : PoolSystem ι) (t : ι) : Prop :=
  Supply.Leaves (Pc.Valid v) (fun (_ : Unit) => Pc.lastPop) s.pc s'.pc (fun _ => s.pool.head_ ≠ 0)
    (fun _ => s'.pool.head_ ≠ 0) t

variable {v : Version}

omit [DecidableEq ι] in
/-- The head stays, and the thread is not in its last `Pop`. -/
theorem Leaves.of_head (hhead : s'.pool.head_ = s.pool.head_) (hvalid : (s'.pc t).Valid v)
    (hlast : (s'.pc t).lastPop = false) : Leaves v s s' t :=
  Supply.Leaves.of_full (fun _ h => hhead ▸ h) hvalid (fun _ => hlast)

omit [DecidableEq ι] in
/-- The list is not empty after the step. -/
theorem Leaves.of_ne (hhead : s'.pool.head_ ≠ 0) (hvalid : (s'.pc t).Valid v) :
    Leaves v s s' t := ⟨hvalid, fun _ _ => hhead, fun _ _ => Or.inl hhead⟩

theorem afterPop_place (s : PoolSystem ι) (v : Version) (t : ι) (second : Bool) (ptr : Nat) :
    ((s.afterPop v t second ptr).pc t).Valid v ∧
      ((s.afterPop v t second ptr).pc t).lastPop = false := by
  unfold afterPop finish
  cases v <;> simp only <;> split_ifs <;> simp [Pc.Valid, Pc.lastPop]

/-- A step of a pop. -/
theorem pop_leaves {op : PopPc} {second weak : Bool} (h : s.Supplied v)
    (hpc : s.pc t = .pop op second) (hok : s.KeepsStock v (.step t weak))
    (hstep : s.threadStep v t weak = some s') : Leaves v s s' t := by
  have hop : op.NonNull := by
    have := h.valid t
    rwa [hpc] at this
  have hpop := LockFreeStack.Pop_popsTo s.pool weak hop
  simp only [threadStep, hpc] at hstep
  generalize LockFreeStack.Pop s.pool weak op = result at hpop hstep
  obtain ⟨p', r⟩ := result
  cases hpop with
  | null hhead =>
    cases hstep
    obtain ⟨hvalid, hlast⟩ := s.afterPop_place v t second 0
    exact .of_head (by rw [afterPop_pool]) hvalid hlast
  | goes hop' =>
    cases hstep
    refine ⟨by simpa [Pc.Valid] using hop', ?_, fun _ => Or.inl⟩
    intro _ hlast
    apply h.stock () t
    rw [hpc, Pc.lastPop_pop]
    simpa using hlast
  | @takes next hop hhead hweak =>
    cases hstep
    obtain ⟨hvalid, hlast⟩ := afterPop_place _ v t second s.pool.head_
    refine ⟨hvalid, fun _ h => absurd (hlast.symm.trans h) Bool.false_ne_true, fun _ _ => ?_⟩
    rw [afterPop_pool]
    simp only [KeepsStock, hpc, hop, Pc.KeepsStock] at hok
    by_cases hempty : next = 0
    · exact Or.inr (hok trivial hweak hempty)
    · exact Or.inl hempty

omit [DecidableEq ι] in
/-- A step of a push. -/
theorem push_leaves {node : Nat} {op : PushPc} {weak : Bool} {p : FixedSizeMemoryPool}
    {r : Option PushPc} (hnode : node ≠ 0)
    (hpush : LockFreeStack.Push v s.pool node weak op = (p, r)) (hpool : s'.pool = p)
    (hvalid : (s'.pc t).Valid v) (hlast : (s'.pc t).lastPop = false) : Leaves v s s' t := by
  have hheads := LockFreeStack.Push_head_ v s.pool weak node op
  rw [hpush] at hheads
  rcases hheads with hhead | hhead
  · refine .of_head ?_ hvalid hlast
    rw [hpool, hhead]
  · refine .of_ne ?_ hvalid
    rw [hpool, hhead]
    exact hnode

/-- `Expand` returns. -/
theorem endExpand_leaves {caller : Caller}
    (hok : v = .memory → caller = .allocate → s.pool.head_ ≠ 0) (hpool : s'.pool = s.pool)
    (hpc : s'.pc = (s.endExpand v t caller).pc) : Leaves v s s' t := by
  have hhead : s'.pool.head_ = s.pool.head_ := by rw [hpool]
  cases caller with
  | user =>
    refine .of_head hhead ?_ ?_
    · simp [hpc, endExpand, Pc.Valid]
    · simp [hpc, endExpand, Pc.lastPop]
  | allocate =>
    cases v with
    | memory =>
      refine .of_ne (hhead ▸ hok rfl rfl) ?_
      simp [hpc, endExpand, Pc.Valid, PopPc.NonNull]
    | legacy_pool =>
      refine .of_head hhead ?_ ?_
      · simp [hpc, endExpand, Pc.Valid]
      · simp [hpc, endExpand, Pc.lastPop]

theorem expand_leaves {op : ExpandPc} {caller : Caller} {weak : Bool} (h : s.Supplied v)
    (hpc : s.pc t = .expand op caller) (hok : s.KeepsStock v (.step t weak))
    (hstep : s.Expand v t weak caller op = some s') : Leaves v s s' t := by
  have hplace := h.valid t
  rw [hpc] at hplace
  have hset : ∀ (op' : ExpandPc) (p : FixedSizeMemoryPool) (mtx : Option ι),
      p.head_ = s.pool.head_ → (Pc.expand op' caller).Valid v →
      Leaves v s { s.setPc t (.expand op' caller) with pool := p, mtx_ := mtx } t :=
    fun op' p mtx hhead hop => .of_head hhead (by simpa using hop) (by simp [Pc.lastPop])
  cases op with
  | check_limit =>
    obtain rfl : v = .legacy_pool := hplace
    simp only [Expand] at hstep
    split_ifs at hstep
    all_goals cases hstep
    · exact endExpand_leaves (fun h => by cases h) (endExpand_pool ..) rfl
    · exact hset _ _ _ rfl rfl
  | lock =>
    simp only [Expand] at hstep
    split_ifs at hstep
    all_goals cases hstep
    · exact hset _ _ _ rfl hplace
    · exact hset _ _ _ rfl trivial
  | new_chunk => cases hstep
  | push_back page blocks =>
    simp only [Expand] at hstep
    split at hstep
    · cases hstep
    · cases hstep
      exact hset _ _ _ rfl hplace
  | carve page i blocks =>
    simp only [Expand] at hstep
    split_ifs at hstep with hi
    · cases hstep
      exact hset _ _ _ rfl hplace
    · cases v with
      | memory =>
        cases hstep
        refine endExpand_leaves ?_ (endExpand_pool ..) rfl
        rintro - rfl
        simp only [KeepsStock, hpc, Pc.KeepsStock] at hok
        exact hok trivial (Nat.le_of_not_lt hi)
      | legacy_pool =>
        cases hstep
        exact hset _ _ _ rfl rfl
  | push page i blocks op =>
    have hnode : s.pool.block page i ≠ 0 := by
      have hpage : page ≠ 0 := hplace
      unfold FixedSizeMemoryPool.block
      omega
    simp only [Expand] at hstep
    split at hstep
    · rename_i hpush
      cases hstep
      exact push_leaves hnode hpush rfl
        (by simpa [Pc.Valid] using hplace) (by simp [Pc.lastPop])
    · rename_i hpush
      cases v
      all_goals
        cases hstep
        exact push_leaves hnode hpush rfl
          (by simpa [Pc.Valid] using hplace) (by simp [Pc.lastPop])
  | count page i blocks =>
    cases hstep
    exact hset _ _ _ rfl hplace
  | unlock =>
    obtain rfl : v = .legacy_pool := hplace
    cases hstep
    exact endExpand_leaves (fun h => by cases h) (endExpand_pool ..) rfl

theorem threadStep_leaves {weak : Bool} (h : s.Supplied v) (hok : s.KeepsStock v (.step t weak))
    (hstep : s.threadStep v t weak = some s') : Leaves v s s' t := by
  have hplace := h.valid t
  cases hpc : s.pc t with
  | idle => simp [threadStep, hpc] at hstep
  | pop op second => exact pop_leaves h hpc hok hstep
  | try_expanding =>
    rw [hpc] at hplace
    simp only [KeepsStock, hpc, Pc.KeepsStock] at hok
    simp only [threadStep, hpc] at hstep
    split_ifs at hstep with hflag
    · cases hstep
      exact .of_ne (hok hflag) (by simp [Pc.Valid, PopPc.NonNull])
    · cases hstep
      exact .of_head rfl (by simpa [Pc.Valid] using hplace) (by simp [Pc.lastPop])
  | expand op caller =>
    simp only [threadStep, hpc] at hstep
    exact expand_leaves h hpc hok hstep
  | end_expanding =>
    simp only [KeepsStock, hpc, Pc.KeepsStock] at hok
    simp only [threadStep, hpc] at hstep
    cases hstep
    exact .of_ne hok (by simp [Pc.Valid, PopPc.NonNull])
  | sub_freed ptr =>
    simp only [threadStep, hpc] at hstep
    cases hstep
    apply Leaves.of_head
    · rw [finish_pool]
    · unfold finish
      split_ifs <;> simp [Pc.Valid]
    · unfold finish
      split_ifs <;> simp [Pc.lastPop]
  | dealloc ptr op =>
    rw [hpc] at hplace
    simp only [threadStep, hpc] at hstep
    split at hstep
    · rename_i hpush
      cases hstep
      exact push_leaves hplace hpush rfl
        (by simpa [Pc.Valid] using hplace) (by simp [Pc.lastPop])
    · rename_i hpush
      cases v
      all_goals
        cases hstep
        exact push_leaves hplace hpush rfl (by simp [Pc.Valid])
          (by simp [Pc.lastPop])
  | add_freed =>
    simp only [threadStep, hpc] at hstep
    cases hstep
    exact .of_head rfl (by simp [Pc.Valid]) (by simp [Pc.lastPop])

theorem Supplied.step (h : s.Supplied v) (hok : s.KeepsStock v a)
    (hstep : PoolSystem.step v s a = some s') : s'.Supplied v := by
  suffices hleaves : Leaves v s s' a.thread from
    h.leaves (fun u hu => step_of_ne hstep hu) hleaves
  have hsame : s'.pc a.thread = s.pc a.thread → s'.pool.head_ = s.pool.head_ →
      Leaves v s s' a.thread := fun hpc hhead => h.unchanged hpc (fun _ hne => hhead ▸ hne)
  cases a with
  | step t weak => exact threadStep_leaves h hok hstep
  | use t ptr value =>
    simp only [PoolSystem.step] at hstep
    split_ifs at hstep
    cases hstep
    exact hsame rfl rfl
  | allocate t =>
    simp only [PoolSystem.step] at hstep
    split at hstep
    · cases hstep
      exact .of_head rfl (by simp [PoolAction.thread, Pc.Valid, PopPc.NonNull])
        (by simp [PoolAction.thread])
    · cases hstep
  | deallocate t ptr =>
    simp only [PoolSystem.step] at hstep
    split at hstep
    · split_ifs at hstep with h0
      all_goals cases hstep
      · exact hsame rfl rfl
      · exact .of_head rfl (by simpa [PoolAction.thread, Pc.Valid] using h0)
          (by simp [PoolAction.thread, Pc.lastPop])
    · cases hstep
  | expand t =>
    simp only [PoolSystem.step] at hstep
    split at hstep
    · cases hstep
      exact .of_head rfl (by simp [PoolAction.thread, Pc.Valid])
        (by simp [PoolAction.thread, Pc.lastPop])
    · cases hstep
  | new t page =>
    simp only [PoolSystem.step, newStep] at hstep
    split at hstep
    · cases page with
      | none =>
        cases v
        all_goals
          cases hstep
          exact .of_head rfl (by simp [PoolAction.thread, Pc.Valid])
            (by simp [PoolAction.thread, Pc.lastPop])
      | some page =>
        simp only at hstep
        split_ifs at hstep with hfresh
        cases hstep
        exact .of_head rfl (by simpa [PoolAction.thread, Pc.Valid] using Nat.ne_of_gt hfresh.1)
          (by simp [PoolAction.thread, Pc.lastPop])
    · cases hstep

omit [DecidableEq ι] in
theorem supplied_start (v : Version) (p : FixedSizeMemoryPool) :
    (start (ι := ι) v p).Supplied v :=
  ⟨fun _ => trivial, fun _ _ h => absurd h Bool.false_ne_true⟩

omit [DecidableEq ι] in
/-- No call returns null from a list that is supplied. -/
theorem Supplied.not_returnsNull (h : s.Supplied v) (a : PoolAction ι) :
    s.returnsNull a = false := by
  cases a with
  | step t weak =>
    cases hpc : s.pc t with
    | pop op second =>
      cases second with
      | false => simp [returnsNull, hpc]
      | true =>
        have hop : op.NonNull := by
          have := h.valid t
          rwa [hpc] at this
        have hhead : s.pool.head_ ≠ 0 := h.stock () t (by simp [hpc])
        have hpop := LockFreeStack.Pop_popsTo s.pool weak hop
        simp only [returnsNull, hpc]
        generalize LockFreeStack.Pop s.pool weak op = result at hpop
        obtain ⟨p', r⟩ := result
        cases hpop with
        | null hnull => exact absurd hnull hhead
        | goes => rfl
        | takes => simpa using hhead
    | _ => simp [returnsNull, hpc]
  | _ => rfl

/-- In a run that keeps the stock, no `Allocate` returns null. -/
theorem not_returnsNull_of_keepsStock {p : FixedSizeMemoryPool} {as : List (PoolAction ι)}
    (hok : Meets (step v) (KeepsStock v) (start v p) as)
    (hrun : run (step v) (start v p) as = some s) (a : PoolAction ι) : s.returnsNull a = false := by
  have hsupplied : s.Supplied v :=
    invariant_of_meets (fun _ _ _ h hok hstep => Supplied.step h hok hstep) (supplied_start v p) hok
      hrun
  exact hsupplied.not_returnsNull a

/-- A step that does not keep the stock leaves a thread in its last `Pop` with an empty list. -/
theorem starves_of_not_keepsStock (h : s.Supplied v) (hok : ¬ s.KeepsStock v a)
    (hstep : step v s a = some s') :
    ∃ u, (s'.pc u).lastPop = true ∧ (s'.pc u).Valid v ∧ s'.pool.head_ = 0 := by
  cases a with
  | step t weak =>
    cases hpc : s.pc t with
    | pop op second =>
      simp only [KeepsStock, hpc] at hok
      cases op with
      | compare_exchange head next =>
        simp only [Pc.KeepsStock] at hok
        push Not at hok
        obtain ⟨hhead, hweak, rfl, u, hu, hlast⟩ := hok
        have hpcu := step_of_ne hstep hu
        have hpop : LockFreeStack.Pop s.pool weak (.compare_exchange head 0) =
            ({ s.pool with head_ := 0 }, .inr head) := by
          rw [LockFreeStack.Pop, if_pos ⟨hhead, hweak⟩]
        simp only [step, threadStep, hpc, hpop] at hstep
        cases hstep
        refine ⟨u, ?_, hpcu ▸ h.valid u, by rw [afterPop_pool]⟩
        rw [hpcu]
        simpa using hlast
      | _ => exact absurd trivial hok
    | try_expanding =>
      simp only [KeepsStock, hpc, Pc.KeepsStock] at hok
      push Not at hok
      simp only [step, threadStep, hpc, if_pos hok.1] at hstep
      cases hstep
      exact ⟨t, by simp, by simp [Pc.Valid, PopPc.NonNull], hok.2⟩
    | end_expanding =>
      simp only [KeepsStock, hpc, Pc.KeepsStock] at hok
      push Not at hok
      simp only [step, threadStep, hpc] at hstep
      cases hstep
      exact ⟨t, by simp, by simp [Pc.Valid, PopPc.NonNull], hok⟩
    | expand op caller =>
      simp only [KeepsStock, hpc] at hok
      cases op with
      | carve page i blocks =>
        cases caller with
        | user => exact absurd trivial hok
        | allocate =>
          simp only [Pc.KeepsStock] at hok
          push Not at hok
          obtain ⟨rfl, hi, hempty⟩ := hok
          simp only [step, threadStep, hpc, Expand, if_neg (Nat.not_lt.mpr hi)] at hstep
          cases hstep
          exact ⟨t, by simp [endExpand], by simp [endExpand, Pc.Valid, PopPc.NonNull], hempty⟩
      | _ => exact absurd trivial hok
    | _ =>
      simp only [KeepsStock, hpc] at hok
      exact absurd trivial hok
  | _ => exact absurd trivial hok

/-- A thread in its last `Pop` with an empty list returns null when it runs alone. -/
theorem returnsNull_of_empty (hlast : (s.pc t).lastPop = true) (hvalid : (s.pc t).Valid v)
    (hempty : s.pool.head_ = 0) : ∃ k s',
      run (step v) s (List.replicate k (.step t false)) = some s' ∧
        s'.returnsNull (.step t false) = true := by
  cases hpc : s.pc t with
  | pop op second =>
    rw [hpc] at hlast hvalid
    obtain rfl : second = true := by simpa using hlast
    cases op with
    | load =>
      refine ⟨0, s, rfl, ?_⟩
      simp [returnsNull, hpc, LockFreeStack.Pop, LockFreeStack.test, hempty]
    | read_next head =>
      have hne : ¬ 0 = head := fun h => hvalid h.symm
      refine ⟨1, s.setPc t (.pop (.compare_exchange head (s.pool.next head)) true), ?_, ?_⟩
      · simp [run, step, threadStep, hpc, LockFreeStack.Pop, setPc]
      · simp only [returnsNull, setPc_self, LockFreeStack.Pop]
        simp [setPc, LockFreeStack.test, hempty, hne]
    | compare_exchange head next =>
      have hne : ¬ 0 = head := fun h => hvalid h.symm
      refine ⟨0, s, rfl, ?_⟩
      simp [returnsNull, hpc, LockFreeStack.Pop, LockFreeStack.test, hempty, hne]
  | _ =>
    rw [hpc] at hlast
    cases hlast

/-- After a step that does not keep the stock, a call can return null. -/
theorem can_return_null_of_not_keepsStock (h : s.Supplied v) (hok : ¬ s.KeepsStock v a)
    (hstep : step v s a = some s') : ∃ u k s'',
      run (step v) s' (List.replicate k (.step u false)) = some s'' ∧
        s''.returnsNull (.step u false) = true := by
  obtain ⟨u, hlast, hvalid, hempty⟩ := starves_of_not_keepsStock h hok hstep
  exact ⟨u, returnsNull_of_empty hlast hvalid hempty⟩

end PoolSystem

end sci.pools
