-- Rules for grids of threads: one schedule of a kernel from what each thread does with the memory
-- for itself, block by block and from barrier to barrier.
import Scicompute.Simt

namespace Simt

open Thread

variable {L V R S T C : Type} [DecidableEq L]

/-! ## One thread -/

/-- The thread makes these accesses, and has these effects on the memory. -/
inductive Exec : Thread L V R → (L → V) → List (L × Bool) → Thread L V R → (L → V) → Prop
  | refl (p : Thread L V R) (m : L → V) : Exec p m [] p m
  | read {loc : L} {k : V → Thread L V R} {m m' : L → V} {E : List (L × Bool)}
      {q : Thread L V R} (h : Exec (k (m loc)) m E q m') :
      Exec (read loc k) m ((loc, false) :: E) q m'
  | write {loc : L} {v : V} {k : Thread L V R} {m m' : L → V} {E : List (L × Bool)}
      {q : Thread L V R} (h : Exec k (Function.update m loc v) E q m') :
      Exec (write loc v k) m ((loc, true) :: E) q m'

variable {g : Launch} {s s' : State L V} {b n n' n'' : Nat} {m m' m'' : L → V}
  {E E' : List (L × Bool)} {p q : Thread L V R}

theorem Exec.trans {r : Thread L V R} (h : Exec p m E q m') (h' : Exec q m' E' r m'') :
    Exec p m (E ++ E') r m'' := by
  induction h with
  | refl p m => exact h'
  | read _ ih => exact Exec.read (ih h')
  | write _ ih => exact Exec.write (ih h')

/-- The rest of the thread waits. -/
theorem Exec.bind (h : Exec p m E q m') (f : R → Thread L V T) :
    Exec (p >>= f) m E (q >>= f) m' := by
  induction h with
  | refl p m => exact Exec.refl _ _
  | read _ ih => exact Exec.read ih
  | write _ ih => exact Exec.write ih

/-- A part that ends, and the rest. -/
theorem Exec.seq {r : R} {f : R → Thread L V T} {q : Thread L V T} (h : Exec p m E (done r) m')
    (h' : Exec (f r) m' E' q m'') : Exec (p >>= f) m (E ++ E') q m'' :=
  (h.bind f).trans h'

theorem exec_load (loc : L) (m : L → V) : Exec (load loc) m [(loc, false)] (done (m loc)) m :=
  Exec.read (Exec.refl _ _)

theorem exec_store (loc : L) (v : V) (m : L → V) :
    Exec (store loc v) m [(loc, true)] (done ()) (Function.update m loc v) :=
  Exec.write (Exec.refl _ _)

/-! ## Loops -/

/-- `for (c = first; test(c); c = next(c))`. A loop that is not at its end after `fuel` rounds has
no result. -/
def Thread.loop (test : C → Bool) (next : C → C) (body : C → S → Thread L V S) :
    Nat → C → S → Thread L V S
  | 0, _, _ => undefined
  | fuel + 1, c, s =>
    if test c then body c s >>= fun s => loop test next body fuel (next c) s else done s

/-- The values that the counter has in the rounds of a loop, if it ends. -/
def rounds (test : C → Bool) (next : C → C) : Nat → C → Option (List C)
  | 0, _ => none
  | fuel + 1, c => if test c then (rounds test next fuel (next c)).map (c :: ·) else some []

/-- The rounds of a loop, one after the other. -/
inductive Chain (body : C → S → Thread L V S) :
    List C → S → (L → V) → List (L × Bool) → S → (L → V) → Prop
  | nil (x : S) (m : L → V) : Chain body [] x m [] x m
  | cons {c : C} {l : List C} {x y z : S} {m m' m'' : L → V} {E E' : List (L × Bool)}
      (h : Exec (body c x) m E (done y) m') (h' : Chain body l y m' E' z m'') :
      Chain body (c :: l) x m (E ++ E') z m''

variable {test : C → Bool} {next : C → C} {body : C → S → Thread L V S} {l : List C} {x y : S}
  {fuel : Nat} {c : C}

omit [DecidableEq L] in
/-- A loop whose counter goes through a sequence. -/
theorem rounds_eq_some {a : Nat → C} {k : Nat} (htest : ∀ j < k, test (a j) = true)
    (hnext : ∀ j < k, next (a j) = a (j + 1)) (hend : test (a k) = false) (hfuel : k < fuel) :
    rounds test next fuel (a 0) = some ((List.range k).map a) := by
  induction k generalizing a fuel with
  | zero =>
    obtain ⟨fuel, rfl⟩ := Nat.exists_eq_succ_of_ne_zero (Nat.ne_of_gt hfuel)
    rw [rounds, if_neg (by rw [hend]; decide), List.range_zero, List.map_nil]
  | succ k ih =>
    obtain ⟨fuel, rfl⟩ := Nat.exists_eq_succ_of_ne_zero (Nat.ne_of_gt (Nat.zero_lt_of_lt hfuel))
    have hrest : rounds test next fuel (a (0 + 1)) = some ((List.range k).map fun j => a (j + 1)) :=
      ih (fun j hj => htest (j + 1) (by omega)) (fun j hj => hnext (j + 1) (by omega)) hend (by omega)
    rw [rounds, if_pos (htest 0 (by omega)), hnext 0 (by omega), hrest, Option.map_some,
      List.range_succ_eq_map, List.map_cons, List.map_map]
    rfl

omit [DecidableEq L] in
/-- A loop whose test always succeeds. -/
theorem rounds_eq_none {J : C → Prop} (h : ∀ c, J c → test c = true ∧ J (next c)) (hc : J c)
    (fuel : Nat) : rounds test next fuel c = none := by
  induction fuel generalizing c with
  | zero => rfl
  | succ fuel ih => rw [rounds, if_pos (h c hc).1, ih (h c hc).2, Option.map_none]

theorem exec_loop (hl : rounds test next fuel c = some l) (h : Chain body l x m E y m') :
    Exec (loop test next body fuel c x) m E (done y) m' := by
  induction fuel generalizing c l x m E with
  | zero => cases hl
  | succ fuel ih =>
    rw [rounds] at hl
    rw [loop]
    split_ifs at hl ⊢ with htest
    · obtain ⟨l', hl', rfl⟩ := Option.map_eq_some_iff.mp hl
      cases h with
      | cons h h' => exact h.seq (ih hl' h')
    · cases hl
      cases h
      exact Exec.refl _ _

/-- Rounds that leave the memory as it is. -/
theorem chain_of_read {A : C → List (L × Bool)} {f : S → C → S} {l : List C}
    (h : ∀ c ∈ l, ∀ x, Exec (body c x) m (A c) (done (f x c)) m) (x : S) :
    Chain body l x m (l.flatMap A) (l.foldl f x) m := by
  induction l generalizing x with
  | nil => exact Chain.nil x m
  | cons c l ih =>
    rw [List.forall_mem_cons] at h
    exact Chain.cons (h.1 x) (ih h.2 (f x c))

/-- Rounds of another counter. -/
theorem Chain.map {D : Type} {f : D → C} {l : List D}
    (h : Chain (fun d => body (f d)) l x m E y m') : Chain body (l.map f) x m E y m' := by
  induction h with
  | nil x m => exact Chain.nil x m
  | cons h _ ih => exact Chain.cons h ih

/-- What each round keeps. `I` is about the rounds that are done. -/
theorem exists_chain {A : C → List (L × Bool)} {I : List C → (L → V) → Prop} {l : List C}
    (h0 : I [] m) (h : ∀ pre c post, l = pre ++ c :: post → ∀ m, I pre m →
      ∃ m', Exec (body c x) m (A c) (done x) m' ∧ I (pre ++ [c]) m') :
    ∃ m', Chain body l x m (l.flatMap A) x m' ∧ I l m' := by
  induction l generalizing m I with
  | nil => exact ⟨m, Chain.nil x m, h0⟩
  | cons c l ih =>
    obtain ⟨m1, hm1, hI⟩ := h [] c l rfl m h0
    obtain ⟨m2, hm2, hI2⟩ := ih (I := fun pre => I (c :: pre)) hI fun pre c' post hl m hm =>
      h (c :: pre) c' post (by rw [hl, List.cons_append]) m hm
    exact ⟨m2, Chain.cons hm1 hm2, hI2⟩

/-! ## One block -/

/-- The events of these accesses. -/
def events (b t n : Nat) (E : List (L × Bool)) : Multiset (Event L) :=
  (E.map fun a => ⟨b, t, n, a.1, a.2⟩ : List (Event L))

/-- From every state in which the threads of the block are `P`, the memory is `m` and the block has
passed `n` barriers, there is a schedule of this block alone to such a state with `P'`, `m'` and
`n'`, which makes the events `E`. -/
def BlockRun (g : Launch) (b : Nat) (P : Nat → Thread L V Unit) (m : L → V) (n : Nat)
    (E : Multiset (Event L)) (P' : Nat → Thread L V Unit) (m' : L → V) (n' : Nat) : Prop :=
  ∀ s : State L V, s.mem = m → s.epoch b = n → (∀ t < g.blockDim, s.thread b t = P t) →
    ∃ as s', Transition.run (step g) s as = some s' ∧ s'.mem = m' ∧ s'.epoch b = n' ∧
      (∀ t < g.blockDim, s'.thread b t = P' t) ∧ s'.log = s.log + E ∧
      ∀ b' ≠ b, s'.thread b' = s.thread b' ∧ s'.epoch b' = s.epoch b'

variable {P P' P'' : Nat → Thread L V Unit} {F F' : Multiset (Event L)}

theorem BlockRun.trans (h : BlockRun g b P m n F P' m' n') (h' : BlockRun g b P' m' n' F' P'' m'' n'') :
    BlockRun g b P m n (F + F') P'' m'' n'' := by
  intro s hm hn hP
  obtain ⟨as, s1, hr1, hm1, hn1, hP1, hlog1, hrest1⟩ := h s hm hn hP
  obtain ⟨bs, s2, hr2, hm2, hn2, hP2, hlog2, hrest2⟩ := h' s1 hm1 hn1 hP1
  refine ⟨as ++ bs, s2, Transition.run_append hr1 hr2, hm2, hn2, hP2, ?_, fun b' hb' => ?_⟩
  · rw [hlog2, hlog1, add_assoc]
  · rw [(hrest2 b' hb').1, (hrest2 b' hb').2]
    exact hrest1 b' hb'

omit [DecidableEq L] in
theorem events_cons (b t n : Nat) (a : L × Bool) (E : List (L × Bool)) :
    events b t n (a :: E) = ⟨b, t, n, a.1, a.2⟩ ::ₘ events b t n E := rfl

omit [DecidableEq L] in
theorem mem_events {t : Nat} {e : Event L} :
    e ∈ events b t n E ↔ e.block = b ∧ e.tid = t ∧ e.epoch = n ∧ (e.loc, e.isWrite) ∈ E := by
  unfold events
  rw [Multiset.mem_coe, List.mem_map]
  constructor
  · rintro ⟨a, ha, rfl⟩
    exact ⟨rfl, rfl, rfl, ha⟩
  · rintro ⟨rfl, rfl, rfl, he⟩
    exact ⟨_, he, rfl⟩

omit [DecidableEq L] in
/-- The events of a part of all threads. -/
theorem mem_sum_events {d : Nat} {A : Nat → List (L × Bool)} {e : Event L} :
    e ∈ ∑ t ∈ Finset.range d, events b t n (A t) ↔
      e.block = b ∧ e.tid < d ∧ e.epoch = n ∧ (e.loc, e.isWrite) ∈ A e.tid := by
  rw [Multiset.mem_sum]
  constructor
  · rintro ⟨t, ht, he⟩
    obtain ⟨hb, rfl, hrest⟩ := mem_events.mp he
    exact ⟨hb, Finset.mem_range.mp ht, hrest⟩
  · rintro ⟨hb, ht, hrest⟩
    exact ⟨e.tid, Finset.mem_range.mpr ht, mem_events.mpr ⟨hb, rfl, hrest⟩⟩

omit [DecidableEq L] in
theorem setThread_twice {f : Nat → Nat → Thread L V Unit} {t : Nat} {p q : Thread L V Unit} :
    setThread (setThread f b t p) b t q = setThread f b t q := by
  funext b' t'
  unfold setThread
  split_ifs <;> rfl

/-- The state after accesses of the thread `t`. -/
def State.after (s : State L V) (b t : Nat) (m : L → V) (p : Thread L V Unit)
    (E : List (L × Bool)) : State L V where
  mem := m
  thread := setThread s.thread b t p
  epoch := s.epoch
  log := s.log + events b t (s.epoch b) E

/-- A first access, and the schedule of the others. -/
theorem exists_run_cons {m1 m2 : L → V} {p1 p2 : Thread L V Unit} {a : L × Bool} {t : Nat}
    (hb : b < g.gridDim) (ht : t < g.blockDim)
    (haccess : (s.thread b t).access s.mem = some (m1, p1, a.1, a.2))
    (hrest : ∀ s1 : State L V, s1.thread b t = p1 → s1.mem = m1 →
      ∃ as, Transition.run (step g) s1 as = some (s1.after b t m2 p2 E)) :
    ∃ as, Transition.run (step g) s as = some (s.after b t m2 p2 (a :: E)) := by
  obtain ⟨as, has⟩ := hrest { s with
    mem := m1
    thread := setThread s.thread b t p1
    log := ⟨b, t, s.epoch b, a.1, a.2⟩ ::ₘ s.log } (if_pos ⟨rfl, rfl⟩) rfl
  refine ⟨.access b t :: as, (Transition.run_cons ..).mpr
    ⟨_, step_access_iff.mpr ⟨hb, ht, m1, p1, a.1, a.2, haccess, rfl⟩, ?_⟩⟩
  rw [has]
  unfold State.after
  rw [setThread_twice, events_cons, Multiset.cons_add, Multiset.add_cons]

/-- The accesses of a thread, as steps. -/
theorem exists_run_of_exec {p q : Thread L V Unit} (hb : b < g.gridDim) {t : Nat}
    (ht : t < g.blockDim) (h : Exec p m E q m') (hp : s.thread b t = p) (hm : s.mem = m) :
    ∃ as, Transition.run (step g) s as = some (s.after b t m' q E) := by
  induction h generalizing s with
  | refl p m =>
    refine ⟨[], congrArg some (State.ext hm (funext fun b' => funext fun t' => ?_) rfl ?_)⟩
    · unfold State.after setThread
      dsimp only
      split_ifs with h
      · rw [h.1, h.2, hp]
      · rfl
    · exact (add_zero _).symm
  | @read loc k m m' E q _ ih =>
    refine exists_run_cons (a := (loc, false)) hb ht ?_ fun s1 hp1 hm1 => ih hp1 hm1
    rw [hp, hm, access]
  | @write loc v k m m' E q _ ih =>
    refine exists_run_cons (a := (loc, true)) hb ht ?_ fun s1 hp1 hm1 => ih hp1 hm1
    rw [hp, hm, access]

/-- One thread after the other, from a barrier or an exchange to the next. `I` is about the threads
that are done. -/
theorem exists_blockRun {A : Nat → List (L × Bool)} {I : Nat → (L → V) → Prop} (hb : b < g.gridDim)
    (n : Nat) (h0 : I 0 m)
    (h : ∀ t < g.blockDim, ∀ m, I t m → ∃ m', Exec (P t) m (A t) (P' t) m' ∧ I (t + 1) m') :
    ∃ m', BlockRun g b P m n (∑ t ∈ Finset.range g.blockDim, events b t n (A t)) P' m' n ∧
      I g.blockDim m' := by
  have hpart : ∀ k ≤ g.blockDim, ∃ m', I k m' ∧ ∀ s : State L V, s.mem = m → s.epoch b = n →
      (∀ t < g.blockDim, s.thread b t = P t) →
      ∃ as s', Transition.run (step g) s as = some s' ∧ s'.mem = m' ∧ s'.epoch = s.epoch ∧
        (∀ t < g.blockDim, s'.thread b t = if t < k then P' t else P t) ∧
        s'.log = s.log + ∑ t ∈ Finset.range k, events b t n (A t) ∧
        ∀ b' ≠ b, s'.thread b' = s.thread b' := by
    intro k
    induction k with
    | zero =>
      intro _
      refine ⟨m, h0, fun s hm hn hP => ⟨[], s, rfl, hm, rfl, ?_, ?_, fun _ _ => rfl⟩⟩
      · intro t ht
        rw [hP t ht, if_neg (Nat.not_lt_zero t)]
      · rw [Finset.sum_range_zero, add_zero]
    | succ k ih =>
      intro hk
      obtain ⟨m1, hI1, hruns⟩ := ih (by omega)
      obtain ⟨m2, hexec, hI2⟩ := h k hk m1 hI1
      refine ⟨m2, hI2, fun s hm hn hP => ?_⟩
      obtain ⟨as, s1, hr1, hm1, hepoch1, hP1, hlog1, hrest1⟩ := hruns s hm hn hP
      have hthread : s1.thread b k = P k := by rw [hP1 k hk, if_neg (Nat.lt_irrefl k)]
      obtain ⟨bs, hr2⟩ := exists_run_of_exec hb hk hexec hthread hm1
      refine ⟨as ++ bs, _, Transition.run_append hr1 hr2, rfl, hepoch1, ?_, ?_, ?_⟩
      · intro t ht
        by_cases htk : t = k
        · rw [htk, if_pos (Nat.lt_succ_self k)]
          exact if_pos ⟨rfl, rfl⟩
        · have hother : (s1.after b k m2 (P' k) (A k)).thread b t = s1.thread b t :=
            if_neg fun h => htk h.2
          rw [hother, hP1 t ht]
          split_ifs <;> first | rfl | omega
      · change s1.log + events b k (s1.epoch b) (A k) = _
        rw [hlog1, hepoch1, hn, Finset.sum_range_succ, add_assoc]
      · intro b' hb'
        refine (funext fun t => ?_).trans (hrest1 b' hb')
        exact if_neg fun h => hb' h.1
  obtain ⟨m', hI, hruns⟩ := hpart g.blockDim le_rfl
  refine ⟨m', fun s hm hn hP => ?_, hI⟩
  obtain ⟨as, s1, hr1, hm1, hepoch1, hP1, hlog1, hrest1⟩ := hruns s hm hn hP
  refine ⟨as, s1, hr1, hm1, by rw [hepoch1, hn], fun t ht => ?_, hlog1, fun b' hb' => ?_⟩
  · rw [hP1 t ht, if_pos ht]
  · exact ⟨hrest1 b' hb', by rw [hepoch1]⟩

/-- Threads that leave the memory as it is. -/
theorem blockRun_of_read {A : Nat → List (L × Bool)} (hb : b < g.gridDim) (n : Nat)
    (h : ∀ t < g.blockDim, Exec (P t) m (A t) (P' t) m) :
    BlockRun g b P m n (∑ t ∈ Finset.range g.blockDim, events b t n (A t)) P' m n := by
  have hstep : ∀ t < g.blockDim, ∀ m1, m1 = m → ∃ m', Exec (P t) m1 (A t) (P' t) m' ∧ m' = m := by
    rintro t ht m1 rfl
    exact ⟨m1, h t ht, rfl⟩
  obtain ⟨m', hrun, hm'⟩ := exists_blockRun (I := fun _ m' => m' = m) hb n rfl hstep
  rwa [hm'] at hrun

/-- The first thread changes the memory, and the others leave it as it is then. -/
theorem blockRun_of_first {A : Nat → List (L × Bool)} (hb : b < g.gridDim) (hg : 0 < g.blockDim)
    (n : Nat) (hfirst : Exec (P 0) m (A 0) (P' 0) m')
    (hothers : ∀ t, t ≠ 0 → Exec (P t) m' (A t) (P' t) m') :
    BlockRun g b P m n (∑ t ∈ Finset.range g.blockDim, events b t n (A t)) P' m' n := by
  have hthread : ∀ t < g.blockDim, ∀ m1, m1 = (if t = 0 then m else m') →
      ∃ m2, Exec (P t) m1 (A t) (P' t) m2 ∧ m2 = if t + 1 = 0 then m else m' := by
    rintro t - m1 hm1
    by_cases ht : t = 0
    · rw [if_pos ht] at hm1
      rw [ht, hm1]
      exact ⟨m', hfirst, rfl⟩
    · rw [if_neg ht] at hm1
      rw [hm1]
      exact ⟨m', hothers t ht, rfl⟩
  obtain ⟨m2, hrun, hm2⟩ := exists_blockRun hb n rfl hthread
  rw [if_neg (Nat.ne_of_gt hg)] at hm2
  rwa [hm2] at hrun

/-- A part of the first thread only, and what follows. -/
theorem blockRun_of_when {p : Thread L V Unit} (hb : b < g.gridDim) (hg : 0 < g.blockDim) (n : Nat)
    (h : Exec p m E (done ()) m') (k : Nat → Thread L V Unit) :
    BlockRun g b (fun t => when (t = 0) p >>= fun _ => k t) m n
      (∑ t ∈ Finset.range g.blockDim, events b t n (if t = 0 then E else [])) k m' n := by
  refine blockRun_of_first hb hg n (h.bind fun _ => k 0) fun t ht => ?_
  unfold when
  rw [if_neg ht, if_neg ht]
  exact Exec.refl _ _

/-- A part of all threads with results, one thread after the other, whatever follows. -/
theorem exists_blockRun_seq {Q : Nat → Thread L V R} {x : Nat → R} {A : Nat → List (L × Bool)}
    {I : Nat → (L → V) → Prop} (hb : b < g.gridDim) (n : Nat) (h0 : I 0 m)
    (h : ∀ t < g.blockDim, ∀ m, I t m →
      ∃ m', Exec (Q t) m (A t) (done (x t)) m' ∧ I (t + 1) m') :
    ∃ m', I g.blockDim m' ∧ ∀ k : Nat → R → Thread L V Unit,
      BlockRun g b (fun t => Q t >>= k t) m n
        (∑ t ∈ Finset.range g.blockDim, events b t n (A t)) (fun t => k t (x t)) m' n := by
  -- the memory after each thread, which does not depend on what follows
  have hmems : ∀ d ≤ g.blockDim, ∃ mem : Nat → L → V, mem 0 = m ∧ I d (mem d) ∧
      ∀ t < d, Exec (Q t) (mem t) (A t) (done (x t)) (mem (t + 1)) := by
    intro d
    induction d with
    | zero => exact fun _ => ⟨fun _ => m, rfl, h0, fun t ht => absurd ht (Nat.not_lt_zero t)⟩
    | succ d ih =>
      intro hd
      obtain ⟨mem, hzero, hI, hexec⟩ := ih (by omega)
      obtain ⟨m', hm', hI'⟩ := h d hd (mem d) hI
      refine ⟨fun t => if t = d + 1 then m' else mem t, ?_, ?_, fun t ht => ?_⟩
      · exact hzero
      · dsimp only
        rwa [if_pos rfl]
      · dsimp only
        rw [if_neg (by omega)]
        by_cases htd : t = d
        · rw [htd, if_pos rfl]
          exact hm'
        · rw [if_neg (by omega)]
          exact hexec t (by omega)
  obtain ⟨mem, rfl, hI, hexec⟩ := hmems g.blockDim le_rfl
  refine ⟨mem g.blockDim, hI, fun k => ?_⟩
  have hstep : ∀ t < g.blockDim, ∀ m1, m1 = mem t →
      ∃ m', Exec (Q t >>= k t) m1 (A t) (k t (x t)) m' ∧ m' = mem (t + 1) := by
    rintro t ht m1 rfl
    exact ⟨_, (hexec t ht).bind (k t), rfl⟩
  obtain ⟨m', hrun, rfl⟩ := exists_blockRun (I := fun t m' => m' = mem t) hb n rfl hstep
  exact hrun

/-- A part of all threads with results that leaves the memory as it is. -/
theorem blockRun_of_read_seq {Q : Nat → Thread L V R} {x : Nat → R} {A : Nat → List (L × Bool)}
    (hb : b < g.gridDim) (n : Nat) (h : ∀ t < g.blockDim, Exec (Q t) m (A t) (done (x t)) m)
    (k : Nat → R → Thread L V Unit) :
    BlockRun g b (fun t => Q t >>= k t) m n (∑ t ∈ Finset.range g.blockDim, events b t n (A t))
      (fun t => k t (x t)) m n :=
  blockRun_of_read hb n fun t ht => (h t ht).bind (k t)

/-- All threads are at a barrier. -/
theorem blockRun_of_sync (hb : b < g.gridDim) (n : Nat) (m : L → V)
    (P : Nat → Thread L V Unit) : BlockRun g b (fun t => sync (P t)) m n 0 P m (n + 1) := by
  intro s hm hn hP
  refine ⟨[.barrier b], _, (Transition.run_cons ..).mpr ⟨_, step_barrier_iff.mpr
    ⟨⟨hb, fun t ht => ?_⟩, rfl⟩, rfl⟩, hm, ?_, ?_, ?_, ?_⟩
  · rw [hP t ht]
    trivial
  · rw [← hn]
    exact Function.update_self ..
  · intro t ht
    dsimp only
    rw [if_pos ⟨rfl, ht⟩, hP t ht, afterSync]
  · exact (add_zero _).symm
  · intro b' hb'
    exact ⟨funext fun t => if_neg fun h => hb' h.1, Function.update_of_ne hb' _ _⟩

/-- The value that thread `t` gets when all threads give theirs to the thread `offset` below. -/
def shuffled (v : Nat → V) (offset t : Nat) : V :=
  if t % 32 + offset < 32 then v (t + offset) else v t

/-- All warps exchange values. -/
theorem blockRun_of_shfl (hb : b < g.gridDim) (hwarps : 32 ∣ g.blockDim) (n : Nat) (m : L → V)
    (v : Nat → V) (offset : Nat) (k : Nat → V → Thread L V Unit) :
    BlockRun g b (fun t => shfl_down (v t) offset (k t)) m n 0
      (fun t => k t (shuffled v offset t)) m n := by
  obtain ⟨warps, hdim⟩ := hwarps
  have hpart : ∀ w ≤ warps, ∀ s : State L V, s.mem = m → s.epoch b = n →
      (∀ t < g.blockDim, s.thread b t = shfl_down (v t) offset (k t)) →
      ∃ as s', Transition.run (step g) s as = some s' ∧ s'.mem = m ∧ s'.epoch = s.epoch ∧
        (∀ t < g.blockDim, s'.thread b t = if t < w * 32 then k t (shuffled v offset t)
          else shfl_down (v t) offset (k t)) ∧
        s'.log = s.log ∧ ∀ b' ≠ b, s'.thread b' = s.thread b' := by
    intro w
    induction w with
    | zero =>
      intro _ s hm hn hP
      refine ⟨[], s, rfl, hm, rfl, fun t ht => ?_, rfl, fun _ _ => rfl⟩
      rw [hP t ht, if_neg (by omega)]
    | succ w ih =>
      intro hw s hm hn hP
      obtain ⟨as, s1, hr1, hm1, hepoch1, hP1, hlog1, hrest1⟩ := ih (by omega) s hm hn hP
      have hlane : ∀ t, t / 32 = w → s1.thread b t = shfl_down (v t) offset (k t) := by
        intro t ht
        rw [hP1 t (by omega), if_neg (by omega)]
      have hlanes : b < g.gridDim ∧ w * 32 + 32 ≤ g.blockDim ∧
          ∀ l : Nat, l < 32 → (s1.thread b (w * 32 + l)).sent.isSome = true := by
        refine ⟨hb, by omega, fun l hl => ?_⟩
        rw [hlane (w * 32 + l) (by omega)]
        rfl
      have hr2 := Transition.run_append hr1
        (Transition.run_single (step_exchange_iff.mpr ⟨hlanes, rfl⟩))
      refine ⟨as ++ [.exchange b w], _, hr2, ?_, ?_, fun t ht => ?_, ?_, fun b' hb' => ?_⟩
      · exact hm1
      · exact hepoch1
      · dsimp only
        by_cases htw : t / 32 = w
        · rw [if_pos ⟨rfl, htw⟩, if_pos (by omega), exchanged, hlane t htw]
          dsimp only
          unfold shuffled
          split_ifs with hin
          · rw [hlane (t + offset) (by omega)]
            rfl
          · rfl
        · rw [if_neg fun h => htw h.2, hP1 t ht]
          split_ifs <;> first | rfl | omega
      · exact hlog1
      · exact (funext fun t => if_neg fun h => hb' h.1).trans (hrest1 b' hb')
  intro s hm hn hP
  obtain ⟨as, s1, hr1, hm1, hepoch1, hP1, hlog1, hrest1⟩ := hpart warps le_rfl s hm hn hP
  refine ⟨as, s1, hr1, hm1, by rw [hepoch1, hn], fun t ht => ?_, ?_, fun b' hb' => ?_⟩
  · rw [hP1 t ht, if_pos (by omega)]
  · rw [hlog1, add_zero]
  · exact ⟨hrest1 b' hb', by rw [hepoch1]⟩

/-- A loop with barriers or exchanges in its rounds, which all threads go through together. `I` is
about the rounds that are done. -/
theorem exists_blockRun_loop {body : Nat → C → S → Thread L V S} {l : List C}
    {I : List C → (Nat → S) → (L → V) → Nat → Multiset (Event L) → Prop} {x : Nat → S} {n : Nat}
    (hl : rounds test next fuel c = some l) (h0 : I [] x m n 0)
    (h : ∀ pre c post, l = pre ++ c :: post → ∀ x m n F, I pre x m n F →
      ∃ F' x' m' n', I (pre ++ [c]) x' m' n' (F + F') ∧ ∀ k : Nat → S → Thread L V Unit,
        BlockRun g b (fun t => body t c (x t) >>= k t) m n F' (fun t => k t (x' t)) m' n') :
    ∃ F x' m' n', I l x' m' n' F ∧ ∀ k : Nat → S → Thread L V Unit,
      BlockRun g b (fun t => loop test next (body t) fuel c (x t) >>= k t) m n F
        (fun t => k t (x' t)) m' n' := by
  induction fuel generalizing c l x m n I with
  | zero => cases hl
  | succ fuel ih =>
    rw [rounds] at hl
    split_ifs at hl with htest
    · obtain ⟨l, hl', rfl⟩ := Option.map_eq_some_iff.mp hl
      obtain ⟨F1, x1, m1, n1, hI1, hrun1⟩ := h [] c l rfl x m n 0 h0
      obtain ⟨F2, x2, m2, n2, hI2, hrun2⟩ := ih (I := fun pre x m n F => I (c :: pre) x m n (F1 + F))
        (x := x1) (m := m1) (n := n1) hl' (by rwa [zero_add, ← add_zero F1] at hI1) (by
          intro pre c' post hpre x m n F hI
          obtain ⟨F', x', m', n', hI', hrun⟩ := h (c :: pre) c' post
            (by rw [hpre, List.cons_append]) x m n (F1 + F) hI
          exact ⟨F', x', m', n', by rwa [add_assoc] at hI', hrun⟩)
      refine ⟨F1 + F2, x2, m2, n2, hI2, fun k => ?_⟩
      have hfirst : (fun t => loop test next (body t) (fuel + 1) c (x t) >>= k t) = fun t =>
          body t c (x t) >>= fun y => loop test next (body t) fuel (next c) y >>= k t := by
        funext t
        rw [loop, if_pos htest, bind_bind]
      rw [hfirst]
      exact (hrun1 _).trans (hrun2 k)
    · cases hl
      refine ⟨0, x, m, n, h0, fun k => ?_⟩
      have hnone : (fun t => loop test next (body t) (fuel + 1) c (x t) >>= k t) =
          fun t => k t (x t) := by
        funext t
        rw [loop, if_neg htest]
        rfl
      rw [hnone]
      intro s hm hn hP
      exact ⟨[], s, rfl, hm, hn, hP, (add_zero _).symm, fun _ _ => ⟨rfl, rfl⟩⟩

/-! ## All blocks -/

/-- One block after the other. `I` is about the blocks that are done. -/
theorem exists_ends (hg : 0 < g.blockDim) {kernel : Nat → Nat → Thread L V Unit}
    {I : Nat → (L → V) → Multiset (Event L) → Prop} (h0 : I 0 m 0)
    (h : ∀ b < g.gridDim, ∀ m F, I b m F → ∃ F' m' n, BlockRun g b (kernel b) m 0 F'
      (fun _ => done ()) m' n ∧ I (b + 1) m' (F + F'))
    (hrace : ∀ m F, I g.gridDim m F → NoRace F) :
    ∃ s, Ends g kernel m s ∧ I g.gridDim s.mem s.log := by
  have hpart : ∀ k ≤ g.gridDim, ∃ as s, Transition.run (step g) (launch kernel m) as = some s ∧
      I k s.mem s.log ∧ (∀ b < k, ∀ t < g.blockDim, s.thread b t = done ()) ∧
      ∀ b, k ≤ b → s.thread b = kernel b ∧ s.epoch b = 0 := by
    intro k
    induction k with
    | zero =>
      intro _
      exact ⟨[], launch kernel m, rfl, h0, fun b hb => absurd hb (Nat.not_lt_zero b),
        fun b _ => ⟨rfl, rfl⟩⟩
    | succ k ih =>
      intro hk
      obtain ⟨as, s1, hr1, hI1, hdone1, hrest1⟩ := ih (by omega)
      obtain ⟨F', m', n, hrun, hI2⟩ := h k hk s1.mem s1.log hI1
      obtain ⟨bs, s2, hr2, rfl, -, hP2, hlog2, hrest2⟩ := hrun s1 rfl (hrest1 k le_rfl).2
        fun t _ => by rw [(hrest1 k le_rfl).1]
      refine ⟨as ++ bs, s2, Transition.run_append hr1 hr2, by rwa [hlog2], ?_, ?_⟩
      · intro b hb t ht
        by_cases hbk : b = k
        · rw [hbk, hP2 t ht]
        · rw [(hrest2 b hbk).1]
          exact hdone1 b (by omega) t ht
      · intro b hb
        rw [(hrest2 b (by omega)).1, (hrest2 b (by omega)).2]
        exact hrest1 b (by omega)
  obtain ⟨as, s, hr, hI, hdone, -⟩ := hpart g.gridDim le_rfl
  refine ⟨s, ends_of_run hg hr (fun b hb t ht => ?_) (hrace _ _ hI), hI⟩
  rw [hdone b hb t ht]
  trivial

/-- A grid of one block. -/
theorem exists_ends_of_block (hg : 0 < g.blockDim) (hgrid : g.gridDim = 1)
    {kernel : Nat → Nat → Thread L V Unit} (hrun : BlockRun g 0 (kernel 0) m 0 F (fun _ => done ()) m' n)
    (hrace : NoRace F) : ∃ s, Ends g kernel m s ∧ s.mem = m' ∧ s.log = F := by
  let I : Nat → (L → V) → Multiset (Event L) → Prop := fun b m1 F1 =>
    (b = 0 → m1 = m ∧ F1 = 0) ∧ (b = 1 → m1 = m' ∧ F1 = F)
  have hblock : ∀ b < g.gridDim, ∀ m1 F1, I b m1 F1 → ∃ F2 m2 n2,
      BlockRun g b (kernel b) m1 0 F2 (fun _ => done ()) m2 n2 ∧ I (b + 1) m2 (F1 + F2) := by
    intro b hb m1 F1 hI
    obtain rfl : b = 0 := by omega
    obtain ⟨rfl, rfl⟩ := hI.1 rfl
    exact ⟨F, m', n, hrun, nofun, fun _ => ⟨rfl, zero_add F⟩⟩
  obtain ⟨s, hs, hI⟩ := exists_ends hg ⟨fun _ => ⟨rfl, rfl⟩, nofun⟩ hblock fun m1 F1 hI => by
    rw [(hI.2 hgrid).2]
    exact hrace
  exact ⟨s, hs, hI.2 hgrid⟩

/-! ## Races -/

/-- A write is made in the block that has the location, by the thread that has it in this epoch. A
read is too, unless nobody has the location. -/
def Owned (home : L → Option Nat) (owner : Nat → L → Option Nat) (e : Event L) : Prop :=
  (home e.loc = some e.block ∨ home e.loc = none ∧ e.isWrite = false) ∧
    (owner e.epoch e.loc = some e.tid ∨ owner e.epoch e.loc = none ∧ e.isWrite = false)

omit [DecidableEq L] in
theorem noRace_of_owned {home : L → Option Nat} {owner : Nat → L → Option Nat}
    {F : Multiset (Event L)} (h : ∀ e ∈ F, Owned home owner e) : NoRace F := by
  intro e he e' he' hloc hwrite
  obtain ⟨hhome, howner⟩ := h e he
  obtain ⟨hhome', howner'⟩ := h e' he'
  rw [← hloc] at hhome' howner'
  constructor
  · rcases hhome with hb | ⟨hnone, hread⟩ <;> rcases hhome' with hb' | ⟨hnone', hread'⟩ <;> simp_all
  · by_cases hepoch : e.epoch = e'.epoch
    · left
      rw [← hepoch] at howner'
      rcases howner with ht | ⟨hnone, hread⟩ <;> rcases howner' with ht' | ⟨hnone', hread'⟩ <;>
        simp_all
    · exact Or.inr hepoch

/-! ## Memories -/

/-- The cells of these numbers have the values `f`, and nothing else has changed. -/
def Stored (cell : Nat → L) (W : Nat → Prop) (f : Nat → V) (m m' : L → V) : Prop :=
  (∀ j, W j → m' (cell j) = f j) ∧ ∀ loc, (∀ j, W j → loc ≠ cell j) → m' loc = m loc

variable {cell : Nat → L} {W W' : Nat → Prop} {f : Nat → V}

omit [DecidableEq L] in
theorem stored_nothing (h : ∀ j, ¬ W j) : Stored cell W f m m :=
  ⟨fun j hj => absurd hj (h j), fun _ _ => rfl⟩

omit [DecidableEq L] in
theorem Stored.congr (h : Stored cell W f m m') (hW : ∀ j, W j ↔ W' j) : Stored cell W' f m m' :=
  ⟨fun j hj => h.1 j ((hW j).mpr hj), fun loc hloc => h.2 loc fun j hj => hloc j ((hW j).mp hj)⟩

theorem Stored.update (hcell : Function.Injective cell) (h : Stored cell W f m m') (t : Nat) :
    Stored cell (fun j => W j ∨ j = t) f m (Function.update m' (cell t) (f t)) := by
  refine ⟨fun j hj => ?_, fun loc hloc => ?_⟩
  · by_cases hjt : j = t
    · rw [hjt, Function.update_self]
    · rw [Function.update_of_ne fun heq => hjt (hcell heq)]
      exact h.1 j (hj.resolve_right hjt)
  · rw [Function.update_of_ne (hloc t (Or.inr rfl))]
    exact h.2 loc fun j hj => hloc j (Or.inl hj)

omit [DecidableEq L] in
/-- A cell that has not been stored to. -/
theorem Stored.cell_eq (hcell : Function.Injective cell) (h : Stored cell W f m m') {j : Nat}
    (hj : ¬ W j) : m' (cell j) = m (cell j) :=
  h.2 _ fun _ hi heq => hj (hcell heq ▸ hi)

end Simt
