-- Grids of threads in blocks: the threads of a block share barriers, the 32 threads of a warp
-- exchange values, and all threads share a memory. A step is one access of one thread, one exchange
-- of one warp, or one barrier of one block, in any order. A thread is the tree of what it does,
-- which a location with the number of its block makes local to the block.
import Scicompute.Commuting

namespace Simt

/-- A program of one thread. `undefined` has no step, and is not at its end. -/
inductive Thread (L V R : Type)
  | done (r : R)
  | undefined
  | read (loc : L) (k : V → Thread L V R)
  | write (loc : L) (v : V) (k : Thread L V R)
  | shfl_down (v : V) (offset : Nat) (k : V → Thread L V R)
  | sync (k : Thread L V R)

namespace Thread

variable {L V R T : Type}

def bind : Thread L V R → (R → Thread L V T) → Thread L V T
  | done r, f => f r
  | undefined, _ => undefined
  | read loc k, f => read loc fun v => (k v).bind f
  | write loc v k, f => write loc v (k.bind f)
  | shfl_down v offset k, f => shfl_down v offset fun x => (k x).bind f
  | sync k, f => sync (k.bind f)

instance : Monad (Thread L V) where
  pure := done
  bind := bind

@[simp] theorem pure_eq (r : R) : (Pure.pure r : Thread L V R) = done r := rfl

@[simp] theorem done_bind (r : R) (f : R → Thread L V T) : (done r >>= f) = f r := rfl

@[simp] theorem undefined_bind (f : R → Thread L V T) : (undefined >>= f) = undefined := rfl

@[simp] theorem read_bind (loc : L) (k : V → Thread L V R) (f : R → Thread L V T) :
    (read loc k >>= f) = read loc fun v => k v >>= f := rfl

@[simp] theorem write_bind (loc : L) (v : V) (k : Thread L V R) (f : R → Thread L V T) :
    (write loc v k >>= f) = write loc v (k >>= f) := rfl

@[simp] theorem shfl_down_bind (v : V) (offset : Nat) (k : V → Thread L V R)
    (f : R → Thread L V T) :
    (shfl_down v offset k >>= f) = shfl_down v offset fun x => k x >>= f := rfl

@[simp] theorem sync_bind (k : Thread L V R) (f : R → Thread L V T) :
    (sync k >>= f) = sync (k >>= f) := rfl

theorem bind_bind {U : Type} (p : Thread L V R) (f : R → Thread L V T) (g : T → Thread L V U) :
    (p >>= f) >>= g = p >>= fun r => f r >>= g := by
  induction p with
  | done r => rfl
  | undefined => rfl
  | read loc k ih => exact congrArg (read loc) (funext ih)
  | write loc v k ih => exact congrArg (write loc v) ih
  | shfl_down v offset k ih => exact congrArg (shfl_down v offset) (funext ih)
  | sync k ih => exact congrArg sync ih

/-- `*loc` -/
def load (loc : L) : Thread L V V := read loc done

/-- `*loc = v` -/
def store (loc : L) (v : V) : Thread L V Unit := write loc v (done ())

/-- `__shfl_down_sync` -/
def shfl (v : V) (offset : Nat) : Thread L V V := shfl_down v offset done

/-- `__syncthreads()` -/
def barrier : Thread L V Unit := sync (done ())

/-- `if (c) p;` -/
def when (c : Prop) [Decidable c] (p : Thread L V Unit) : Thread L V Unit := if c then p else done ()

/-! ## What a thread stands at -/

/-- The value that a thread gives to its warp. -/
def sent : Thread L V R → Option V
  | shfl_down v _ _ => some v
  | _ => none

/-- The thread `t` after its warp has exchanged the values. A thread whose partner is behind the
end of the warp gets its own value. -/
def exchanged (p : Nat → Thread L V R) (t : Nat) : Thread L V R :=
  match p t with
  | shfl_down v offset k => k (if t % 32 + offset < 32 then (p (t + offset)).sent.getD v else v)
  | q => q

def AtSync : Thread L V R → Prop
  | sync _ => True
  | _ => False

instance : DecidablePred (AtSync : Thread L V R → Prop) := fun p =>
  match p with
  | done _ => isFalse id
  | undefined => isFalse id
  | read _ _ => isFalse id
  | write _ _ _ => isFalse id
  | shfl_down _ _ _ => isFalse id
  | sync _ => isTrue trivial

def afterSync : Thread L V R → Thread L V R
  | sync k => k
  | p => p

def IsDone : Thread L V R → Prop
  | done _ => True
  | _ => False

end Thread

/-! ## Steps -/

/-- The numbers of blocks, and of the threads of a block. -/
structure Launch where
  gridDim : Nat
  blockDim : Nat

/-- An access of a thread. `epoch` is the number of barriers that its block has passed. -/
structure Event (L : Type) where
  block : Nat
  tid : Nat
  epoch : Nat
  loc : L
  isWrite : Bool

@[ext]
structure State (L V : Type) where
  mem : L → V
  thread : Nat → Nat → Thread L V Unit
  epoch : Nat → Nat
  log : Multiset (Event L)

inductive Action
  | access (block tid : Nat)
  | exchange (block warp : Nat)
  | barrier (block : Nat)
  deriving DecidableEq

variable {L V : Type} [DecidableEq L]

/-- One thread has another program. -/
def setThread (f : Nat → Nat → Thread L V Unit) (b t : Nat) (p : Thread L V Unit) :
    Nat → Nat → Thread L V Unit :=
  fun b' t' => if b' = b ∧ t' = t then p else f b' t'

/-- The memory and the thread after an access, with its location and whether it is a write. -/
def Thread.access (m : L → V) : Thread L V Unit → Option ((L → V) × Thread L V Unit × L × Bool)
  | .read loc k => some (m, k (m loc), loc, false)
  | .write loc v k => some (Function.update m loc v, k, loc, true)
  | _ => none

def step (g : Launch) (s : State L V) : Action → Option (State L V)
  | .access b t =>
    if b < g.gridDim ∧ t < g.blockDim then
      ((s.thread b t).access s.mem).map fun (m, p, loc, isWrite) =>
        { s with mem := m, thread := setThread s.thread b t p,
                 log := ⟨b, t, s.epoch b, loc, isWrite⟩ ::ₘ s.log }
    else none
  | .exchange b w =>
    if b < g.gridDim ∧ w * 32 + 32 ≤ g.blockDim ∧
        ∀ l : Nat, l < 32 → (s.thread b (w * 32 + l)).sent.isSome = true then
      some { s with thread := fun b' t =>
        if b' = b ∧ t / 32 = w then Thread.exchanged (s.thread b') t else s.thread b' t }
    else none
  | .barrier b =>
    if b < g.gridDim ∧ ∀ t < g.blockDim, (s.thread b t).AtSync then
      some { s with
        thread := fun b' t =>
          if b' = b ∧ t < g.blockDim then (s.thread b' t).afterSync else s.thread b' t
        epoch := Function.update s.epoch b (s.epoch b + 1) }
    else none

/-- The state in which a kernel starts. -/
def launch (kernel : Nat → Nat → Thread L V Unit) (m : L → V) : State L V where
  mem := m
  thread := kernel
  epoch := fun _ => 0
  log := 0

/-- All threads are at their ends. -/
def Finished (g : Launch) (s : State L V) : Prop :=
  ∀ b < g.gridDim, ∀ t < g.blockDim, (s.thread b t).IsDone

/-- No location is accessed by one thread and written by another, unless both are of one block and
a barrier is between the accesses. -/
def NoRace (log : Multiset (Event L)) : Prop :=
  ∀ e ∈ log, ∀ e' ∈ log, e.loc = e'.loc → (e.isWrite ∨ e'.isWrite) →
    e.block = e'.block ∧ (e.tid = e'.tid ∨ e.epoch ≠ e'.epoch)

/-- All schedules of the kernel end in the state `s`, and no two accesses of a run race. -/
structure Ends (g : Launch) (kernel : Nat → Nat → Thread L V Unit) (m : L → V) (s : State L V) :
    Prop where
  settles : ∃ n, Transition.Settles (step g) (launch kernel m) s n
  finished : Finished g s
  noRace : NoRace s.log

variable {g : Launch} {s s' s1 s2 t : State L V} {x y : Action} {b b' i j w w' : Nat}

/-! ## What each step does -/

theorem step_access_iff : step g s (.access b i) = some s' ↔ b < g.gridDim ∧ i < g.blockDim ∧
    ∃ m p loc isWrite, (s.thread b i).access s.mem = some (m, p, loc, isWrite) ∧
      s' = { s with mem := m, thread := setThread s.thread b i p,
                    log := ⟨b, i, s.epoch b, loc, isWrite⟩ ::ₘ s.log } := by
  rw [step]
  split_ifs with hin
  · rw [Option.map_eq_some_iff]
    constructor
    · rintro ⟨⟨m, p, loc, isWrite⟩, haccess, rfl⟩
      exact ⟨hin.1, hin.2, m, p, loc, isWrite, haccess, rfl⟩
    · rintro ⟨-, -, m, p, loc, isWrite, haccess, rfl⟩
      exact ⟨_, haccess, rfl⟩
  · refine iff_of_false nofun ?_
    rintro ⟨hb, hi, -⟩
    exact hin ⟨hb, hi⟩

theorem step_exchange_iff : step g s (.exchange b w) = some s' ↔ (b < g.gridDim ∧
    w * 32 + 32 ≤ g.blockDim ∧ ∀ l : Nat, l < 32 → (s.thread b (w * 32 + l)).sent.isSome = true) ∧
      s' = { s with thread := fun b' t =>
        if b' = b ∧ t / 32 = w then Thread.exchanged (s.thread b') t else s.thread b' t } := by
  rw [step]
  split_ifs with hin
  · rw [Option.some.injEq, and_iff_right hin]
    exact eq_comm
  · exact iff_of_false nofun fun h => hin h.1

theorem step_barrier_iff : step g s (.barrier b) = some s' ↔
    (b < g.gridDim ∧ ∀ i < g.blockDim, (s.thread b i).AtSync) ∧
      s' = { s with
        thread := fun b' t =>
          if b' = b ∧ t < g.blockDim then (s.thread b' t).afterSync else s.thread b' t
        epoch := Function.update s.epoch b (s.epoch b + 1) } := by
  rw [step]
  split_ifs with hin
  · rw [Option.some.injEq, and_iff_right hin]
    exact eq_comm
  · exact iff_of_false nofun fun h => hin h.1

/-- A thread at an access is neither at an exchange nor at a barrier nor at its end. -/
theorem Thread.of_access {p : Thread L V Unit} {m : L → V} (h : (p.access m).isSome) :
    p.sent = none ∧ ¬ p.AtSync ∧ ¬ p.IsDone := by
  cases p <;> simp_all [Thread.access, Thread.sent, Thread.AtSync, Thread.IsDone]

omit [DecidableEq L] in
theorem Thread.of_sent {p : Thread L V Unit} (h : p.sent.isSome = true) :
    ¬ p.AtSync ∧ ¬ p.IsDone := by
  cases p <;> simp_all [Thread.sent, Thread.AtSync, Thread.IsDone]

omit [DecidableEq L] in
theorem Thread.not_done_of_atSync {p : Thread L V Unit} (h : p.AtSync) : ¬ p.IsDone := by
  cases p <;> simp_all [Thread.AtSync, Thread.IsDone]

omit [DecidableEq L] in
/-- The exchange of a warp is about its own threads. -/
theorem Thread.exchanged_congr {p q : Nat → Thread L V Unit} {i : Nat}
    (h : ∀ j, j / 32 = i / 32 → p j = q j) : Thread.exchanged p i = Thread.exchanged q i := by
  unfold Thread.exchanged
  rw [h i rfl]
  cases q i with
  | shfl_down v offset k =>
    dsimp only
    split_ifs with hlane
    · rw [h (i + offset) (by omega)]
    · rfl
  | done r => rfl
  | undefined => rfl
  | read loc k => rfl
  | write loc v k => rfl
  | sync k => rfl

/-- A thread at an access keeps what it has, and its block stays in the epoch, until the access. -/
theorem thread_of_step (h : step g s x = some s') (hx : x ≠ .access b i) (hi : i < g.blockDim)
    (haccess : ((s.thread b i).access s.mem).isSome) :
    s'.thread b i = s.thread b i ∧ s'.epoch b = s.epoch b := by
  obtain ⟨hsent, hsync, -⟩ := Thread.of_access haccess
  cases x with
  | access b' j =>
    obtain ⟨-, -, m, p, loc, isWrite, -, rfl⟩ := step_access_iff.mp h
    refine ⟨if_neg ?_, rfl⟩
    rintro ⟨rfl, rfl⟩
    exact hx rfl
  | exchange b' w =>
    obtain ⟨⟨-, -, hall⟩, rfl⟩ := step_exchange_iff.mp h
    refine ⟨if_neg ?_, rfl⟩
    rintro ⟨rfl, hw⟩
    have hlane := hall (i % 32) (Nat.mod_lt i (by decide))
    rw [← hw, Nat.div_add_mod', hsent] at hlane
    cases hlane
  | barrier b' =>
    obtain ⟨⟨-, hall⟩, rfl⟩ := step_barrier_iff.mp h
    have hb : b ≠ b' := by
      rintro rfl
      exact hsync (hall i hi)
    exact ⟨if_neg fun hb' => hb hb'.1, Function.update_of_ne hb _ _⟩

theorem log_of_step (h : step g s x = some s') {e : Event L} (he : e ∈ s.log) : e ∈ s'.log := by
  cases x with
  | access b' j =>
    obtain ⟨-, -, m, p, loc, isWrite, -, rfl⟩ := step_access_iff.mp h
    exact Multiset.mem_cons_of_mem he
  | exchange b' w =>
    obtain ⟨-, rfl⟩ := step_exchange_iff.mp h
    exact he
  | barrier b' =>
    obtain ⟨-, rfl⟩ := step_barrier_iff.mp h
    exact he

theorem log_of_run {as : List Action} (h : Transition.run (step g) s as = some s') {e : Event L}
    (he : e ∈ s.log) : e ∈ s'.log :=
  Transition.invariant_of_run (I := fun s => e ∈ s.log) (fun _ _ _ hs hstep => log_of_step hstep hs)
    he h

/-! ## Steps in another order -/

/-- The location of an access, and whether it is a write. -/
def Thread.kind : Thread L V Unit → Option (L × Bool)
  | .read loc _ => some (loc, false)
  | .write loc _ _ => some (loc, true)
  | _ => none

theorem Thread.access_of_kind {p : Thread L V Unit} {loc : L} {isWrite : Bool}
    (h : p.kind = some (loc, isWrite)) (m : L → V) :
    ∃ m' p', p.access m = some (m', p', loc, isWrite) := by
  cases p with
  | read loc' k =>
    cases h
    exact ⟨_, _, rfl⟩
  | write loc' v k =>
    cases h
    exact ⟨_, _, rfl⟩
  | done r => cases h
  | undefined => cases h
  | shfl_down v offset k => cases h
  | sync k => cases h

theorem Thread.kind_of_access {p p' : Thread L V Unit} {m m' : L → V} {loc : L} {isWrite : Bool}
    (h : p.access m = some (m', p', loc, isWrite)) : p.kind = some (loc, isWrite) := by
  cases p with
  | read loc' k =>
    cases h
    rfl
  | write loc' v k =>
    cases h
    rfl
  | done r => cases h
  | undefined => cases h
  | shfl_down v offset k => cases h
  | sync k => cases h

/-- A thread whose next access races with one that was made makes the run race. -/
theorem not_noRace_of_pending {as : List Action} {loc : L} {isWrite : Bool} {e : Event L}
    (hb : b < g.gridDim) (hi : i < g.blockDim) (hkind : (s.thread b i).kind = some (loc, isWrite))
    (he : e ∈ s.log) (hloc : e.loc = loc) (hwrite : e.isWrite ∨ isWrite)
    (hrace : ¬ (e.block = b ∧ (e.tid = i ∨ e.epoch ≠ s.epoch b)))
    (hr : Transition.run (step g) s as = some t) : ¬ (Finished g t ∧ NoRace t.log) := by
  rintro ⟨hfinished, hnoRace⟩
  induction as generalizing s with
  | nil =>
    rw [Transition.run, Option.some.injEq] at hr
    subst hr
    obtain ⟨m', p', haccess⟩ := Thread.access_of_kind hkind s.mem
    exact (Thread.of_access (Option.isSome_of_eq_some haccess)).2.2 (hfinished b hb i hi)
  | cons x as ih =>
    obtain ⟨u, hu, hrest⟩ := (Transition.run_cons s t x as).mp hr
    obtain ⟨m', p', haccess⟩ := Thread.access_of_kind hkind s.mem
    by_cases hx : x = .access b i
    · subst hx
      obtain ⟨-, -, m1, p1, loc1, isWrite1, haccess1, rfl⟩ := step_access_iff.mp hu
      rw [haccess] at haccess1
      cases haccess1
      -- both events are in the log from now on
      have hboth := hnoRace e (log_of_run hrest (Multiset.mem_cons_of_mem he)) _
        (log_of_run hrest (Multiset.mem_cons_self _ _)) hloc hwrite
      exact hrace hboth
    · obtain ⟨hthread, hepoch⟩ := thread_of_step hu hx hi (Option.isSome_of_eq_some haccess)
      exact ih (by rw [hthread, hkind]) (log_of_step hu he) (by rwa [hepoch]) hrest

/-- The two steps give the same state in both orders. -/
def Diamond (g : Launch) (s : State L V) (x y : Action) : Prop :=
  ∀ s1 s2, step g s x = some s1 → step g s y = some s2 →
    ∃ s3, step g s1 y = some s3 ∧ step g s2 x = some s3

theorem Diamond.symm (h : Diamond g s x y) : Diamond g s y x := by
  intro s1 s2 h1 h2
  obtain ⟨s3, h3, h3'⟩ := h s2 s1 h2 h1
  exact ⟨s3, h3', h3⟩

omit [DecidableEq L] in
theorem setThread_comm {f : Nat → Nat → Thread L V Unit} {p q : Thread L V Unit}
    (hne : ¬ (b = b' ∧ i = j)) :
    setThread (setThread f b i p) b' j q = setThread (setThread f b' j q) b i p := by
  funext c k
  unfold setThread
  split_ifs with h1 h2
  · exact absurd ⟨h2.1.symm.trans h1.1, h2.2.symm.trans h1.2⟩ hne
  · rfl
  · rfl
  · rfl

/-- Two accesses find in the memory the same in both orders, unless one writes what the other
accesses. -/
theorem Thread.access_comm {p q p' q' : Thread L V Unit} {m m1 m2 : L → V} {loc loc' : L}
    {isWrite isWrite' : Bool} (hp : p.access m = some (m1, p', loc, isWrite))
    (hq : q.access m = some (m2, q', loc', isWrite')) (hfree : loc = loc' → ¬ (isWrite ∨ isWrite')) :
    ∃ m3, q.access m1 = some (m3, q', loc', isWrite') ∧
      p.access m2 = some (m3, p', loc, isWrite) := by
  cases p with
  | read a k =>
    cases hp
    cases q with
    | read a' k' =>
      cases hq
      exact ⟨m, rfl, rfl⟩
    | write a' v' k' =>
      cases hq
      have hne : loc ≠ loc' := fun h => hfree h (Or.inr rfl)
      refine ⟨_, rfl, ?_⟩
      rw [access, Function.update_of_ne hne]
    | done r => cases hq
    | undefined => cases hq
    | shfl_down v offset k => cases hq
    | sync k => cases hq
  | write a v k =>
    cases hp
    have hne : loc ≠ loc' := fun h => hfree h (Or.inl rfl)
    cases q with
    | read a' k' =>
      cases hq
      refine ⟨_, ?_, rfl⟩
      rw [access, Function.update_of_ne hne.symm]
    | write a' v' k' =>
      cases hq
      refine ⟨_, rfl, ?_⟩
      rw [access, Function.update_comm hne]
    | done r => cases hq
    | undefined => cases hq
    | shfl_down v offset k => cases hq
    | sync k => cases hq
  | done r => cases hp
  | undefined => cases hp
  | shfl_down v offset k => cases hp
  | sync k => cases hp

/-- Accesses of two threads, of which none is a write of what the other accesses. -/
theorem diamond_access (hne : ¬ (b = b' ∧ i = j)) {loc loc' : L} {isWrite isWrite' : Bool}
    (hkind : (s.thread b i).kind = some (loc, isWrite))
    (hkind' : (s.thread b' j).kind = some (loc', isWrite'))
    (hfree : loc = loc' → ¬ (isWrite ∨ isWrite')) :
    Diamond g s (.access b i) (.access b' j) := by
  intro s1 s2 h1 h2
  obtain ⟨hb, hi, m, p, loc1, isWrite1, haccess, rfl⟩ := step_access_iff.mp h1
  obtain ⟨hb', hj, m', p', loc2, isWrite2, haccess', rfl⟩ := step_access_iff.mp h2
  obtain ⟨rfl, rfl⟩ : loc = loc1 ∧ isWrite = isWrite1 := by
    simpa using hkind.symm.trans (Thread.kind_of_access haccess)
  obtain ⟨rfl, rfl⟩ : loc' = loc2 ∧ isWrite' = isWrite2 := by
    simpa using hkind'.symm.trans (Thread.kind_of_access haccess')
  have hthread : setThread s.thread b i p b' j = s.thread b' j :=
    if_neg fun h => hne ⟨h.1.symm, h.2.symm⟩
  have hthread' : setThread s.thread b' j p' b i = s.thread b i := if_neg hne
  -- each access finds in the memory what it found before the other one
  obtain ⟨m3, h3, h3'⟩ := Thread.access_comm haccess haccess' hfree
  refine ⟨{ s with
      mem := m3
      thread := setThread (setThread s.thread b i p) b' j p'
      log := ⟨b', j, s.epoch b', loc', isWrite'⟩ ::ₘ ⟨b, i, s.epoch b, loc, isWrite⟩ ::ₘ s.log },
    step_access_iff.mpr ⟨hb', hj, m3, p', loc', isWrite', ?_, rfl⟩,
    step_access_iff.mpr ⟨hb, hi, m3, p, loc, isWrite, ?_, ?_⟩⟩
  · dsimp only
    rw [hthread]
    exact h3
  · dsimp only
    rw [hthread']
    exact h3'
  · rw [setThread_comm hne, Multiset.cons_swap]

theorem diamond_access_exchange : Diamond g s (.access b i) (.exchange b' w) := by
  intro s1 s2 h1 h2
  obtain ⟨hb, hi, m, p, loc, isWrite, haccess, rfl⟩ := step_access_iff.mp h1
  obtain ⟨⟨hb', hw, hall⟩, rfl⟩ := step_exchange_iff.mp h2
  have hsent := (Thread.of_access (Option.isSome_of_eq_some haccess)).1
  have hother : ∀ k, k / 32 = w → ¬ (b' = b ∧ k = i) := by
    rintro k hk ⟨rfl, rfl⟩
    have hlane := hall (k % 32) (Nat.mod_lt k (by decide))
    rw [← hk, Nat.div_add_mod', hsent] at hlane
    cases hlane
  refine ⟨{ s with
      mem := m
      thread := setThread (fun b'' t => if b'' = b' ∧ t / 32 = w
        then Thread.exchanged (s.thread b'') t else s.thread b'' t) b i p
      log := ⟨b, i, s.epoch b, loc, isWrite⟩ ::ₘ s.log },
    step_exchange_iff.mpr ⟨⟨hb', hw, fun l hl => ?_⟩, ?_⟩,
    step_access_iff.mpr ⟨hb, hi, m, p, loc, isWrite, ?_, rfl⟩⟩
  · have hthread : setThread s.thread b i p b' (w * 32 + l) = s.thread b' (w * 32 + l) :=
      if_neg (hother _ (by omega))
    dsimp only
    rw [hthread]
    exact hall l hl
  · refine State.ext rfl (funext fun c => funext fun k => ?_) rfl rfl
    dsimp only
    by_cases hin : c = b' ∧ k / 32 = w
    · obtain ⟨rfl, hk⟩ := hin
      rw [if_pos ⟨rfl, hk⟩, setThread, if_neg (hother k hk), if_pos ⟨rfl, hk⟩]
      refine Thread.exchanged_congr fun k' hk' => ?_
      exact (if_neg (hother k' (hk'.trans hk))).symm
    · rw [if_neg hin, setThread, setThread, if_neg hin]
  · dsimp only
    rw [if_neg fun h => hother i h.2 ⟨h.1.symm, rfl⟩]
    exact haccess

theorem diamond_access_barrier : Diamond g s (.access b i) (.barrier b') := by
  intro s1 s2 h1 h2
  obtain ⟨hb, hi, m, p, loc, isWrite, haccess, rfl⟩ := step_access_iff.mp h1
  obtain ⟨⟨hb', hall⟩, rfl⟩ := step_barrier_iff.mp h2
  have hsync := (Thread.of_access (Option.isSome_of_eq_some haccess)).2.1
  have hne : b ≠ b' := by
    rintro rfl
    exact hsync (hall i hi)
  refine ⟨{ s with
      mem := m
      thread := setThread (fun b'' t => if b'' = b' ∧ t < g.blockDim
        then (s.thread b'' t).afterSync else s.thread b'' t) b i p
      epoch := Function.update s.epoch b' (s.epoch b' + 1)
      log := ⟨b, i, s.epoch b, loc, isWrite⟩ ::ₘ s.log },
    step_barrier_iff.mpr ⟨⟨hb', fun k hk => ?_⟩, ?_⟩,
    step_access_iff.mpr ⟨hb, hi, m, p, loc, isWrite, ?_, ?_⟩⟩
  · have hthread : setThread s.thread b i p b' k = s.thread b' k :=
      if_neg fun h => hne h.1.symm
    dsimp only
    rw [hthread]
    exact hall k hk
  · refine State.ext rfl (funext fun c => funext fun k => ?_) rfl rfl
    dsimp only
    by_cases hin : c = b' ∧ k < g.blockDim
    · have hother : ¬ (c = b ∧ k = i) := fun h => hne (h.1.symm.trans hin.1)
      rw [if_pos hin, setThread, setThread, if_neg hother, if_neg hother, if_pos hin]
    · rw [if_neg hin, setThread, setThread, if_neg hin]
  · dsimp only
    rw [if_neg fun h => hne h.1]
    exact haccess
  · refine State.ext rfl rfl rfl ?_
    dsimp only
    rw [Function.update_of_ne hne]

theorem diamond_exchange (hne : ¬ (b = b' ∧ w = w')) :
    Diamond g s (.exchange b w) (.exchange b' w') := by
  intro s1 s2 h1 h2
  obtain ⟨⟨hb, hw, hall⟩, rfl⟩ := step_exchange_iff.mp h1
  obtain ⟨⟨hb', hw', hall'⟩, rfl⟩ := step_exchange_iff.mp h2
  have hother : ∀ {c k}, c = b ∧ k / 32 = w → ¬ (c = b' ∧ k / 32 = w') :=
    fun h h' => hne ⟨h.1.symm.trans h'.1, h.2.symm.trans h'.2⟩
  refine ⟨{ s with thread := fun c k =>
      if c = b ∧ k / 32 = w then Thread.exchanged (s.thread c) k
      else if c = b' ∧ k / 32 = w' then Thread.exchanged (s.thread c) k else s.thread c k },
    step_exchange_iff.mpr ⟨⟨hb', hw', fun l hl => ?_⟩, ?_⟩,
    step_exchange_iff.mpr ⟨⟨hb, hw, fun l hl => ?_⟩, ?_⟩⟩
  · dsimp only
    rw [if_neg fun h => hother h ⟨rfl, by omega⟩]
    exact hall' l hl
  · refine State.ext rfl (funext fun c => funext fun k => ?_) rfl rfl
    dsimp only
    by_cases h : c = b ∧ k / 32 = w
    · rw [if_pos h, if_neg (hother h), if_pos h]
    · rw [if_neg h]
      by_cases h' : c = b' ∧ k / 32 = w'
      · rw [if_pos h', if_pos h']
        refine Thread.exchanged_congr fun k' hk' => (if_neg fun hin => ?_).symm
        exact h ⟨hin.1, hk'.symm.trans hin.2⟩
      · rw [if_neg h', if_neg h', if_neg h]
  · dsimp only
    rw [if_neg fun h => hother ⟨rfl, by omega⟩ h]
    exact hall l hl
  · refine State.ext rfl (funext fun c => funext fun k => ?_) rfl rfl
    dsimp only
    by_cases h : c = b ∧ k / 32 = w
    · rw [if_pos h, if_pos h]
      refine Thread.exchanged_congr fun k' hk' => (if_neg fun hin => ?_).symm
      exact hother h ⟨hin.1, hk'.symm.trans hin.2⟩
    · rw [if_neg h, if_neg h]

theorem diamond_exchange_barrier : Diamond g s (.exchange b w) (.barrier b') := by
  intro s1 s2 h1 h2
  obtain ⟨⟨hb, hw, hall⟩, rfl⟩ := step_exchange_iff.mp h1
  obtain ⟨⟨hb', hall'⟩, rfl⟩ := step_barrier_iff.mp h2
  have hne : b ≠ b' := by
    rintro rfl
    exact (Thread.of_sent (hall 0 (by decide))).1 (hall' _ (by omega))
  refine ⟨{ s with
      thread := fun c k => if c = b ∧ k / 32 = w then Thread.exchanged (s.thread c) k
        else if c = b' ∧ k < g.blockDim then (s.thread c k).afterSync else s.thread c k
      epoch := Function.update s.epoch b' (s.epoch b' + 1) },
    step_barrier_iff.mpr ⟨⟨hb', fun k hk => ?_⟩, ?_⟩,
    step_exchange_iff.mpr ⟨⟨hb, hw, fun l hl => ?_⟩, ?_⟩⟩
  · dsimp only
    rw [if_neg fun h => hne h.1.symm]
    exact hall' k hk
  · refine State.ext rfl (funext fun c => funext fun k => ?_) rfl rfl
    dsimp only
    by_cases h : c = b' ∧ k < g.blockDim
    · have hother : ¬ (c = b ∧ k / 32 = w) := fun h' => hne (h'.1.symm.trans h.1)
      rw [if_pos h, if_neg hother, if_neg hother, if_pos h]
    · rw [if_neg h, if_neg h]
  · dsimp only
    rw [if_neg fun h => hne h.1]
    exact hall l hl
  · refine State.ext rfl (funext fun c => funext fun k => ?_) rfl rfl
    dsimp only
    by_cases h : c = b ∧ k / 32 = w
    · rw [if_pos h, if_pos h]
      refine Thread.exchanged_congr fun k' _ => (if_neg fun hin => ?_).symm
      exact hne (h.1.symm.trans hin.1)
    · rw [if_neg h, if_neg h]

theorem diamond_barrier (hne : b ≠ b') : Diamond g s (.barrier b) (.barrier b') := by
  intro s1 s2 h1 h2
  obtain ⟨⟨hb, hall⟩, rfl⟩ := step_barrier_iff.mp h1
  obtain ⟨⟨hb', hall'⟩, rfl⟩ := step_barrier_iff.mp h2
  have hother : ∀ {c k}, c = b ∧ k < g.blockDim → ¬ (c = b' ∧ k < g.blockDim) :=
    fun h h' => hne (h.1.symm.trans h'.1)
  refine ⟨{ s with
      thread := fun c k => if c = b ∧ k < g.blockDim then (s.thread c k).afterSync
        else if c = b' ∧ k < g.blockDim then (s.thread c k).afterSync else s.thread c k
      epoch := Function.update (Function.update s.epoch b (s.epoch b + 1)) b' (s.epoch b' + 1) },
    step_barrier_iff.mpr ⟨⟨hb', fun k hk => ?_⟩, ?_⟩,
    step_barrier_iff.mpr ⟨⟨hb, fun k hk => ?_⟩, ?_⟩⟩
  · dsimp only
    rw [if_neg fun h => hne h.1.symm]
    exact hall' k hk
  · refine State.ext rfl (funext fun c => funext fun k => ?_) ?_ rfl
    · dsimp only
      by_cases h : c = b ∧ k < g.blockDim
      · rw [if_pos h, if_neg (hother h), if_pos h]
      · rw [if_neg h, if_neg h]
    · dsimp only
      rw [Function.update_of_ne hne.symm]
  · dsimp only
    rw [if_neg fun h => hne h.1]
    exact hall k hk
  · refine State.ext rfl (funext fun c => funext fun k => ?_) ?_ rfl
    · dsimp only
      by_cases h : c = b ∧ k < g.blockDim
      · rw [if_pos h, if_pos h, if_neg (hother h)]
      · rw [if_neg h, if_neg h]
    · dsimp only
      rw [Function.update_of_ne hne, Function.update_comm hne]

/-- A run that ends without a race can take its steps in another order. -/
theorem commute (g : Launch) :
    Transition.Commute (step (L := L) (V := V) g) fun s => Finished g s ∧ NoRace s.log := by
  intro s x y s1 s2 as t hxy h1 h2 hr ht
  cases x with
  | access b i =>
    cases y with
    | access b' j =>
      have hne : ¬ (b = b' ∧ i = j) := by
        rintro ⟨rfl, rfl⟩
        exact hxy rfl
      obtain ⟨hb, hi, m, p, loc, isWrite, haccess, hs1⟩ := step_access_iff.mp h1
      obtain ⟨hb', hj, m', p', loc', isWrite', haccess', -⟩ := step_access_iff.mp h2
      have hkind := Thread.kind_of_access haccess
      have hkind' := Thread.kind_of_access haccess'
      refine diamond_access hne hkind hkind' (fun hloc hwrite => ?_) s1 s2 h1 h2
      -- the second access is still to come after the first one
      subst hs1
      refine not_noRace_of_pending hb' hj ?_ (Multiset.mem_cons_self _ _) hloc hwrite ?_ hr ht
      · exact (congrArg Thread.kind (if_neg fun h => hne ⟨h.1.symm, h.2.symm⟩)).trans hkind'
      · rintro ⟨rfl, htid | hepoch⟩
        · exact hne ⟨rfl, htid⟩
        · exact hepoch rfl
    | exchange b' w => exact diamond_access_exchange s1 s2 h1 h2
    | barrier b' => exact diamond_access_barrier s1 s2 h1 h2
  | exchange b w =>
    cases y with
    | access b' j => exact diamond_access_exchange.symm s1 s2 h1 h2
    | exchange b' w' =>
      refine diamond_exchange ?_ s1 s2 h1 h2
      rintro ⟨rfl, rfl⟩
      exact hxy rfl
    | barrier b' => exact diamond_exchange_barrier s1 s2 h1 h2
  | barrier b =>
    cases y with
    | access b' j => exact diamond_access_barrier.symm s1 s2 h1 h2
    | exchange b' w => exact diamond_exchange_barrier.symm s1 s2 h1 h2
    | barrier b' =>
      refine diamond_barrier ?_ s1 s2 h1 h2
      rintro rfl
      exact hxy rfl

/-- Threads at their ends take no step. -/
theorem step_of_finished (hg : 0 < g.blockDim) (h : Finished g s) (x : Action) :
    step g s x = none := by
  by_contra hne
  obtain ⟨s', hs'⟩ := Option.ne_none_iff_exists'.mp hne
  cases x with
  | access b i =>
    obtain ⟨hb, hi, m, p, loc, isWrite, haccess, -⟩ := step_access_iff.mp hs'
    exact (Thread.of_access (Option.isSome_of_eq_some haccess)).2.2 (h b hb i hi)
  | exchange b w =>
    obtain ⟨⟨hb, hw, hall⟩, -⟩ := step_exchange_iff.mp hs'
    exact (Thread.of_sent (hall 0 (by decide))).2 (h b hb _ (by omega))
  | barrier b =>
    obtain ⟨⟨hb, hall⟩, -⟩ := step_barrier_iff.mp hs'
    exact Thread.not_done_of_atSync (hall 0 hg) (h b hb 0 hg)

/-- One schedule that ends without a race stands for all schedules. -/
theorem ends_of_run (hg : 0 < g.blockDim) {kernel : Nat → Nat → Thread L V Unit} {m : L → V}
    {as : List Action} (hr : Transition.run (step g) (launch kernel m) as = some s)
    (hfinished : Finished g s) (hnoRace : NoRace s.log) : Ends g kernel m s :=
  ⟨⟨as.length, Transition.settles_of_run (commute g)
    (fun _ h x => step_of_finished hg h.1 x) hr ⟨hfinished, hnoRace⟩⟩, hfinished, hnoRace⟩

/-- All schedules end in the same state. -/
theorem Ends.unique (hg : 0 < g.blockDim) {kernel : Nat → Nat → Thread L V Unit} {m : L → V}
    (h : Ends g kernel m s) (h' : Ends g kernel m s') : s = s' := by
  obtain ⟨n, hsettles⟩ := h.settles
  obtain ⟨n', hsettles'⟩ := h'.settles
  obtain ⟨as, hr⟩ := hsettles.exists_run
  obtain ⟨bs, hbs, -⟩ := hsettles' as s hr
  cases bs with
  | nil => exact Option.some.inj hbs
  | cons x bs =>
    obtain ⟨u, hu, -⟩ := (Transition.run_cons ..).mp hbs
    rw [step_of_finished hg h.finished x] at hu
    cases hu

end Simt
