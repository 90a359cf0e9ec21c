-- What every path of a thread does, whatever it reads: the accesses that no schedule can leave out,
-- and the threads whose accesses do not depend on what they read, for which no order of the accesses
-- matters.
import Scicompute.SimtRuns

namespace Simt

open Thread

variable {L V R S T C : Type} {g : Launch} {s s' : State L V} {b t : Nat} {test : C → Bool}
  {next : C → C} {body : C → S → Thread L V S} {fuel : Nat} {c : C} {x : S}

/-! ## Accesses that cannot be left out -/

/-- Every path of the thread to its end makes an access of this kind. -/
def Thread.Must (φ : L → Bool → Prop) : Thread L V R → Prop
  | done _ => False
  | undefined => True
  | read loc k => φ loc false ∨ ∀ v, (k v).Must φ
  | write loc _ k => φ loc true ∨ k.Must φ
  | shfl_down _ _ k => ∀ v, (k v).Must φ
  | sync k => k.Must φ

variable {φ : L → Bool → Prop}

theorem Thread.Must.bind_left {p : Thread L V R} (h : p.Must φ) (f : R → Thread L V T) :
    (p >>= f).Must φ := by
  induction p with
  | done r => exact h.elim
  | undefined => trivial
  | read loc k ih => exact h.imp_right fun h v => ih v (h v)
  | write loc v k ih => exact h.imp_right fun h => ih h
  | shfl_down v offset k ih => exact fun x => ih x (h x)
  | sync k ih => exact ih h

theorem Thread.Must.bind_right (p : Thread L V R) {f : R → Thread L V T}
    (h : ∀ r, (f r).Must φ) : (p >>= f).Must φ := by
  induction p with
  | done r => exact h r
  | undefined => trivial
  | read loc k ih => exact Or.inr ih
  | write loc v k ih => exact Or.inr ih
  | shfl_down v offset k ih => exact ih
  | sync k ih => exact ih

/-- A loop that does not end. -/
theorem must_loop (h : rounds test next fuel c = none) (x : S) :
    (loop (L := L) (V := V) test next body fuel c x).Must φ := by
  induction fuel generalizing c x with
  | zero => trivial
  | succ fuel ih =>
    rw [rounds] at h
    rw [loop]
    split_ifs at h ⊢ with htest
    exact Must.bind_right _ fun y => ih (Option.map_eq_none_iff.mp h) y

variable [DecidableEq L]

/-- A path on which a thread is further on. -/
theorem must_of_step {x : Action} {t : Nat} (h : (s.thread b t).Must φ)
    (hstep : step g s x = some s') :
    (s'.thread b t).Must φ ∨ ∃ e ∈ s'.log, e.block = b ∧ e.tid = t ∧ φ e.loc e.isWrite := by
  cases x with
  | access b' j =>
    obtain ⟨hb', hj, m', p', loc, isWrite, haccess, rfl⟩ := step_access_iff.mp hstep
    by_cases hin : b = b' ∧ t = j
    · obtain ⟨rfl, rfl⟩ := hin
      have hnext : φ loc isWrite ∨ p'.Must φ := by
        cases hp : s.thread b t <;> rw [hp] at h haccess <;> cases haccess
        · exact h.imp_right fun h => h _
        · exact h
      rcases hnext with hφ | hmust
      · exact Or.inr ⟨_, Multiset.mem_cons_self _ _, rfl, rfl, hφ⟩
      · left
        dsimp only
        rwa [setThread, if_pos ⟨rfl, rfl⟩]
    · left
      dsimp only
      rwa [setThread, if_neg hin]
  | exchange b' w =>
    obtain ⟨-, rfl⟩ := step_exchange_iff.mp hstep
    left
    dsimp only
    split_ifs with hin
    · unfold exchanged
      cases hp : s.thread b t <;> rw [hp] at h <;> first | exact h | exact h _
    · exact h
  | barrier b' =>
    obtain ⟨-, rfl⟩ := step_barrier_iff.mp hstep
    left
    dsimp only
    split_ifs with hin
    · cases hp : s.thread b t <;> rw [hp] at h <;> exact h
    · exact h

variable {kernel : Nat → Nat → Thread L V Unit} {m : L → V} {as : List Action}

/-- A run with the thread at its end has made the access. -/
theorem exists_event_of_run (hmust : (kernel b t).Must φ)
    (hr : Transition.run (step g) (launch kernel m) as = some s) (hdone : (s.thread b t).IsDone) :
    ∃ e ∈ s.log, e.block = b ∧ e.tid = t ∧ φ e.loc e.isWrite := by
  have hinv : (s.thread b t).Must φ ∨ ∃ e ∈ s.log, e.block = b ∧ e.tid = t ∧ φ e.loc e.isWrite := by
    refine Transition.invariant_of_run (I := fun s : State L V => (s.thread b t).Must φ ∨
      ∃ e ∈ s.log, e.block = b ∧ e.tid = t ∧ φ e.loc e.isWrite) ?_ (Or.inl hmust) hr
    rintro s x s' (hmust | ⟨e, he, hkind⟩) hstep
    · exact must_of_step hmust hstep
    · exact Or.inr ⟨e, log_of_step hstep he, hkind⟩
  refine hinv.resolve_left fun hmust => ?_
  cases hthread : s.thread b t <;> rw [hthread] at hmust hdone <;>
    first | exact hmust | exact hdone

theorem exists_event_of_must (hb : b < g.gridDim) (ht : t < g.blockDim)
    (hmust : (kernel b t).Must φ) (h : Ends g kernel m s) :
    ∃ e ∈ s.log, e.block = b ∧ e.tid = t ∧ φ e.loc e.isWrite := by
  obtain ⟨n, hsettles⟩ := h.settles
  obtain ⟨as, hr⟩ := hsettles.exists_run
  exact exists_event_of_run hmust hr (h.finished b hb t ht)

/-! ## Accesses that do not depend on what is read -/

/-- Whatever the thread reads, it makes these accesses and is at its end. -/
inductive Always : Thread L V R → List (L × Bool) → Prop
  | done (r : R) : Always (done r) []
  | read {loc : L} {k : V → Thread L V R} {E : List (L × Bool)} (h : ∀ v, Always (k v) E) :
      Always (read loc k) ((loc, false) :: E)
  | write {loc : L} {v : V} {k : Thread L V R} {E : List (L × Bool)} (h : Always k E) :
      Always (write loc v k) ((loc, true) :: E)

omit [DecidableEq L] in
theorem Always.bind {p : Thread L V R} {f : R → Thread L V T} {E E' : List (L × Bool)}
    (h : Always p E) (h' : ∀ r, Always (f r) E') : Always (p >>= f) (E ++ E') := by
  induction h with
  | done r => exact h' r
  | read _ ih => exact Always.read ih
  | write _ ih => exact Always.write ih

omit [DecidableEq L] in
theorem always_store (loc : L) (v : V) : Always (store loc v) [(loc, true)] :=
  Always.write (Always.done ())

omit [DecidableEq L] in
theorem always_loop {l : List C} {A : C → List (L × Bool)}
    (hl : rounds test next fuel c = some l) (h : ∀ c ∈ l, ∀ x, Always (body c x) (A c)) (x : S) :
    Always (loop test next body fuel c x) (l.flatMap A) := by
  induction fuel generalizing c l x with
  | zero => cases hl
  | succ fuel ih =>
    rw [rounds] at hl
    rw [loop]
    split_ifs at hl ⊢ with htest
    · obtain ⟨l, hl', rfl⟩ := Option.map_eq_some_iff.mp hl
      rw [List.forall_mem_cons] at h
      exact (h.1 x).bind fun y => ih hl' h.2 y
    · cases hl
      exact Always.done x

/-- The events of all threads, if each makes these accesses before any barrier. -/
def total (g : Launch) (A : Nat → Nat → List (L × Bool)) : Multiset (Event L) :=
  ∑ x ∈ Finset.range g.gridDim ×ˢ Finset.range g.blockDim, events x.1 x.2 0 (A x.1 x.2)

/-- The accesses that are left after one of the thread `t`. -/
def leave (A : Nat → Nat → List (L × Bool)) (b t : Nat) (l : List (L × Bool)) :
    Nat → Nat → List (L × Bool) :=
  fun b' t' => if b' = b ∧ t' = t then l else A b' t'

omit [DecidableEq L] in
theorem total_leave {A : Nat → Nat → List (L × Bool)} {a : L × Bool} {l : List (L × Bool)}
    (hb : b < g.gridDim) (ht : t < g.blockDim) (h : A b t = a :: l) :
    total g A = ⟨b, t, 0, a.1, a.2⟩ ::ₘ total g (leave A b t l) := by
  have hmem : (b, t) ∈ Finset.range g.gridDim ×ˢ Finset.range g.blockDim :=
    Finset.mem_product.mpr ⟨Finset.mem_range.mpr hb, Finset.mem_range.mpr ht⟩
  have hself : leave A b t l b t = l := if_pos ⟨rfl, rfl⟩
  unfold total
  rw [← Finset.add_sum_erase _ _ hmem, ← Finset.add_sum_erase _ _ hmem]
  dsimp only
  rw [h, hself, events_cons, Multiset.cons_add]
  refine congrArg _ (congrArg _ (Finset.sum_congr rfl fun x hx => ?_))
  have hne : ¬ (x.1 = b ∧ x.2 = t) := fun h => Finset.ne_of_mem_erase hx (Prod.ext h.1 h.2)
  rw [leave, if_neg hne]

/-- The threads have accesses before them which, with those of the past, are `A`. -/
def OnTheWay (g : Launch) (A : Nat → Nat → List (L × Bool)) (s : State L V) : Prop :=
  (∀ b, s.epoch b = 0) ∧ ∃ B : Nat → Nat → List (L × Bool), s.log + total g B = total g A ∧
    ∀ b < g.gridDim, ∀ t < g.blockDim, Always (s.thread b t) (B b t)

variable {A : Nat → Nat → List (L × Bool)}

omit [DecidableEq L] in
theorem Always.not_waiting {p : Thread L V Unit} {E : List (L × Bool)} (h : Always p E) :
    p.sent = none ∧ ¬ p.AtSync := by
  cases h with
  | done r => exact ⟨rfl, id⟩
  | read _ => exact ⟨rfl, id⟩
  | write _ => exact ⟨rfl, id⟩

omit [DecidableEq L] in
/-- A thread without accesses is at its end. -/
theorem Always.isDone_iff {p : Thread L V Unit} {E : List (L × Bool)} (h : Always p E) :
    p.IsDone ↔ E = [] := by
  cases h with
  | done r => exact iff_of_true trivial rfl
  | read _ => exact iff_of_false id (List.cons_ne_nil _ _)
  | write _ => exact iff_of_false id (List.cons_ne_nil _ _)

/-- The access that is made is the first of the list. -/
theorem Always.of_access {p p' : Thread L V Unit} {m m' : L → V} {loc : L} {isWrite : Bool}
    {E : List (L × Bool)} (h : Always p E) (haccess : p.access m = some (m', p', loc, isWrite)) :
    ∃ l, E = (loc, isWrite) :: l ∧ Always p' l := by
  cases h with
  | done r => cases haccess
  | read h =>
    cases haccess
    exact ⟨_, rfl, h _⟩
  | write h =>
    cases haccess
    exact ⟨_, rfl, h⟩

/-- The first access of the list can be made. -/
theorem Always.exists_access {p : Thread L V Unit} {a : L × Bool} {l : List (L × Bool)}
    (h : Always p (a :: l)) (m : L → V) :
    ∃ m' p', p.access m = some (m', p', a.1, a.2) ∧ Always p' l := by
  cases h with
  | read h => exact ⟨_, _, rfl, h _⟩
  | write h => exact ⟨_, _, rfl, h⟩

omit [DecidableEq L] in
/-- What an access of the thread `t` leaves. -/
theorem always_leave {B : Nat → Nat → List (L × Bool)} {p : Thread L V Unit} {l : List (L × Bool)}
    (hB : ∀ b < g.gridDim, ∀ t < g.blockDim, Always (s.thread b t) (B b t)) (hp : Always p l) :
    ∀ b' < g.gridDim, ∀ t' < g.blockDim,
      Always (setThread s.thread b t p b' t') (leave B b t l b' t') := by
  intro b' hb' t' ht'
  unfold setThread leave
  split_ifs with hin
  · exact hp
  · exact hB b' hb' t' ht'

theorem onTheWay_of_step {x : Action} (hg : 0 < g.blockDim) (h : OnTheWay g A s)
    (hstep : step g s x = some s') : OnTheWay g A s' ∧ s'.log.card = s.log.card + 1 := by
  obtain ⟨hepoch, B, hlog, hB⟩ := h
  cases x with
  | access b t =>
    obtain ⟨hb, ht, m', p', loc, isWrite, haccess, rfl⟩ := step_access_iff.mp hstep
    obtain ⟨l, hl, hp'⟩ := (hB b hb t ht).of_access haccess
    refine ⟨⟨hepoch, leave B b t l, ?_, always_leave hB hp'⟩, Multiset.card_cons _ _⟩
    rw [← hlog, total_leave hb ht hl]
    dsimp only
    rw [hepoch b, Multiset.cons_add, Multiset.add_cons]
  | exchange b w =>
    obtain ⟨⟨hb, hw, hall⟩, -⟩ := step_exchange_iff.mp hstep
    have hlane := hall 0 (by decide)
    rw [(hB b hb (w * 32 + 0) (by omega)).not_waiting.1] at hlane
    cases hlane
  | barrier b =>
    obtain ⟨⟨hb, hall⟩, -⟩ := step_barrier_iff.mp hstep
    exact absurd (hall 0 hg) (hB b hb 0 hg).not_waiting.2

/-- Every run is shorter than the accesses, and on the way to its end. -/
theorem onTheWay_of_run (hg : 0 < g.blockDim) (hA : ∀ b < g.gridDim, ∀ t < g.blockDim,
      Always (kernel b t) (A b t)) (hr : Transition.run (step g) (launch kernel m) as = some s) :
    OnTheWay g A s ∧ s.log.card = as.length := by
  have hrun : ∀ (as : List Action) (s s' : State L V), OnTheWay g A s →
      Transition.run (step g) s as = some s' →
      OnTheWay g A s' ∧ s'.log.card = s.log.card + as.length := by
    intro as
    induction as with
    | nil =>
      intro s s' h hr
      rw [Transition.run, Option.some.injEq] at hr
      subst hr
      exact ⟨h, rfl⟩
    | cons x as ih =>
      intro s s' h hr
      obtain ⟨s1, hs1, hrest⟩ := (Transition.run_cons ..).mp hr
      obtain ⟨h1, hcard1⟩ := onTheWay_of_step hg h hs1
      obtain ⟨h2, hcard2⟩ := ih s1 s' h1 hrest
      refine ⟨h2, ?_⟩
      rw [hcard2, hcard1, List.length_cons]
      omega
  obtain ⟨hway, hcard⟩ := hrun as _ s ⟨fun _ => rfl, A, zero_add _, hA⟩ hr
  refine ⟨hway, ?_⟩
  rw [hcard]
  exact Nat.zero_add _

/-- All threads can go on to their ends. -/
theorem OnTheWay.exists_run (h : OnTheWay g A s) :
    ∃ as s', Transition.run (step g) s as = some s' ∧ Finished g s' := by
  obtain ⟨hepoch, B, hlog, hB⟩ := h
  have hpart : ∀ (n : Nat) (B : Nat → Nat → List (L × Bool)) (s : State L V),
      (total g B).card = n → (∀ b < g.gridDim, ∀ t < g.blockDim, Always (s.thread b t) (B b t)) →
      ∃ as s', Transition.run (step g) s as = some s' ∧ Finished g s' := by
    intro n
    induction n with
    | zero =>
      intro B s hcard hB
      refine ⟨[], s, rfl, fun b hb t ht => (hB b hb t ht).isDone_iff.mpr ?_⟩
      cases hl : B b t with
      | nil => rfl
      | cons a l =>
        rw [total_leave hb ht hl, Multiset.card_cons] at hcard
        omega
    | succ n ih =>
      intro B s hcard hB
      -- a thread that is not at its end makes its next access
      by_cases hfinished : Finished g s
      · exact ⟨[], s, rfl, hfinished⟩
      unfold Finished at hfinished
      push Not at hfinished
      obtain ⟨b, hb, t, ht, hthread⟩ := hfinished
      cases hl : B b t with
      | nil => exact absurd ((hB b hb t ht).isDone_iff.mpr hl) hthread
      | cons a l =>
        have hnext := hB b hb t ht
        rw [hl] at hnext
        obtain ⟨m', p', haccess, hp'⟩ := hnext.exists_access s.mem
        rw [total_leave hb ht hl, Multiset.card_cons] at hcard
        obtain ⟨as, s', hr, hs'⟩ := ih (leave B b t l) { s with
          mem := m'
          thread := setThread s.thread b t p'
          log := ⟨b, t, s.epoch b, a.1, a.2⟩ ::ₘ s.log } (by omega) (always_leave hB hp')
        exact ⟨.access b t :: as, s', (Transition.run_cons ..).mpr ⟨_, step_access_iff.mpr
          ⟨hb, ht, m', p', a.1, a.2, haccess, rfl⟩, hr⟩, hs'⟩
  exact hpart _ B s rfl hB

omit [DecidableEq L] in
/-- All accesses are made at the end. -/
theorem OnTheWay.log_eq (h : OnTheWay g A s) (hfinished : Finished g s) : s.log = total g A := by
  obtain ⟨-, B, hlog, hB⟩ := h
  have hzero : total g B = 0 := by
    refine Finset.sum_eq_zero fun x hx => ?_
    obtain ⟨hb, ht⟩ := Finset.mem_product.mp hx
    have hnil := (hB x.1 (Finset.mem_range.mp hb) x.2 (Finset.mem_range.mp ht)).isDone_iff.mp
      (hfinished x.1 (Finset.mem_range.mp hb) x.2 (Finset.mem_range.mp ht))
    rw [hnil]
    rfl
  rw [← hlog, hzero, add_zero]

/-- Every run is bounded, and all threads can go on from it to their ends. -/
theorem leaves_of_always (hg : 0 < g.blockDim) (hA : ∀ b < g.gridDim, ∀ t < g.blockDim,
      Always (kernel b t) (A b t)) (m : L → V) :
    ∃ n, ∀ as s, Transition.run (step g) (launch kernel m) as = some s → as.length ≤ n ∧
      ∃ bs s', Transition.run (step g) s bs = some s' ∧ Finished g s' := by
  refine ⟨(total g A).card, fun as s hr => ?_⟩
  obtain ⟨hs, hcard⟩ := onTheWay_of_run hg hA hr
  refine ⟨?_, hs.exists_run⟩
  obtain ⟨-, B, hlog, -⟩ := hs
  rw [← hlog, Multiset.card_add, hcard]
  exact Nat.le_add_right _ _

omit [DecidableEq L] in
theorem mem_total {e : Event L} : e ∈ total g A ↔ e.block < g.gridDim ∧ e.tid < g.blockDim ∧
    e.epoch = 0 ∧ (e.loc, e.isWrite) ∈ A e.block e.tid := by
  unfold total
  rw [Multiset.mem_sum]
  constructor
  · rintro ⟨x, hx, he⟩
    obtain ⟨hb, ht⟩ := Finset.mem_product.mp hx
    obtain ⟨hblock, htid, hepoch, hloc⟩ := mem_events.mp he
    rw [hblock, htid]
    exact ⟨Finset.mem_range.mp hb, Finset.mem_range.mp ht, hepoch, hloc⟩
  · rintro ⟨hb, ht, hepoch, hloc⟩
    exact ⟨(e.block, e.tid), Finset.mem_product.mpr ⟨Finset.mem_range.mpr hb, Finset.mem_range.mpr ht⟩,
      mem_events.mpr ⟨rfl, rfl, hepoch, hloc⟩⟩

end Simt
