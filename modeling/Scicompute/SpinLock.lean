-- The spin lock (include/bridges/ipc_bridge.hpp, 56-68), and threads that use it: each takes the
-- lock with `Lock` or `TryLock`, performs a section of actions on what they share, and gives it up
-- with `Unlock`. A test of the flag and a single action are one step each.
import Scicompute.CriticalSections
import Scicompute.Monitor
import Scicompute.Transition

open Transition CriticalSections

namespace sci.bridges

structure SpinLock where
  locked_ : Bool

namespace SpinLock

/-- The value that the flag had, and the lock afterwards. -/
def test_and_set (l : SpinLock) : Bool × SpinLock := (l.locked_, ⟨true⟩)

def TryLock (l : SpinLock) : Bool × SpinLock := (!l.test_and_set.1, l.test_and_set.2)

def Unlock (_ : SpinLock) : SpinLock := ⟨false⟩

/-- Where a thread is: in the loop of `Lock`, or between its test and `Unlock`, with the actions
that it has still to do. -/
inductive Place (A : Type*)
  | outside
  | spinning (todo : List A)
  | inside (todo : List A)

def Place.Inside {A : Type*} (p : Place A) : Prop := ∃ todo, p = .inside todo

/-- The section that the thread waits for. -/
def Place.waiting {A : Type*} : Place A → List (List A)
  | .spinning todo => [todo]
  | _ => []

/-- `entered` has the sections that were begun, and `asked` those that `Lock` was called for or
`TryLock` has begun; the code stores neither. -/
structure System (T A S : Type*) where
  lock : SpinLock
  shared : S
  place : T → Place A
  entered : List (T × List A)
  asked : T → List (List A)

/-- `test` is one round of the loop in `Lock`. -/
inductive Step (T A : Type*)
  | Lock (t : T) (todo : List A)
  | test (t : T)
  | TryLock (t : T) (todo : List A)
  | act (t : T)
  | Unlock (t : T)

def Step.thread {T A : Type*} : Step T A → T
  | .Lock t _ | .test t | .TryLock t _ | .act t | .Unlock t => t

namespace System

variable {T A S : Type*} [DecidableEq T]

def start (init : S) : System T A S :=
  ⟨⟨false⟩, init, fun _ => .outside, [], fun _ => []⟩

def ask (s : System T A S) (t : T) (todo : List A) : System T A S :=
  { s with asked := Function.update s.asked t (s.asked t ++ [todo]) }

/-- The test has found the lock free. -/
def enter (s : System T A S) (t : T) (todo : List A) : System T A S :=
  { s with
    place := Function.update s.place t (.inside todo)
    entered := s.entered ++ [(t, todo)] }

def step (act : A → S → S) (s : System T A S) : Step T A → Option (System T A S)
  | .Lock t todo =>
    match s.place t with
    | .outside => some { s.ask t todo with place := Function.update s.place t (.spinning todo) }
    | _ => none
  | .test t =>
    match s.place t with
    | .spinning todo =>
      let (old, lock) := s.lock.test_and_set
      if old then some { s with lock := lock } else some ({ s with lock := lock }.enter t todo)
    | _ => none
  | .TryLock t todo =>
    match s.place t with
    | .outside =>
      let (ok, lock) := s.lock.TryLock
      if ok then some (({ s with lock := lock }.ask t todo).enter t todo)
      else some { s with lock := lock }
    | _ => none
  | .act t =>
    match s.place t with
    | .inside (a :: todo) =>
      some { s with shared := act a s.shared, place := Function.update s.place t (.inside todo) }
    | _ => none
  | .Unlock t =>
    match s.place t with
    | .inside [] =>
      some { s with lock := s.lock.Unlock, place := Function.update s.place t .outside }
    | _ => none

variable {act : A → S → S} {init : S} {s s' : System T A S} {t u : T} {todo : List A}

/-! ## What a step does -/

/-- The steps, by what they find. A failed test changes nothing. -/
inductive Does (act : A → S → S) (s : System T A S) : Step T A → System T A S → Prop
  | ask (t : T) (todo : List A) (h : s.place t = .outside) :
    Does act s (.Lock t todo)
      { s.ask t todo with place := Function.update s.place t (.spinning todo) }
  | fail (c : Step T A) (h : s.lock.locked_ = true) : Does act s c s
  | take (t : T) (todo : List A) (h : s.place t = .spinning todo) (hfree : s.lock.locked_ = false) :
    Does act s (.test t) ({ s with lock := ⟨true⟩ }.enter t todo)
  | takeNow (t : T) (todo : List A) (h : s.place t = .outside) (hfree : s.lock.locked_ = false) :
    Does act s (.TryLock t todo) (({ s with lock := ⟨true⟩ }.ask t todo).enter t todo)
  | work (t : T) (a : A) (todo : List A) (h : s.place t = .inside (a :: todo)) :
    Does act s (.act t)
      { s with shared := act a s.shared, place := Function.update s.place t (.inside todo) }
  | leave (t : T) (h : s.place t = .inside []) :
    Does act s (.Unlock t) { s with lock := ⟨false⟩, place := Function.update s.place t .outside }

theorem does_of_step {c : Step T A} (h : step act s c = some s') : Does act s c s' := by
  have hsame (hlocked : s.lock.locked_ = true) : { s with lock := ⟨true⟩ } = s := by
    rw [← hlocked]
  cases c with
  | Lock t todo =>
    cases hplace : s.place t with
    | outside =>
      simp only [step, hplace, Option.some.injEq] at h
      exact h ▸ .ask t todo hplace
    | spinning _ => simp [step, hplace] at h
    | inside _ => simp [step, hplace] at h
  | test t =>
    cases hplace : s.place t with
    | outside => simp [step, hplace] at h
    | spinning todo =>
      cases hlocked : s.lock.locked_ with
      | false =>
        simp only [step, hplace, test_and_set, hlocked, Bool.false_eq_true, if_false,
          Option.some.injEq] at h
        exact h ▸ .take t todo hplace hlocked
      | true =>
        simp only [step, hplace, test_and_set, hlocked, if_true, hsame hlocked,
          Option.some.injEq] at h
        exact h ▸ .fail _ hlocked
    | inside _ => simp [step, hplace] at h
  | TryLock t todo =>
    cases hplace : s.place t with
    | outside =>
      cases hlocked : s.lock.locked_ with
      | false =>
        simp only [step, hplace, SpinLock.TryLock, test_and_set, hlocked, Bool.not_false, if_true,
          Option.some.injEq] at h
        exact h ▸ .takeNow t todo hplace hlocked
      | true =>
        simp only [step, hplace, SpinLock.TryLock, test_and_set, hlocked, Bool.not_true,
          Bool.false_eq_true, if_false, hsame hlocked, Option.some.injEq] at h
        exact h ▸ .fail _ hlocked
    | spinning _ => simp [step, hplace] at h
    | inside _ => simp [step, hplace] at h
  | act t =>
    cases hplace : s.place t with
    | outside => simp [step, hplace] at h
    | spinning _ => simp [step, hplace] at h
    | inside todo =>
      cases todo with
      | nil => simp [step, hplace] at h
      | cons a todo =>
        simp only [step, hplace, Option.some.injEq] at h
        exact h ▸ .work t a todo hplace
  | Unlock t =>
    cases hplace : s.place t with
    | outside => simp [step, hplace] at h
    | spinning _ => simp [step, hplace] at h
    | inside todo =>
      cases todo with
      | nil =>
        simp only [step, hplace, SpinLock.Unlock, Option.some.injEq] at h
        exact h ▸ .leave t hplace
      | cons _ _ => simp [step, hplace] at h

/-! ## The invariant -/

/-- The flag is set while a thread is inside, there is no more than one, and what is shared is what
the sections make of it one after the other. -/
structure Good (act : A → S → S) (init : S) (s : System T A S) : Prop where
  guards : ∃ owner, Monitor.Guards (fun t => (s.place t).Inside) owner ∧
    s.lock.locked_ = owner.isSome
  work : ∀ t todo, s.place t = .inside todo → AtWork act init s.entered t todo s.shared
  free : s.lock.locked_ = false → s.shared = performAll act s.entered init
  asked : ∀ t, s.asked t = sectionsOf t s.entered ++ (s.place t).waiting

theorem Good.start (act : A → S → S) (init : S) : Good act init (start init : System T A S) := by
  refine ⟨⟨none, ?_, rfl⟩, ?_, fun _ => rfl, fun _ => rfl⟩
  · intro t
    constructor
    · rintro ⟨todo, h⟩
      cases h
    · intro h
      cases h
  · intro t todo h
    cases h

variable {p : Place A} {owner : Option T} {place : T → Place A}

theorem Good.no_owner (h : Good act init s) (hfree : s.lock.locked_ = false) :
    Monitor.Guards (fun t => (s.place t).Inside) none := by
  obtain ⟨owner, hguards, hlocked⟩ := h.guards
  rw [hfree] at hlocked
  cases owner with
  | none => exact hguards
  | some t => cases hlocked

/-- A thread that does not enter and does not leave. -/
theorem guards_stay (h : Monitor.Guards (fun t => (place t).Inside) owner)
    (hp : p.Inside ↔ (place t).Inside) :
    Monitor.Guards (fun u => (Function.update place t p u).Inside) owner := by
  apply h.stay
  intro u
  by_cases hu : u = t
  · subst hu
    rw [Function.update_self]
    exact hp
  · rw [Function.update_of_ne hu]

theorem inside_of_ne (p : Place A) (hu : u ≠ t) :
    (Function.update place t p u).Inside ↔ (place u).Inside := by
  rw [Function.update_of_ne hu]

/-- The threads that were inside are still there. -/
theorem place_of_update (hp : ¬ p.Inside) (hu : Function.update place t p u = .inside todo) :
    place u = .inside todo := by
  by_cases hut : u = t
  · subst hut
    rw [Function.update_self] at hu
    exact absurd ⟨todo, hu⟩ hp
  · rwa [Function.update_of_ne hut] at hu

theorem Good.take (h : Good act init s) (hfree : s.lock.locked_ = false) (t : T) (todo : List A)
    {asked : T → List (List A)}
    (hasked : ∀ u, asked u =
      sectionsOf u s.entered ++ if t = u then [todo] else (s.place u).waiting) :
    Good act init ({ s with lock := ⟨true⟩, asked := asked }.enter t todo) := by
  have hnone := h.no_owner hfree
  have hinside : (Function.update s.place t (.inside todo) t).Inside := by
    rw [Function.update_self]
    exact ⟨todo, rfl⟩
  have hguards := hnone.enter hinside (fun u hu => inside_of_ne (.inside todo) hu)
  refine ⟨⟨some t, hguards, rfl⟩, ?_, ?_, ?_⟩
  · intro u todo' hu
    have htu : t = u := Option.some.inj ((hguards u).mp ⟨todo', hu⟩)
    subst htu
    change Function.update s.place t (.inside todo) t = _ at hu
    rw [Function.update_self] at hu
    cases hu
    exact .enter (h.free hfree) t todo
  · intro hlocked
    cases hlocked
  · intro u
    change asked u = sectionsOf u (s.entered ++ [(t, todo)]) ++
      (Function.update s.place t (.inside todo) u).waiting
    rw [hasked, sectionsOf_enter]
    by_cases hu : t = u
    · subst hu
      rw [if_pos rfl, if_pos rfl, Function.update_self]
      exact (List.append_nil _).symm
    · rw [if_neg hu, if_neg hu, Function.update_of_ne (Ne.symm hu), List.append_nil]

theorem Good.does {c : Step T A} (h : Good act init s) (hdoes : Does act s c s') :
    Good act init s' := by
  cases hdoes with
  | ask t todo hplace =>
    obtain ⟨owner, hguards, hlocked⟩ := h.guards
    have hout : ¬ (Place.spinning todo).Inside := by
      rintro ⟨_, heq⟩
      cases heq
    refine ⟨⟨owner, guards_stay hguards ?_, hlocked⟩, ?_, h.free, ?_⟩
    · rw [hplace]
      constructor
      · intro hin
        exact absurd hin hout
      · rintro ⟨_, heq⟩
        cases heq
    · intro u todo' hu
      exact h.work u todo' (place_of_update hout hu)
    · intro u
      change Function.update s.asked t (s.asked t ++ [todo]) u = sectionsOf u s.entered ++
        (Function.update s.place t (.spinning todo) u).waiting
      by_cases hu : u = t
      · subst hu
        rw [Function.update_self, Function.update_self, h.asked, hplace]
        exact congrArg (· ++ [todo]) (List.append_nil _)
      · rw [Function.update_of_ne hu, Function.update_of_ne hu, h.asked]
  | fail c hlocked => exact h
  | take t todo hplace hfree =>
    apply h.take hfree t todo
    intro u
    rw [h.asked]
    split_ifs with hu
    · rw [← hu, hplace]
      rfl
    · rfl
  | takeNow t todo hplace hfree =>
    apply h.take hfree t todo
    intro u
    by_cases hu : t = u
    · subst hu
      rw [if_pos rfl, Function.update_self, h.asked, hplace]
      exact congrArg (· ++ [todo]) (List.append_nil _)
    · rw [if_neg hu, Function.update_of_ne (Ne.symm hu), h.asked]
  | work t a todo hplace =>
    obtain ⟨owner, hguards, hlocked⟩ := h.guards
    have hin : (s.place t).Inside := ⟨_, hplace⟩
    refine ⟨⟨owner, guards_stay hguards ?_, hlocked⟩, ?_, ?_, ?_⟩
    · exact iff_of_true ⟨todo, rfl⟩ hin
    · intro u todo' hu
      change Function.update s.place t (.inside todo) u = _ at hu
      by_cases hut : u = t
      · subst hut
        rw [Function.update_self] at hu
        cases hu
        exact (h.work u _ hplace).next
      · rw [Function.update_of_ne hut] at hu
        exact absurd (hguards.unique ⟨todo', hu⟩ hin) hut
    · intro hfree
      have hset : s.lock.locked_ = true := by
        rw [hlocked, (hguards t).mp hin]
        rfl
      rw [hset] at hfree
      cases hfree
    · intro u
      change s.asked u = sectionsOf u s.entered ++
        (Function.update s.place t (.inside todo) u).waiting
      rw [h.asked]
      by_cases hu : u = t
      · subst hu
        rw [Function.update_self, hplace]
        rfl
      · rw [Function.update_of_ne hu]
  | leave t hplace =>
    obtain ⟨owner, hguards, hlocked⟩ := h.guards
    have hin : (s.place t).Inside := ⟨_, hplace⟩
    have hout : ¬ (Place.outside : Place A).Inside := by
      rintro ⟨_, heq⟩
      cases heq
    have hgone : ¬ (Function.update s.place t .outside t).Inside := by
      rw [Function.update_self]
      exact hout
    have hnone := hguards.leave hin hgone (fun u hu => inside_of_ne .outside hu)
    refine ⟨⟨none, hnone, rfl⟩, ?_, ?_, ?_⟩
    · intro u todo' hu
      exact h.work u todo' (place_of_update hout hu)
    · intro _
      exact (h.work t [] hplace).leave
    · intro u
      change s.asked u = sectionsOf u s.entered ++
        (Function.update s.place t .outside u).waiting
      rw [h.asked]
      by_cases hu : u = t
      · subst hu
        rw [Function.update_self, hplace]
        rfl
      · rw [Function.update_of_ne hu]

/-! ## Threads that are let run -/

/-- The steps of one thread change the place of no other. -/
theorem Does.place_eq {c : Step T A} (h : Does act s c s') (hu : u ≠ c.thread) :
    s'.place u = s.place u := by
  cases h with
  | fail => rfl
  | ask t todo => exact Function.update_of_ne hu _ _
  | take t todo => exact Function.update_of_ne hu _ _
  | takeNow t todo => exact Function.update_of_ne hu _ _
  | work t a todo => exact Function.update_of_ne hu _ _
  | leave t => exact Function.update_of_ne hu _ _

/-- A thread that is inside finishes its section and leaves. -/
theorem exists_leave (act : A → S → S) (hplace : s.place t = .inside todo) : ∃ steps s',
    run (step act) s steps = some s' ∧ s'.place = Function.update s.place t .outside ∧
      s'.lock.locked_ = false ∧ s'.asked = s.asked := by
  induction todo generalizing s with
  | nil =>
    refine ⟨[.Unlock t], { s with lock := ⟨false⟩, place := Function.update s.place t .outside },
      run_single ?_, rfl, rfl, rfl⟩
    simp only [step, hplace]
    rfl
  | cons a todo ih =>
    have hstep : step act s (.act t) = some
        { s with shared := act a s.shared, place := Function.update s.place t (.inside todo) } := by
      simp only [step, hplace]
    obtain ⟨steps, s', hrun, hplaces, hlocked, hasked⟩ := ih (s :=
        { s with shared := act a s.shared, place := Function.update s.place t (.inside todo) })
      (Function.update_self ..)
    refine ⟨.act t :: steps, s', (run_cons ..).mpr ⟨_, hstep, hrun⟩, ?_, hlocked, hasked⟩
    rw [hplaces, Function.update_idem]

/-- Where no thread is inside, those that wait can go in and out one after the other. -/
theorem exists_drain (hfree : s.lock.locked_ = false) (hnone : ∀ t, ¬ (s.place t).Inside)
    {threads : List T} (hothers : ∀ t, t ∉ threads → s.place t = .outside) : ∃ steps s',
    run (step act) s steps = some s' ∧ (∀ t, s'.place t = .outside) ∧ s'.asked = s.asked := by
  induction threads generalizing s with
  | nil => exact ⟨[], s, rfl, fun t => hothers t List.not_mem_nil, rfl⟩
  | cons t threads ih =>
    cases hplace : s.place t with
    | outside =>
      apply ih hfree hnone
      intro u hu
      by_cases hut : u = t
      · rw [hut, hplace]
      · apply hothers
        rw [List.mem_cons, not_or]
        exact ⟨hut, hu⟩
    | inside todo => exact absurd ⟨todo, hplace⟩ (hnone t)
    | spinning todo =>
      have htest : step act s (.test t) = some ({ s with lock := ⟨true⟩ }.enter t todo) := by
        simp only [step, hplace, test_and_set, hfree]
        rfl
      obtain ⟨steps, s1, hleave, hplaces, hfree1, hasked⟩ :=
        exists_leave act (s := { s with lock := ⟨true⟩ }.enter t todo) (Function.update_self ..)
      have hplaces1 : s1.place = Function.update s.place t .outside :=
        hplaces.trans (Function.update_idem ..)
      obtain ⟨rest, s2, hrest, houtside, hasked1⟩ := ih (s := s1) hfree1
        (by
          intro u
          rw [hplaces1]
          by_cases hu : u = t
          · subst hu
            rw [Function.update_self]
            rintro ⟨_, heq⟩
            cases heq
          · rw [Function.update_of_ne hu]
            exact hnone u)
        (by
          intro u hu
          rw [hplaces1]
          by_cases hut : u = t
          · subst hut
            rw [Function.update_self]
          · rw [Function.update_of_ne hut]
            apply hothers
            rw [List.mem_cons, not_or]
            exact ⟨hut, hu⟩)
      exact ⟨.test t :: (steps ++ rest), s2,
        (run_cons ..).mpr ⟨_, htest, run_append hleave hrest⟩, houtside, hasked1.trans hasked⟩

theorem Good.run {steps : List (Step T A)} (h : Good act init s)
    (hrun : run (step act) s steps = some s') : Good act init s' :=
  invariant_of_run (fun _ _ _ hgood hstep => hgood.does (does_of_step hstep)) h hrun

theorem place_of_run {steps : List (Step T A)} (hrun : run (step act) s steps = some s')
    (ht : t ∉ steps.map Step.thread) : s'.place t = s.place t := by
  induction steps generalizing s with
  | nil =>
    cases hrun
    rfl
  | cons c steps ih =>
    rw [List.map_cons, List.mem_cons, not_or] at ht
    obtain ⟨s1, hstep, hrest⟩ := (run_cons ..).mp hrun
    rw [ih hrest ht.2, (does_of_step hstep).place_eq ht.1]

theorem Good.unique (h : Good act init s) (ht : (s.place t).Inside) (hu : (s.place u).Inside) :
    t = u := by
  obtain ⟨owner, hguards, -⟩ := h.guards
  exact hguards.unique ht hu

theorem Good.locked_iff (h : Good act init s) :
    s.lock.locked_ = true ↔ ∃ t, (s.place t).Inside := by
  obtain ⟨owner, hguards, hlocked⟩ := h.guards
  rw [hlocked, Option.isSome_iff_exists]
  exact exists_congr fun t => (hguards t).symm

/-- `TryLock` takes the lock exactly when no thread is inside. -/
theorem Good.tryLock (h : Good act init s) (hplace : s.place t = .outside) (todo : List A) :
    ∃ s', step act s (.TryLock t todo) = some s' ∧
      ((s'.place t).Inside ↔ ∀ u, ¬ (s.place u).Inside) := by
  have hiff := h.locked_iff
  cases hlocked : s.lock.locked_ with
  | false =>
    refine ⟨({ s with lock := ⟨true⟩ }.ask t todo).enter t todo, ?_, ?_⟩
    · simp [step, hplace, SpinLock.TryLock, test_and_set, hlocked]
    apply iff_of_true
    · exact ⟨todo, Function.update_self ..⟩
    · rw [hlocked] at hiff
      intro u hu
      cases hiff.mpr ⟨u, hu⟩
  | true =>
    refine ⟨{ s with lock := ⟨true⟩ }, ?_, ?_⟩
    · simp [step, hplace, SpinLock.TryLock, test_and_set, hlocked]
    apply iff_of_false
    · change ¬ (s.place t).Inside
      rw [hplace]
      rintro ⟨_, heq⟩
      cases heq
    · intro hnone
      obtain ⟨u, hu⟩ := hiff.mp hlocked
      exact hnone u hu

/-- From where they are, the threads can all finish what they have begun or wait for. -/
theorem Good.exists_end (h : Good act init s) {threads : List T}
    (hothers : ∀ t, t ∉ threads → s.place t = .outside) : ∃ steps s',
    Transition.run (step act) s steps = some s' ∧ (∀ t, s'.place t = .outside) ∧
      s'.asked = s.asked := by
  cases hlocked : s.lock.locked_ with
  | false =>
    apply exists_drain hlocked _ hothers
    intro t ht
    rw [h.locked_iff.mpr ⟨t, ht⟩] at hlocked
    cases hlocked
  | true =>
    obtain ⟨t, todo, hplace⟩ := h.locked_iff.mp hlocked
    obtain ⟨steps, s1, hrun, hplaces, hfree, hasked⟩ := exists_leave act hplace
    have hgood := h.run hrun
    have hnone : ∀ u, ¬ (s1.place u).Inside := by
      intro u hu
      rw [hgood.locked_iff.mpr ⟨u, hu⟩] at hfree
      cases hfree
    have hothers1 : ∀ u, u ∉ threads → s1.place u = .outside := by
      intro u hu
      rw [hplaces]
      by_cases hut : u = t
      · subst hut
        rw [Function.update_self]
      · rw [Function.update_of_ne hut]
        exact hothers u hu
    obtain ⟨rest, s2, hrest, houtside, hasked1⟩ := exists_drain hfree hnone hothers1
    exact ⟨steps ++ rest, s2, run_append hrun hrest, houtside, hasked1.trans hasked⟩

/-- Sections under the lock are serial, however the threads' steps are mixed: no two threads are
inside, `TryLock` fails only for a lock that is taken, what is shared is what the sections make of
it one after the other, each that `Lock` was called for is performed once and in the order of its
thread, and the threads are never stuck. -/
theorem sections_are_serial {steps : List (Step T A)}
    (hrun : run (step act) (start init) steps = some s) :
    (∀ t u, (s.place t).Inside → (s.place u).Inside → t = u) ∧
    (s.lock.locked_ = true ↔ ∃ t, (s.place t).Inside) ∧
    (∀ t todo, s.place t = .inside todo → AtWork act init s.entered t todo s.shared) ∧
    ((∀ t, ¬ (s.place t).Inside) → s.shared = performAll act s.entered init) ∧
    (∀ t, s.asked t = sectionsOf t s.entered ++ (s.place t).waiting) ∧
    (∀ t todo, s.place t = .outside → ∃ s', step act s (.TryLock t todo) = some s' ∧
      ((s'.place t).Inside ↔ ∀ u, ¬ (s.place u).Inside)) ∧
    ∃ more s', run (step act) s more = some s' ∧ (∀ t, s'.place t = .outside) ∧
      (∀ t, sectionsOf t s'.entered = s.asked t) ∧
      s'.shared = performAll act s'.entered init := by
  have hgood := (Good.start act init).run hrun
  refine ⟨fun t u => hgood.unique, hgood.locked_iff, hgood.work, ?_, hgood.asked,
    fun t todo hplace => hgood.tryLock hplace todo, ?_⟩
  · intro hnone
    apply hgood.free
    rw [← Bool.not_eq_true, hgood.locked_iff]
    rintro ⟨t, ht⟩
    exact hnone t ht
  · have hothers : ∀ t, t ∉ steps.map Step.thread → s.place t = .outside :=
      fun t ht => place_of_run hrun ht
    obtain ⟨more, s', hmore, houtside, hasked⟩ := hgood.exists_end hothers
    have hgood' := hgood.run hmore
    refine ⟨more, s', hmore, houtside, ?_, ?_⟩
    · intro t
      have hsections := hgood'.asked t
      rw [houtside, hasked] at hsections
      exact (hsections.trans (List.append_nil _)).symm
    · apply hgood'.free
      rw [← Bool.not_eq_true, hgood'.locked_iff]
      rintro ⟨t, todo, ht⟩
      rw [houtside] at ht
      cases ht

/-- A counter, and what was read of it. -/
inductive Access
  | read
  | writeNext

def access : Access → Nat × Nat → Nat × Nat
  | .read, (counter, _) => (counter, counter)
  | .writeNext, (_, value) => (value + 1, value)

/-- Thread 1 waits while thread 0 counts, and does not lose its count. -/
def twoCounts : List (Step Nat Access) :=
  [.Lock 0 [.read, .writeNext], .Lock 1 [.read, .writeNext], .test 0, .act 0, .test 1,
    .TryLock 2 [], .act 0, .Unlock 0, .test 1, .act 1, .act 1, .Unlock 1]

theorem both_are_counted : ∃ s : System Nat Access (Nat × Nat),
    run (step access) (start (0, 0)) twoCounts = some s ∧ s.shared = (2, 1) ∧
    s.shared = performAll access s.entered (0, 0) ∧
    ∀ t, s.asked t = sectionsOf t s.entered ++ (s.place t).waiting := by
  have hrun : ∃ s : System Nat Access (Nat × Nat),
      run (step access) (start (0, 0)) twoCounts = some s ∧
        s.shared = (2, 1) ∧ s.lock.locked_ = false := exists_of_any (by decide +kernel)
  obtain ⟨s, hrun, hshared, hfree⟩ := hrun
  obtain ⟨-, hlocked, -, hserial, hasked, -⟩ := sections_are_serial hrun
  refine ⟨s, hrun, hshared, hserial ?_, hasked⟩
  intro t ht
  rw [hlocked.mpr ⟨t, ht⟩] at hfree
  cases hfree

end System

end SpinLock

end sci.bridges
