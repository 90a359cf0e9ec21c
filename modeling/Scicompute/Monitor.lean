-- Monitors: a mutex, given by its owner, and the condition variables that threads
-- wait on while they do not own it. `inside` says which places of the code are in a
-- section of the mutex, and `asleep` is the place of a thread that waits.
import Mathlib

namespace Monitor

/-! ## The mutex -/

section
variable {T : Type*} {inside inside' : T → Prop} {owner : Option T}

/-- The owner is in a section of the mutex, and no other thread is. -/
def Guards (inside : T → Prop) (owner : Option T) : Prop := ∀ t, inside t ↔ owner = some t

theorem Guards.unique (h : Guards inside owner) {t u : T} (ht : inside t) (hu : inside u) :
    t = u := by
  have h1 := (h t).mp ht
  rw [(h u).mp hu] at h1
  exact (Option.some.inj h1).symm

/-- A thread takes the free mutex. -/
theorem Guards.enter (h : Guards inside none) {t : T} (ht : inside' t)
    (hother : ∀ u, u ≠ t → (inside' u ↔ inside u)) : Guards inside' (some t) := by
  intro u
  by_cases hu : u = t
  · subst hu
    simp [ht]
  · rw [hother u hu, h u]
    simp [Ne.symm hu]

/-- The owner gives the mutex up. -/
theorem Guards.leave (h : Guards inside owner) {t : T} (ht : inside t) (hout : ¬ inside' t)
    (hother : ∀ u, u ≠ t → (inside' u ↔ inside u)) : Guards inside' none := by
  intro u
  by_cases hu : u = t
  · subst hu
    simp [hout]
  · rw [hother u hu]
    constructor
    · intro hin
      exact absurd (h.unique hin ht) hu
    · intro hn
      cases hn

/-- No thread enters or leaves. -/
theorem Guards.stay (h : Guards inside owner) (hsame : ∀ t, inside' t ↔ inside t) :
    Guards inside' owner := fun t => (hsame t).trans (h t)

/-- The owner before and after a step of the thread `t`, which was in a section of the mutex
or not, `i`, and is in one afterwards or not, `i'`. -/
inductive Passes (t : T) (i i' : Bool) : Option T → Option T → Prop
  | enter (hi : i = false) (hi' : i' = true) : Passes t i i' none (some t)
  | leave {owner : Option T} (hi : i = true) (hi' : i' = false) : Passes t i i' owner none
  | stay {owner : Option T} (hi : i' = i) : Passes t i i' owner owner

theorem Passes.of_free {t : T} {i i' : Bool} (hfree : owner = none) (hi : i = false)
    (hi' : i' = true) : Passes t i i' owner (some t) := hfree ▸ .enter hi hi'

theorem Guards.passes {owner' : Option T} {t : T} {i i' : Bool} (h : Guards inside owner)
    (hp : Passes t i i' owner owner') (hi : inside t ↔ i = true) (hi' : inside' t ↔ i' = true)
    (hother : ∀ u, u ≠ t → (inside' u ↔ inside u)) : Guards inside' owner' := by
  cases hp with
  | enter _ hin => exact h.enter (hi'.mpr hin) hother
  | leave hin hout => exact h.leave (hi.mpr hin) (by rw [hi', hout]; simp) hother
  | stay hsame =>
    apply h.stay
    intro u
    by_cases hu : u = t
    · rw [hu, hi, hi', hsame]
    · exact hother u hu

end

/-! ## Condition variables -/

section
variable {T P : Type*} [DecidableEq P]

/-- `notify_all`: the threads that are asleep wake up. -/
def wakeAll (asleep awake : P) (pc : T → P) : T → P := fun t =>
  if pc t = asleep then awake else pc t

theorem wakeAll_of_ne {asleep awake : P} {pc : T → P} {t : T} (h : pc t ≠ asleep) :
    wakeAll asleep awake pc t = pc t := if_neg h

/-- What does not tell the two ends of the wake-up apart is as it was. -/
theorem wakeAll_congr {β : Type*} {asleep awake : P} (f : P → β) (h : f asleep = f awake)
    (pc : T → P) (t : T) : f (wakeAll asleep awake pc t) = f (pc t) := by
  unfold wakeAll
  split_ifs with ht
  · rw [ht, h]
  · rfl

theorem wakeAll_ne {asleep awake : P} (hne : awake ≠ asleep) (pc : T → P) (t : T) :
    wakeAll asleep awake pc t ≠ asleep := by
  unfold wakeAll
  split_ifs with h
  · exact hne
  · exact h

/-- A place that is neither end of the wake-up is where it was. -/
theorem wakeAll_eq_iff {asleep awake p : P} (h1 : p ≠ asleep) (h2 : p ≠ awake) {pc : T → P}
    {t : T} : wakeAll asleep awake pc t = p ↔ pc t = p := by
  unfold wakeAll
  split_ifs with h
  · rw [h]
    exact ⟨fun he => absurd he.symm h2, fun he => absurd he.symm h1⟩
  · exact Iff.rfl

end

/-! ## Counts of threads -/

/-- Of the threads below `n`, one more or one less has the property `b`. -/
theorem card_filter_update {P : Type} (b : P → Bool) (f : Nat → P) (p : P) {w n : Nat}
    (hw : w < n) :
    ((Finset.range n).filter (fun v => b (Function.update f w p v) = true)).card + (b (f w)).toNat =
      ((Finset.range n).filter (fun v => b (f v) = true)).card + (b p).toNat := by
  have hmem : w ∈ Finset.range n := Finset.mem_range.mpr hw
  have hrest : ∑ v ∈ (Finset.range n).erase w,
      (if b (Function.update f w p v) = true then 1 else 0) =
      ∑ v ∈ (Finset.range n).erase w, (if b (f v) = true then 1 else 0) := by
    apply Finset.sum_congr rfl
    intro v hv
    rw [Function.update_of_ne (Finset.ne_of_mem_erase hv)]
  rw [Finset.card_filter, Finset.card_filter, ← Finset.add_sum_erase _ _ hmem,
    ← Finset.add_sum_erase _ (fun v => if b (f v) = true then 1 else 0) hmem, hrest,
    Function.update_self]
  cases b p <;> cases b (f w) <;> simp <;> omega

end Monitor
