-- Threads that rely on supplies. At some places of its code a thread needs a supply that is not used
-- up, while other threads take from it. A step of one thread keeps every thread supplied when it
-- leaves the others what they rely on.
import Mathlib

namespace Supply

variable {T P I : Type*} {valid : P → Prop} {relies : I → P → Bool} {pc pc' : T → P}
  {full full' : I → Prop} {t : T}

/-- Every thread is at a valid place, and what it relies on is not used up. -/
structure Supplied (valid : P → Prop) (relies : I → P → Bool) (pc : T → P) (full : I → Prop) :
    Prop where
  valid : ∀ t, valid (pc t)
  stock : ∀ i t, relies i (pc t) = true → full i

/-- What a step of the thread `t` leaves behind. -/
structure Leaves (valid : P → Prop) (relies : I → P → Bool) (pc pc' : T → P) (full full' : I → Prop)
    (t : T) : Prop where
  valid : valid (pc' t)
  stock : ∀ i, relies i (pc' t) = true → full' i
  others : ∀ i, full i → full' i ∨ ∀ u, u ≠ t → relies i (pc u) = false

theorem Supplied.leaves (h : Supplied valid relies pc full) (hother : ∀ u, u ≠ t → pc' u = pc u)
    (hleaves : Leaves valid relies pc pc' full full' t) : Supplied valid relies pc' full' := by
  constructor
  · intro u
    by_cases hu : u = t
    · rw [hu]
      exact hleaves.valid
    · rw [hother u hu]
      exact h.valid u
  · intro i u hrelies
    by_cases hu : u = t
    · rw [hu] at hrelies
      exact hleaves.stock i hrelies
    · rw [hother u hu] at hrelies
      rcases hleaves.others i (h.stock i u hrelies) with hfull | hnone
      · exact hfull
      · rw [hnone u hu] at hrelies
        cases hrelies

/-- The step uses nothing up, and its thread relies on nothing afterwards. -/
theorem Leaves.of_full (hfull : ∀ i, full i → full' i) (hvalid : valid (pc' t))
    (hnot : ∀ i, relies i (pc' t) = false) : Leaves valid relies pc pc' full full' t := by
  refine ⟨hvalid, ?_, fun i h => Or.inl (hfull i h)⟩
  intro i hrelies
  rw [hnot] at hrelies
  cases hrelies

/-- The thread stays where it is and nothing is used up. -/
theorem Supplied.unchanged (h : Supplied valid relies pc full) (hpc : pc' t = pc t)
    (hfull : ∀ i, full i → full' i) : Leaves valid relies pc pc' full full' t := by
  refine ⟨hpc ▸ h.valid t, ?_, fun i h => Or.inl (hfull i h)⟩
  intro i hrelies
  rw [hpc] at hrelies
  exact hfull i (h.stock i t hrelies)

end Supply
