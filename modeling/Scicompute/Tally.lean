-- The total weight of threads of which all but finitely many have none. A step of one thread changes
-- the total by the difference of the weights of the places where this thread stands.
import Mathlib

namespace Tally

variable {ι P : Type*} {w : P → Nat} {pc : ι → P} {n : Nat}

/-- The weights of the places where the threads stand add up to `n`. -/
def AddUp (w : P → Nat) (pc : ι → P) (n : Nat) : Prop :=
  ∃ T : Finset ι, (∀ t ∉ T, w (pc t) = 0) ∧ ∑ t ∈ T, w (pc t) = n

theorem addUp_zero (h : ∀ t, w (pc t) = 0) : AddUp w pc 0 :=
  ⟨∅, fun t _ => h t, Finset.sum_empty⟩

theorem AddUp.eq_zero (h : AddUp w pc n) (hzero : ∀ t, w (pc t) = 0) : n = 0 := by
  obtain ⟨T, -, rfl⟩ := h
  exact Finset.sum_eq_zero fun t _ => hzero t

/-- One thread goes to another place. -/
theorem AddUp.update [DecidableEq ι] (h : AddUp w pc n) (t : ι) (x : P) :
    ∃ k, n = k + w (pc t) ∧ AddUp w (Function.update pc t x) (k + w x) := by
  obtain ⟨T, hrest, rfl⟩ := h
  refine ⟨∑ u ∈ T.erase t, w (pc u), ?_, insert t (T.erase t), fun u hu => ?_, ?_⟩
  · by_cases ht : t ∈ T
    · exact (Finset.sum_erase_add T _ ht).symm
    · rw [Finset.erase_eq_of_notMem ht, hrest t ht, add_zero]
  · rw [Finset.mem_insert, Finset.mem_erase, not_or, not_and] at hu
    rw [Function.update_of_ne hu.1]
    exact hrest u (hu.2 hu.1)
  · rw [Finset.sum_insert (Finset.notMem_erase t T), Function.update_self, add_comm]
    congr 1
    refine Finset.sum_congr rfl fun u hu => ?_
    rw [Function.update_of_ne (Finset.ne_of_mem_erase hu)]

end Tally
