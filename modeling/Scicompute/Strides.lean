-- Loops whose counter has a stride: the numbers that one counter goes through, those of all counters
-- that begin below the stride, and the rounds of the loop.
import Scicompute.SimtRuns

namespace Simt

/-- The numbers below `n` from `first` on, each `step` above the one before. -/
def strided (first step n : Nat) : List Nat :=
  (List.range ((n - first + step - 1) / step)).map fun k => first + k * step

theorem mem_strided {first step n i : Nat} (hstep : 0 < step) :
    i ∈ strided first step n ↔ first ≤ i ∧ i < n ∧ step ∣ i - first := by
  unfold strided
  rw [List.mem_map]
  constructor
  · rintro ⟨k, hk, rfl⟩
    rw [List.mem_range, Nat.lt_div_iff_mul_lt hstep] at hk
    refine ⟨by omega, by omega, ?_⟩
    rw [Nat.add_sub_cancel_left]
    exact Nat.dvd_mul_left step k
  · rintro ⟨hle, hlt, k, hk⟩
    refine ⟨k, ?_, by rw [Nat.mul_comm, ← hk]; omega⟩
    rw [List.mem_range, Nat.lt_div_iff_mul_lt hstep, Nat.mul_comm, ← hk]
    omega

theorem nodup_strided {first step n : Nat} (hstep : 0 < step) : (strided first step n).Nodup := by
  refine List.Nodup.map (fun k k' h => ?_) List.nodup_range
  exact Nat.eq_of_mul_eq_mul_right hstep (Nat.add_left_cancel h)

/-- A counter that begins below its step goes through the numbers with one remainder. -/
theorem mem_strided_of_lt {first step n i : Nat} (hfirst : first < step) :
    i ∈ strided first step n ↔ i < n ∧ i % step = first := by
  rw [mem_strided (Nat.zero_lt_of_lt hfirst)]
  constructor
  · rintro ⟨hle, hlt, k, hk⟩
    obtain rfl : i = first + step * k := by omega
    rw [Nat.add_mul_mod_self_left, Nat.mod_eq_of_lt hfirst]
    exact ⟨hlt, rfl⟩
  · rintro ⟨hlt, rfl⟩
    refine ⟨Nat.mod_le i step, hlt, i / step, ?_⟩
    have := Nat.div_add_mod i step
    omega

/-- The strides of all counters together are all numbers. -/
theorem sum_strided {step : Nat} (hstep : 0 < step) (n : Nat) :
    (∑ t ∈ Finset.range step, (strided t step n : Multiset Nat)) = Multiset.range n := by
  ext i
  rw [Multiset.count_sum']
  have hcount : ∀ t ∈ Finset.range step, (strided t step n : Multiset Nat).count i =
      if i % step = t then (Multiset.range n).count i else 0 := by
    intro t ht
    have hmem := mem_strided_of_lt (n := n) (i := i) (Finset.mem_range.mp ht)
    rw [Multiset.count_eq_of_nodup (Multiset.coe_nodup.mpr (nodup_strided hstep)),
      Multiset.count_eq_of_nodup (Multiset.nodup_range n), ← ite_and]
    refine if_congr ?_ rfl rfl
    rw [Multiset.mem_coe, hmem, Multiset.mem_range, and_comm]
  rw [Finset.sum_congr rfl hcount, Finset.sum_ite_eq, if_pos]
  exact Finset.mem_range.mpr (Nat.mod_lt i hstep)

/-- The counters of blocks of `d` threads. -/
theorem sum_range_blocks {M : Type*} [AddCommMonoid M] (f : Nat → M) (d grid : Nat) :
    ∑ b ∈ Finset.range grid, ∑ u ∈ Finset.range d, f (b * d + u) = ∑ u ∈ Finset.range (d * grid), f u := by
  induction grid with
  | zero => simp
  | succ grid ih => rw [Finset.sum_range_succ, ih, Nat.mul_succ, Finset.sum_range_add, Nat.mul_comm grid]

/-- The rounds of a loop with a stride. `f` is the number as a value of the counter. -/
theorem rounds_strided {C : Type} {test : C → Bool} {next : C → C} {fuel first step n : Nat}
    (f : Nat → C) (hstep : 0 < step) (htest : ∀ i, test (f i) = decide (i < n))
    (hnext : ∀ i < n, next (f i) = f (i + step)) (hfuel : n < fuel) :
    rounds test next fuel (f first) = some ((strided first step n).map f) := by
  have hcount : (n - first + step - 1) / step ≤ n := by
    rw [← Nat.lt_succ_iff, Nat.div_lt_iff_lt_mul hstep, Nat.succ_mul]
    have := Nat.le_mul_of_pos_right n hstep
    omega
  have hin : ∀ j < (n - first + step - 1) / step, first + j * step < n := by
    intro j hj
    rw [Nat.lt_div_iff_mul_lt hstep] at hj
    omega
  have hrounds : rounds test next fuel (f (first + 0 * step)) =
      some ((List.range ((n - first + step - 1) / step)).map fun j => f (first + j * step)) := by
    refine rounds_eq_some (a := fun j => f (first + j * step)) (fun j hj => ?_) (fun j hj => ?_) ?_
      (by omega)
    · rw [htest, decide_eq_true (hin j hj)]
    · rw [hnext _ (hin j hj), Nat.add_assoc, Nat.succ_mul]
    · rw [htest, decide_eq_false_iff_not, Nat.not_lt]
      have hdiv := Nat.lt_div_mul_add (a := n - first + step - 1) hstep
      omega
  rw [Nat.zero_mul, Nat.add_zero] at hrounds
  rw [hrounds, strided, List.map_map]
  rfl

end Simt
