-- Statistics of lists of numbers: the mean lies between the bounds of the numbers, the sum of the
-- squared distances is zero for equal numbers only, and a sorted list has its order statistics at
-- their indices.
import Mathlib

namespace Statistics

/-! ## Means -/

section Means

variable {K : Type*} [Field K] [LinearOrder K] [IsStrictOrderedRing K] {xs : List K} {a : K}

theorem le_mean (hne : xs ≠ []) (h : ∀ x ∈ xs, a ≤ x) : a ≤ xs.sum / xs.length := by
  have hpos : (0 : K) < xs.length := Nat.cast_pos.mpr (List.length_pos_iff.mpr hne)
  rw [le_div_iff₀ hpos, mul_comm, ← nsmul_eq_mul]
  exact List.card_nsmul_le_sum xs a h

theorem mean_le (hne : xs ≠ []) (h : ∀ x ∈ xs, x ≤ a) : xs.sum / xs.length ≤ a := by
  have hpos : (0 : K) < xs.length := Nat.cast_pos.mpr (List.length_pos_iff.mpr hne)
  rw [div_le_iff₀ hpos, mul_comm, ← nsmul_eq_mul]
  exact List.sum_le_card_nsmul xs a h

/-- The sum of the squared distances of the numbers from `a`. -/
def squares (a : K) (xs : List K) : K := (xs.map fun x => (x - a) * (x - a)).sum

theorem squares_nonneg (a : K) (xs : List K) : 0 ≤ squares a xs := by
  apply List.sum_nonneg
  intro y hy
  obtain ⟨x, -, rfl⟩ := List.mem_map.mp hy
  exact mul_self_nonneg (x - a)

theorem squares_eq_zero_iff : squares a xs = 0 ↔ ∀ x ∈ xs, x = a := by
  induction xs with
  | nil => simp [squares]
  | cons x xs ih =>
    have hcons : squares a (x :: xs) = (x - a) * (x - a) + squares a xs := List.sum_cons
    rw [hcons, add_eq_zero_iff_of_nonneg (mul_self_nonneg _) (squares_nonneg a xs), ih,
      mul_self_eq_zero, sub_eq_zero, List.forall_mem_cons]

end Means

/-! ## Order statistics -/

section Order

variable {α : Type*} [LinearOrder α] {l xs : List α} {i : Nat}

/-- No more than `i` numbers of a sorted list are below the one at `i`. -/
theorem countP_lt_le (hl : l.Pairwise (· ≤ ·)) (hi : i < l.length) :
    l.countP (· < l[i]) ≤ i := by
  have hdrop : (l.drop i).countP (· < l[i]) = 0 := by
    rw [List.countP_eq_zero]
    intro x hx
    rw [decide_eq_true_eq, not_lt]
    obtain ⟨j, hj, rfl⟩ := List.getElem_of_mem hx
    rw [List.getElem_drop]
    exact hl.rel_get_of_le (a := ⟨i, hi⟩) (Nat.le_add_right i j)
  calc l.countP (· < l[i]) = (l.take i).countP (· < l[i]) + (l.drop i).countP (· < l[i]) := by
        rw [← List.countP_append, List.take_append_drop]
    _ = (l.take i).countP (· < l[i]) := by rw [hdrop, Nat.add_zero]
    _ ≤ (l.take i).length := List.countP_le_length
    _ ≤ i := List.length_take_le i l

/-- More than `i` numbers of a sorted list are at most the one at `i`. -/
theorem lt_countP_le (hl : l.Pairwise (· ≤ ·)) (hi : i < l.length) :
    i < l.countP (· ≤ l[i]) := by
  have htake : (l.take (i + 1)).countP (· ≤ l[i]) = (l.take (i + 1)).length := by
    rw [List.countP_eq_length]
    intro x hx
    rw [decide_eq_true_eq]
    obtain ⟨j, hj, rfl⟩ := List.getElem_of_mem hx
    rw [List.getElem_take]
    rw [List.length_take] at hj
    exact hl.rel_get_of_le (b := ⟨i, hi⟩) (by simp; omega)
  have hlength : (l.take (i + 1)).length = i + 1 := List.length_take_of_le hi
  have hle := (List.take_sublist (i + 1) l).countP_le (p := (· ≤ l[i]))
  rw [htake, hlength] at hle
  exact hle

/-- The numbers in increasing order. -/
def sorted (xs : List α) : List α := xs.insertionSort (· ≤ ·)

theorem sorted_perm (xs : List α) : (sorted xs).Perm xs :=
  List.perm_insertionSort (· ≤ ·) xs

theorem pairwise_sorted (xs : List α) : (sorted xs).Pairwise (· ≤ ·) :=
  List.pairwise_insertionSort (· ≤ ·) xs

theorem length_sorted (xs : List α) : (sorted xs).length = xs.length := (sorted_perm xs).length_eq

theorem sorted_congr {ys : List α} (h : xs.Perm ys) : sorted xs = sorted ys := by
  have hperm : (sorted xs).Perm (sorted ys) :=
    (sorted_perm xs).trans (h.trans (sorted_perm ys).symm)
  exact hperm.eq_of_pairwise (fun _ _ _ _ => le_antisymm) (pairwise_sorted xs) (pairwise_sorted ys)

theorem sorted_getElem_rank (hi : i < (sorted xs).length) :
    xs.countP (· < (sorted xs)[i]) ≤ i ∧ i < xs.countP (· ≤ (sorted xs)[i]) := by
  rw [← (sorted_perm xs).countP_eq, ← (sorted_perm xs).countP_eq]
  exact ⟨countP_lt_le (pairwise_sorted xs) hi, lt_countP_le (pairwise_sorted xs) hi⟩

end Order

end Statistics
