-- The `int` indices of the loops over rows and columns (src/math/softmax.cpp, 70-170, and
-- normalization.cpp, 70-130): when no row, column or index overflows, and each element is visited
-- once. Dimensions are numbers of 64 bits.
import Scicompute.NormalizedShapes

open Word

namespace sci.int64.math

/-- The rows of `softmax` and `log_softmax`: the offset of a row is an `int`, and the kernel goes
through `cols` elements behind it, which it counts with a `size_t`. -/
def softmax_indices (rows cols : Int) : Option (List Int) :=
  forRows rows (fun r l => (mul32? r cols).map fun off =>
    l ++ (List.range (toSize cols)).map fun (i : Nat) => off + (i : Int)) []

/-- The numbers of rows and columns are exact, no index overflows, and each of the elements is
visited once. -/
def Exact (rows cols : Option Int) (indices : Int → Int → Option (List Int)) (r c : Nat) : Prop :=
  rows = some (r : Int) ∧ cols = some (c : Int) ∧
    ∃ l, indices r c = some l ∧ l.Perm ((List.range (r * c)).map Nat.cast)

variable {rows cols d r c : Nat} {t : Tensor} {ds : List Nat}

theorem narrow_eq_iff : narrow d = d ↔ d < 2 ^ 31 := by
  constructor
  · intro h
    have hlt := (narrow_range (d : Int)).2
    rw [h] at hlt
    exact_mod_cast hlt
  · intro h
    exact narrow_of_range (by omega) (by omega)

/-- One row after the other. -/
theorem softmax_indices_eq (h : (rows - 1) * cols < 2 ^ 31) (hcols : cols < 2 ^ 31) :
    softmax_indices rows cols = some ((List.range (rows * cols)).map Nat.cast) := by
  have hsize : toSize (cols : Int) = cols := toSize_of_lt (by unfold wordSize; omega)
  unfold softmax_indices
  rw [hsize]
  induction rows with
  | zero => simp [forRows]
  | succ rows ih =>
    rw [Nat.add_sub_cancel] at h
    have hbefore : (rows - 1) * cols < 2 ^ 31 :=
      (Nat.mul_le_mul_right cols (Nat.sub_le rows 1)).trans_lt h
    rw [forRows_succ, ih hbefore, Option.bind_some, mul32?_natCast, if_pos h, Option.map_some,
      Nat.succ_mul, List.range_add, List.map_append, List.map_map]
    refine congrArg (fun l => some (_ ++ l)) (List.map_congr_left fun i _ => ?_)
    simp

/-- The offset of the last row is the largest. -/
theorem softmax_indices_isSome (hrows : 0 < rows) (h : (softmax_indices rows cols).isSome) :
    (rows - 1) * cols < 2 ^ 31 := by
  unfold softmax_indices at h
  rw [isSome_forRows_iff (P := fun r => r * cols < 2 ^ 31)] at h
  · exact h (rows - 1) (by omega)
  · intro r l
    rw [Option.isSome_map, mul32?_natCast]
    split_ifs with hlt
    · exact iff_of_true rfl hlt
    · exact iff_of_false (by simp) hlt

theorem exact_softmax_iff (hr : 0 < r) :
    Exact (some (narrow r)) (some (narrow c)) softmax_indices r c ↔
      r < 2 ^ 31 ∧ c < 2 ^ 31 ∧ (r - 1) * c < 2 ^ 31 := by
  unfold Exact
  rw [Option.some_inj, Option.some_inj, narrow_eq_iff, narrow_eq_iff]
  refine and_congr_right fun _ => and_congr_right fun hc => ?_
  constructor
  · rintro ⟨l, hl, -⟩
    exact softmax_indices_isSome hr (Option.isSome_of_eq_some hl)
  · intro hlt
    exact ⟨_, softmax_indices_eq hlt hc, List.Perm.refl _⟩

theorem exact_visited_iff (hr : 0 < r) (hc : 0 < c) :
    Exact (some (narrow r)) (some (narrow c)) visited r c ↔
      r < 2 ^ 31 ∧ c < 2 ^ 31 ∧ r * c ≤ 2 ^ 31 := by
  unfold Exact
  rw [Option.some_inj, Option.some_inj, narrow_eq_iff, narrow_eq_iff]
  refine and_congr_right fun _ => and_congr_right fun _ => ?_
  constructor
  · rintro ⟨l, hl, -⟩
    exact (visited_isSome_iff hr hc).mp (Option.isSome_of_eq_some hl)
  · intro hle
    exact ⟨_, visited_eq hle, List.Perm.refl _⟩

/-- The loops of `softmax` and `log_softmax`, of `hardmax`, and of the two normalizations are exact
exactly for these sizes. -/
theorem loops_are_exact_iff (h : t.shape_.Fits ds) :
    (∀ d0 d1, ds = [d0, d1] →
      (Exact ((t.shape_.dims_.get 0).map narrow) ((t.shape_.dims_.get 1).map narrow)
        softmax_indices d0 d1 ↔ d0 < 2 ^ 31 ∧ d1 < 2 ^ 31 ∧ (d0 - 1) * d1 < 2 ^ 31) ∧
      (Exact ((t.shape_.dims_.get 0).map narrow) ((t.shape_.dims_.get 1).map narrow)
        visited d0 d1 ↔ d0 < 2 ^ 31 ∧ d1 < 2 ^ 31 ∧ d0 * d1 ≤ 2 ^ 31)) ∧
    (Exact (leading_rows t) (last_dim t) visited ds.dropLast.prod (ds.getLastD 0) ↔
      ds.dropLast.prod < 2 ^ 31 ∧ ds.getLastD 0 < 2 ^ 31 ∧ ds.prod ≤ 2 ^ 31) := by
  refine ⟨?_, ?_⟩
  · rintro d0 d1 rfl
    have hget0 : t.shape_.dims_.get 0 = some (d0 : Int) := h.get (i := 0) (by simp)
    have hget1 : t.shape_.dims_.get 1 = some (d1 : Int) := h.get (i := 1) (by simp)
    rw [hget0, hget1, Option.map_some, Option.map_some]
    exact ⟨exact_softmax_iff (h.pos d0 (by simp)),
      exact_visited_iff (h.pos d0 (by simp)) (h.pos d1 (by simp))⟩
  · obtain ⟨pre, last, rfl⟩ := (List.eq_nil_or_concat ds).resolve_left h.ne_nil
    have hrows : 0 < pre.prod := List.prod_pos fun d hd => h.pos d (by simp [hd])
    have hcols : 0 < last := h.pos last (by simp)
    rw [leading_rows_eq h.holds, last_dim_eq h.holds h.ne_nil]
    simpa using exact_visited_iff hrows hcols

/-- Two rows of three numbers. -/
theorem loops_of_a_grid_are_exact : Exact (leading_rows floatGrid) (last_dim floatGrid) visited 2 3 :=
  (loops_are_exact_iff fits_floatGrid).2.mpr (by decide)

/-- A shape of two dimensions of 65536. -/
def large_shape : TensorShape := ⟨fun _ => 65536, 2⟩

theorem fits_large_shape : large_shape.Fits [65536, 65536] := by
  refine ⟨by decide, by decide, by decide, by decide⟩

/-- The first index of row 32768 is 2^31. -/
theorem indices_of_a_large_matrix_overflow :
    ¬ ∀ (t : Tensor) (d0 d1 : Nat), IsFloats t (d0 * d1) → t.shape_.Fits [d0, d1] →
      Exact ((t.shape_.dims_.get 0).map narrow) ((t.shape_.dims_.get 1).map narrow)
        softmax_indices d0 d1 := by
  intro h
  have hfloats : IsFloats ⟨large_shape, .kFloat32, .kContiguous, .kCPU, some 100, 2 ^ 34⟩
      (65536 * 65536) := ⟨rfl, by decide, by decide, fun _ => Option.some_ne_none 100⟩
  have hexact := h _ 65536 65536 hfloats fits_large_shape
  have hlt := ((exact_softmax_iff (r := 65536) (c := 65536) (by decide)).mp hexact).2.2
  revert hlt
  decide

end sci.int64.math
