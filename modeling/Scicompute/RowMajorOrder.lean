-- The lexicographic order of the indices of an array: row-major places grow with it, and
-- the indices in this order lie at the places 0, 1, 2 and so on.
import Scicompute.RowMajor

namespace RowMajor

/-- The indices of an array, in lexicographic order. -/
def indices : List Nat → List (List Nat)
  | [] => [[]]
  | d :: dims => (List.range d).flatMap fun i => (indices dims).map (i :: ·)

theorem mem_indices {index dims : List Nat} : index ∈ indices dims ↔ Within index dims := by
  induction dims generalizing index with
  | nil => simp [indices, Within]
  | cons d dims ih =>
    simp only [indices, List.mem_flatMap, List.mem_range, List.mem_map, ih]
    constructor
    · rintro ⟨i, hi, rest, hrest, rfl⟩
      exact .cons hi hrest
    · rintro (_ | ⟨hi, hrest⟩)
      exact ⟨_, hi, _, hrest, rfl⟩

theorem pairwise_indices (dims : List Nat) :
    (indices dims).Pairwise (List.Lex (· < ·)) := by
  induction dims with
  | nil => simp [indices]
  | cons d dims ih =>
    rw [indices, List.pairwise_flatMap]
    constructor
    · intro i _
      rw [List.pairwise_map]
      exact ih.imp fun h => .cons h
    · refine List.pairwise_lt_range.imp ?_
      intro i j hij index hindex index' hindex'
      obtain ⟨rest, -, rfl⟩ := List.mem_map.mp hindex
      obtain ⟨rest', -, rfl⟩ := List.mem_map.mp hindex'
      exact .rel hij

/-- Rows of `n` places, one after the other. -/
theorem flatMap_range_rows (d n : Nat) :
    ((List.range d).flatMap fun i => (List.range n).map (i * n + ·)) = List.range (d * n) := by
  induction d with
  | zero => simp
  | succ d ih =>
    rw [List.range_succ, List.flatMap_append, ih, Nat.succ_mul, List.range_add]
    simp

/-- In lexicographic order the indices lie at the places 0, 1, 2 and so on. -/
theorem map_offset_indices (dims : List Nat) :
    (indices dims).map (offset · (strides dims)) = List.range dims.prod := by
  induction dims with
  | nil => rfl
  | cons d dims ih =>
    have hrow : ∀ i, ((indices dims).map (i :: ·)).map (offset · (strides (d :: dims))) =
        (List.range dims.prod).map (i * dims.prod + ·) := by
      intro i
      rw [← ih, List.map_map, List.map_map]
      rfl
    rw [indices, List.map_flatMap, List.prod_cons, ← flatMap_range_rows]
    simp only [hrow]

theorem length_indices (dims : List Nat) : (indices dims).length = dims.prod := by
  simpa using congrArg List.length (map_offset_indices dims)

/-- The index of a place is the one that stands there in lexicographic order. -/
theorem offset_getElem_indices {dims : List Nat} {k : Nat} (hk : k < (indices dims).length) :
    offset (indices dims)[k] (strides dims) = k := by
  have hget := List.getElem_map (f := (offset · (strides dims))) (l := indices dims) (i := k)
    (h := by simpa using hk)
  rw [← hget]
  simp [map_offset_indices]

/-- A later index lies at a later place. -/
theorem offset_lt_of_lex {dims index index' : List Nat} (h : Within index dims)
    (h' : Within index' dims) (hlex : List.Lex (· < ·) index index') :
    offset index (strides dims) < offset index' (strides dims) := by
  induction hlex generalizing dims with
  | nil =>
    cases h
    cases h'
  | cons _ ih =>
    obtain _ | ⟨-, hrest⟩ := h
    obtain _ | ⟨-, hrest'⟩ := h'
    exact Nat.add_lt_add_left (ih hrest hrest') _
  | @rel i index j index' hij =>
    obtain _ | @⟨_, d, _, dims, hi, hrest⟩ := h
    obtain _ | ⟨-, hrest'⟩ := h'
    rw [strides, offset_cons, offset_cons]
    calc i * dims.prod + offset index (strides dims)
        < i * dims.prod + dims.prod := Nat.add_lt_add_left (Within.offset_lt hrest) _
      _ ≤ j * dims.prod := row_end_le _ hij
      _ ≤ j * dims.prod + offset index' (strides dims) := Nat.le_add_right _ _

/-- The indices and the places below their number go together one by one. -/
theorem bijOn_offset (dims : List Nat) :
    Set.BijOn (offset · (strides dims)) {index | Within index dims} (Set.Iio dims.prod) := by
  refine ⟨fun index h => h.offset_lt, ?_, ?_⟩
  · intro index h index' h' he
    rcases trichotomous_of (List.Lex (· < ·)) index index' with hlt | heq | hgt
    · exact absurd he (offset_lt_of_lex h h' hlt).ne
    · exact heq
    · exact absurd he (offset_lt_of_lex h' h hgt).ne'
  · intro k hk
    have hk' : k < (indices dims).length := by rw [length_indices]; exact hk
    exact ⟨(indices dims)[k], mem_indices.mp (List.getElem_mem hk'), offset_getElem_indices hk'⟩

/-! ## Strides that may be others where a dimension is 1 -/

/-- The strides are the row-major ones of all dimensions but those that are 1. There can be more
strides than dimensions. -/
def Packed : List Nat → List Int → Prop
  | [], _ => True
  | _ :: _, [] => False
  | d :: dims, s :: strides => (d ≠ 1 → s = dims.prod) ∧ Packed dims strides

@[simp] theorem packed_nil (strides : List Int) : Packed [] strides := by
  unfold Packed
  trivial

@[simp] theorem packed_cons {d : Nat} {s : Int} {dims : List Nat} {strides : List Int} :
    Packed (d :: dims) (s :: strides) ↔ (d ≠ 1 → s = dims.prod) ∧ Packed dims strides := Iff.rfl

/-- The product of a coordinate and its stride: a dimension that is 1 has the coordinate 0 alone. -/
theorem mul_packed_stride {i d n : Nat} {s : Int} (hi : i < d) (hs : d ≠ 1 → s = n) :
    (i : Int) * s = (i * n : Nat) := by
  by_cases hd : d = 1
  · obtain rfl : i = 0 := by omega
    simp
  · rw [hs hd, Nat.cast_mul]

/-- The place of an index, with signed strides. -/
def signedOffset (index : List Nat) (strides : List Int) : Int :=
  (List.zipWith (fun (i : Nat) (s : Int) => (i : Int) * s) index strides).sum

theorem Packed.signedOffset_eq {dims index : List Nat} {s : List Int} (h : Packed dims s)
    (hi : Within index dims) : signedOffset index s = offset index (strides dims) := by
  unfold signedOffset
  induction hi generalizing s with
  | nil => simp
  | @cons i d index dims hlt _ ih =>
    cases s with
    | nil => exact h.elim
    | cons stride s =>
      rw [packed_cons] at h
      rw [List.zipWith_cons_cons, List.sum_cons, ih h.2, mul_packed_stride hlt h.1, strides,
        offset_cons, Nat.cast_add]

theorem Packed.map_signedOffset {dims : List Nat} {s : List Int} (h : Packed dims s) :
    (indices dims).map (signedOffset · s) = (List.range dims.prod).map Nat.cast := by
  rw [← map_offset_indices, List.map_map]
  exact List.map_congr_left fun index hindex => h.signedOffset_eq (mem_indices.mp hindex)

end RowMajor
