-- `math::hardmax` (src/math/softmax.cpp, 142-170) on numbers in a linear order: for tensors of
-- rank 2 and their last axis, each row gets a 1 at the first place of its maximum. For other
-- ranks and other axes the output stays as it was cleared.
import Scicompute.FloatArrays

open Word
open BlockMemory (Apart)

namespace sci.int64.math

variable {K : Type*} [LinearOrder K] [Zero K] [One K]

/-- The loop body for the row `r`. -/
def hardmax_row (in_data out_data : Floats) (cols : Int) (r : Nat) (m : Nat → K) :
    Option (Nat → K) :=
  (mul32? r cols).bind fun off =>
  (in_data.read m off).bind fun max_val =>
  (forCols r cols 1
    (fun c i (s : K × Nat) => (in_data.read m i).map fun v => if s.1 < v then (v, c) else s)
    (max_val, 0)).bind fun s =>
  (index r cols s.2).bind fun i => out_data.write m i 1

/-- `got` is the place of the memory that the CPU device gets for the output. -/
def hardmax (m : Nat → K) (got : Nat) (a : Tensor) (axis : Int) :
    Option (Except String (Tensor × (Nat → K))) :=
  (Tensor.make a.shape_ .kFloat32 a.device_ (some got)).bind fun out =>
  -- the memory is cleared by the allocation, and by `fill_zero`
  let m := out.floats.allocated (out.floats.allocated m)
  if axis = -1 ∨ axis = a.shape_.ndims_ - 1 then
    if a.shape_.ndims_ = 2 then
      (a.shape_.dims_.get 0).bind fun d0 => (a.shape_.dims_.get 1).bind fun d1 =>
      (forRows (narrow d0) (hardmax_row a.floats out.floats (narrow d1)) m).map fun m =>
        .ok (out, m)
    else some (.ok (out, m))
  else some (.ok (out, m))

/-! ## The first maximum -/

/-- `k` is the first of `n` places at which `v` has its maximum. -/
structure FirstMax (v : Nat → K) (n k : Nat) : Prop where
  lt : k < n
  le : ∀ j < n, v j ≤ v k
  first : ∀ j < k, v j < v k

omit [Zero K] [One K] in
theorem FirstMax.unique {v : Nat → K} {n k k' : Nat} (h : FirstMax v n k)
    (h' : FirstMax v n k') : k = k' := by
  rcases Nat.lt_trichotomy k k' with hlt | heq | hlt
  · exact absurd (h'.first k hlt) (h.le k' h'.lt).not_gt
  · exact heq
  · exact absurd (h.first k' hlt) (h'.le k h.lt).not_gt

omit [Zero K] [One K] in
/-- The first maximum of more places, where it is among fewer. -/
theorem FirstMax.of_le {v : Nat → K} {n n' k : Nat} (h : FirstMax v n' k) (hk : k < n)
    (hn : n ≤ n') : FirstMax v n k :=
  ⟨hk, fun j hj => h.le j (by omega), h.first⟩

omit [Zero K] [One K] in
/-- The loop over the other columns. -/
theorem exists_firstMax (v : Nat → K) {n : Nat} (hn : 0 < n) :
    ∃ k, FirstMax v n k ∧ (List.range' 1 (n - 1)).foldl
      (fun (s : K × Nat) c => if s.1 < v c then (v c, c) else s) (v 0, 0) = (v k, k) := by
  induction n, hn using Nat.le_induction with
  | base =>
    refine ⟨0, ⟨Nat.one_pos, fun j hj => ?_, fun j hj => absurd hj (by omega)⟩, rfl⟩
    obtain rfl : j = 0 := by omega
    exact le_rfl
  | succ n hn ih =>
    obtain ⟨k, hmax, hloop⟩ := ih
    have hrange : List.range' 1 (n + 1 - 1) = List.range' 1 (n - 1) ++ [n] := by
      obtain ⟨n, rfl⟩ := Nat.exists_eq_add_of_le' hn
      rw [Nat.add_sub_cancel, Nat.add_sub_cancel, List.range'_1_concat, Nat.add_comm]
    rw [hrange, List.foldl_concat, hloop]
    dsimp only
    split_ifs with hlt
    · refine ⟨n, ⟨by omega, fun j hj => ?_, fun j hj => ?_⟩, rfl⟩
      · by_cases hlast : j = n
        · rw [hlast]
        · exact (hmax.le j (by omega)).trans hlt.le
      · exact (hmax.le j hj).trans_lt hlt
    · refine ⟨k, ⟨by have := hmax.lt; omega, fun j hj => ?_, hmax.first⟩, rfl⟩
      by_cases hlast : j = n
      · rw [hlast]
        exact not_lt.mp hlt
      · exact hmax.le j (by omega)

/-! ## One-hot rows -/

/-- The rows of the last axis of the input, at `data`, have a 1 at their first maximum in the
output, and zeros elsewhere. -/
def OneHotRows (m : Nat → K) (data : Nat) (out : Floats) (m' : Nat → K) (rows cols : Nat) : Prop :=
  ∀ r < rows, ∃ k, FirstMax (fun j => m (data + (r * cols + j))) cols k ∧
    ∀ j < cols, out.read m' ((r * cols + j : Nat) : Int) = some (if j = k then 1 else 0)

/-- The result is an error, or a tensor of the same shape with one-hot rows. -/
def IsHardmax (m : Nat → K) (a : Tensor) (ds : List Nat)
    (r : Option (Except String (Tensor × (Nat → K)))) : Prop :=
  (∃ e, r = some (.error e)) ∨ ∃ out m' data, r = some (.ok (out, m')) ∧ out.shape_ = a.shape_ ∧
    a.data = some data ∧
    OneHotRows m data out.floats m' ds.dropLast.prod (ds.getLastD 0)

/-- The numbers of rows and columns, and their product, are `int`s; or there is one row, whose
first maximum is among the columns that are left when their number is cast to `int`. -/
def HardmaxFits (m : Nat → K) (a : Tensor) (d0 d1 : Nat) : Prop :=
  (d0 < 2 ^ 31 ∧ d1 < 2 ^ 31 ∧ d0 * d1 ≤ 2 ^ 31) ∨
    d0 = 1 ∧ d1 * 4 < wordSize ∧ ∃ data k, a.data = some data ∧
      FirstMax (fun j => m (data + j)) d1 k ∧ k < max 1 (narrow d1).toNat

variable {m m' : Nat → K} {x y : Floats} {data got r n d0 d1 : Nat} {cols : Int} {a : Tensor}
  {ds : List Nat} {axis : Int}

/-! ## One row -/

omit [Zero K] in
/-- A row of `n` columns that are in the buffers; a row of no columns is taken for one of one. -/
theorem exists_hardmax_row (cols : Int) (hx : x.data = some data) (hy : y.data = some got)
    (hn : n = max 1 cols.toNat) (hstart : (r : Int) * cols = ((r * n : Nat) : Int))
    (hlt : r * n + n ≤ 2 ^ 31) (hxsize : r * n + n ≤ x.size) (hysize : r * n + n ≤ y.size) :
    ∃ k, FirstMax (fun j => m (data + (r * n + j))) n k ∧
      hardmax_row x y cols r m = some (Function.update m (got + (r * n + k)) 1) := by
  obtain ⟨k, hmax, hloop⟩ := exists_firstMax (fun j => m (data + (r * n + j))) (n := n) (by omega)
  refine ⟨k, hmax, ?_⟩
  have hk := hmax.lt
  have hmul : mul32? r cols = some ((r * n : Nat) : Int) := by
    rw [mul32?_eq_some, hstart]
    omega
  have hindex : ∀ c < n, index r cols c = some ((r * n + c : Nat) : Int) := by
    intro c hc
    unfold index
    rw [hmul, Option.bind_some, add32?_eq_some]
    push_cast
    omega
  have hcols : forCols r cols 1
      (fun c i (s : K × Nat) => (x.read m i).map fun v => if s.1 < v then (v, c) else s)
      (m (data + (r * n + 0)), 0) = some (m (data + (r * n + k)), k) := by
    unfold forCols
    rw [show cols.toNat - 1 = n - 1 by omega, ← hloop]
    apply CheckedLoop.foldlM_eq_some
    intro s c hc
    have := List.mem_range'_1.mp hc
    rw [hindex c (by omega), Option.bind_some]
    dsimp only
    rw [Floats.read_eq hx m (by omega), Option.map_some]
  rw [Nat.add_zero] at hcols
  unfold hardmax_row
  rw [hmul, Option.bind_some, Floats.read_eq hx m (by omega), Option.bind_some, hcols,
    Option.bind_some, hindex k hk, Option.bind_some, Floats.write_eq hy m (by omega)]

omit [Zero K] in
/-- A row writes one number, and its indices do not overflow. -/
theorem of_hardmax_row (h : hardmax_row x y cols r m = some m') :
    (∃ i k : Nat, (i : Int) = r * cols + k ∧ k < max 1 cols.toNat ∧ ∃ got, y.data = some got ∧
      m' = Function.update m (got + i) 1) ∧
    ((r : Int) * cols < 2 ^ 31 ∧ ∀ c : Nat, 1 ≤ c → (c : Int) < cols → r * cols + c < 2 ^ 31) := by
  unfold hardmax_row at h
  obtain ⟨off, hoff, h⟩ := Option.bind_eq_some_iff.mp h
  obtain ⟨max_val, -, h⟩ := Option.bind_eq_some_iff.mp h
  obtain ⟨s, hs, h⟩ := Option.bind_eq_some_iff.mp h
  obtain ⟨i, hi, h⟩ := Option.bind_eq_some_iff.mp h
  obtain ⟨k, rfl, -, got, hgot, rfl⟩ := Floats.write_eq_some h
  have hoff := mul32?_eq_some.mp hoff
  unfold index at hi
  obtain ⟨off', hoff', hadd⟩ := Option.bind_eq_some_iff.mp hi
  have hoff' := mul32?_eq_some.mp hoff'
  have hadd := add32?_eq_some.mp hadd
  refine ⟨⟨k, s.2, by omega, ?_, got, hgot, rfl⟩, by omega, ?_⟩
  · refine forCols_induction (I := fun s : K × Nat => s.2 < max 1 cols.toNat) (by omega) ?_ hs
    intro c hc hlt i s t hI ht
    obtain ⟨v, -, rfl⟩ := Option.map_eq_some_iff.mp ht
    split_ifs
    · dsimp only
      omega
    · exact hI
  · intro c hc hlt
    obtain ⟨n, rfl⟩ := Int.eq_ofNat_of_zero_le (by omega : 0 ≤ cols)
    have hall := (isSome_forCols_iff (P := fun _ i => x.Has i)
      (fun c i s => by rw [Option.isSome_map, Floats.read_isSome_iff]) (max_val, 0)).mp
      (Option.isSome_of_eq_some hs) c hc (by exact_mod_cast hlt)
    have hcast : (r : Int) * (n : Int) + c = ((r * n + c : Nat) : Int) := by push_cast; rfl
    have := hall.1
    omega

/-! ## All rows -/

omit [LinearOrder K] [One K] in
/-- The memory in which the loop begins. -/
theorem cleared_of_apart (m : Nat → K) (hapart : ∀ q ∈ y.data, Apart data n q y.size) {j : Nat}
    (hj : j < n) : y.allocated (y.allocated m) (data + j) = m (data + j) := by
  rw [Floats.allocated_of_apart _ hapart hj, Floats.allocated_of_apart _ hapart hj]

/-- The rows that are done are one-hot, the others are still zeros, and the input is as it was. -/
structure HardmaxDone (m : Nat → K) (data got rows cols r : Nat) (m' : Nat → K) : Prop where
  input : ∀ i < rows * cols, m' (data + i) = m (data + i)
  done : ∀ q < r, ∃ k, FirstMax (fun j => m (data + (q * cols + j))) cols k ∧
    ∀ j < cols, m' (got + (q * cols + j)) = if j = k then 1 else 0
  rest : ∀ i < rows * cols, r * cols ≤ i → m' (got + i) = 0

/-- A round makes the next row. -/
theorem HardmaxDone.step {rows cols : Nat} {k : Nat} (h : HardmaxDone m data got rows cols r m')
    (hr : r < rows) (hapart : Apart data (rows * cols) got (rows * cols))
    (hk : FirstMax (fun j => m' (data + (r * cols + j))) cols k) :
    HardmaxDone m data got rows cols (r + 1) (Function.update m' (got + (r * cols + k)) 1) := by
  have hrow := RowMajor.row_end_le cols hr
  have hlt := hk.lt
  have hsame : ∀ j < cols, m' (data + (r * cols + j)) = m (data + (r * cols + j)) :=
    fun j hj => h.input _ (by omega)
  unfold Apart at hapart
  constructor
  · intro i hi
    rw [Function.update_of_ne (by omega)]
    exact h.input i hi
  · intro q hq
    by_cases hlast : q = r
    · subst hlast
      refine ⟨k, ⟨hlt, fun j hj => ?_, fun j hj => ?_⟩, fun j hj => ?_⟩
      · have hle := hk.le j hj
        rwa [hsame j hj, hsame k hlt] at hle
      · have hle := hk.first j hj
        rwa [hsame j (by omega), hsame k hlt] at hle
      · split_ifs with hj'
        · rw [hj', Function.update_self]
        · rw [Function.update_of_ne (by omega)]
          exact h.rest _ (by omega) (by omega)
    · obtain ⟨k', hk', hdone⟩ := h.done q (by omega)
      have hbefore := RowMajor.row_end_le cols (show q < r by omega)
      refine ⟨k', hk', fun j hj => ?_⟩
      rw [Function.update_of_ne (by omega)]
      exact hdone j hj
  · intro i hi hri
    rw [Nat.succ_mul] at hri
    rw [Function.update_of_ne (by omega)]
    exact h.rest i hi (by omega)

/-- The loop makes all rows, where the numbers of rows and columns and the buffers fit. -/
theorem exists_hardmax_rows (rows cols : Nat) (hx : x.data = some data) (hy : y.data = some got)
    (hcols : 0 < cols) (hlt : rows * cols ≤ 2 ^ 31) (hxsize : rows * cols ≤ x.size)
    (hysize : rows * cols ≤ y.size) (hapart : Apart data (rows * cols) got (rows * cols))
    (h0 : HardmaxDone m data got rows cols 0 m') :
    ∃ m'', forRows rows (hardmax_row x y cols) m' = some m'' ∧
      HardmaxDone m data got rows cols rows m'' := by
  apply exists_forRows h0
  intro r hr m' hm'
  have hrow := RowMajor.row_end_le cols hr
  obtain ⟨k, hk, heq⟩ := exists_hardmax_row (m := m') (r := r) (n := cols) cols hx hy
    (by omega) (by push_cast; rfl) (by omega) (by omega) (by omega)
  exact ⟨_, heq, hm'.step hr hapart hk⟩

/-! ## The function -/

omit [LinearOrder K] [One K] in
/-- What the loop does not write is 0, where the buffer has it. -/
theorem read_cleared (y : Floats) (m : Nat → K) (k : Nat) {v : K}
    (h : y.read (y.allocated (y.allocated m)) k = some v) : v = 0 := by
  have hhas := (Floats.read_isSome_iff y _ _).mp (Option.isSome_of_eq_some h)
  obtain ⟨got, hgot⟩ := Option.isSome_iff_exists.mp hhas.1
  have hk := hhas.2.2
  rw [Floats.read_eq hgot _ (by omega), Floats.allocated_eq_zero _ hgot (by omega)] at h
  exact (Option.some.inj h).symm

/-- The last row has a 1 only if the loop writes to it. -/
theorem exists_written [NeZero (1 : K)] {rows : Int} {c : Nat}
    (hm' : forRows rows (hardmax_row x y cols) (y.allocated (y.allocated m)) = some m')
    (hone : y.read m' c = some 1) :
    ∃ q k : Nat, (q : Int) < rows ∧ (c : Int) = q * cols + k ∧ k < max 1 cols.toNat := by
  by_contra hnone
  push Not at hnone
  have hzero : y.read m' c = y.read (y.allocated (y.allocated m)) c := by
    refine forRows_induction
      (I := fun _ m' => y.read m' c = y.read (y.allocated (y.allocated m)) c) rfl ?_ hm'
    intro q hq m1 m2 hI hrow
    obtain ⟨⟨i, k, hi, hk, got, hgot, rfl⟩, -⟩ := of_hardmax_row hrow
    rw [← hI]
    have hne : c ≠ i := by
      rintro rfl
      have := hnone q k hq hi
      omega
    unfold Floats.read
    rw [hgot, Option.bind_some, Option.bind_some, Int.toNat_natCast,
      Function.update_of_ne (by omega)]
  rw [hzero] at hone
  exact one_ne_zero (read_cleared y m c hone)

/-- When the loop over `rows` and `cols` numbers writes to the last row of a matrix of `d0` and `d1`,
the matrix has only one row, or no number was lost in the casts. -/
theorem sizes_of_written {rows cols : Int} {q j k : Nat} (h0 : 0 < d0) (hrows : rows ≤ d0)
    (hcols : cols = d1 ∨ cols + 2 ^ 32 ≤ d1) (hint : cols < 2 ^ 31) (hq : (q : Int) < rows)
    (hk : k < max 1 cols.toNat) (h1 : 0 < d1)
    (h : (((d0 - 1) * d1 + j : Nat) : Int) = q * cols + k) :
    d0 = 1 ∨ rows = d0 ∧ cols = d1 := by
  by_cases hone : d0 = 1
  · exact Or.inl hone
  obtain ⟨e, he⟩ := Nat.exists_eq_add_of_le (show 2 ≤ d0 by omega)
  have hstart : (((d0 - 1) * d1 : Nat) : Int) = e * d1 + d1 := by
    rw [he, show 2 + e - 1 = e + 1 by omega]
    push_cast
    ring
  rw [Nat.cast_add, hstart] at h
  have hed : (0 : Int) ≤ e * d1 := mul_nonneg (Int.natCast_nonneg _) (Int.natCast_nonneg _)
  have hpos : 0 < cols := by
    by_contra hneg
    have : (q : Int) * cols ≤ 0 := mul_nonpos_of_nonneg_of_nonpos (by omega) (by omega)
    omega
  have hqle : (q : Int) * cols ≤ (e + 1) * cols := mul_le_mul_of_nonneg_right (by omega) hpos.le
  have hsplit : ((e : Int) + 1) * cols = e * cols + cols := by ring
  have hele : (e : Int) * cols ≤ e * d1 := mul_le_mul_of_nonneg_left (by omega) (by omega)
  refine Or.inr ⟨?_, ?_⟩
  · by_contra hne
    have hqe : (q : Int) * cols ≤ e * cols := mul_le_mul_of_nonneg_right (by omega) hpos.le
    omega
  · rcases hcols with heq | hlost
    · exact heq
    · omega

omit [Zero K] in
/-- No index of the last row overflows. -/
theorem size_le_of_hardmax (h0 : 0 < d0) (h1 : 0 < d1)
    (hm' : forRows d0 (hardmax_row x y d1) m = some m') : d0 * d1 ≤ 2 ^ 31 := by
  have hall := forRows_induction (I := fun r (_ : Nat → K) => ∀ q : Nat, q < r →
    (q : Int) * d1 < 2 ^ 31 ∧ ∀ c : Nat, 1 ≤ c → (c : Int) < d1 → (q : Int) * d1 + c < 2 ^ 31)
    (fun q hq => absurd hq (Nat.not_lt_zero q)) (fun r _ m1 m2 hI hrow q hq => by
      by_cases hqr : q = r
      · rw [hqr]
        exact (of_hardmax_row hrow).2
      · exact hI q (by omega)) hm'
  rw [Int.toNat_natCast] at hall
  obtain ⟨hfirst, hrest⟩ := hall (d0 - 1) (by omega)
  have hcast : ((d0 - 1 : Nat) : Int) * d1 = (((d0 - 1) * d1 : Nat) : Int) := by push_cast; rfl
  have hlast : (d0 - 1) * d1 + d1 = d0 * d1 := by
    rw [← Nat.succ_mul, Nat.succ_eq_add_one, Nat.sub_add_cancel h0]
  rw [hcast] at hfirst hrest
  by_cases hsingle : d1 = 1
  · omega
  · have := hrest (d1 - 1) (by omega) (by omega)
    omega

omit [Zero K] in
/-- One row, of which only the first columns are looked at. -/
theorem exists_hardmax_one_row {k : Nat} (hx : x.data = some data) (hy : y.data = some got)
    (h1 : 0 < d1) (hxsize : d1 ≤ x.size) (hysize : d1 ≤ y.size)
    (hk : FirstMax (fun j => m (data + j)) d1 k) (hklt : k < max 1 (narrow d1).toNat) :
    forRows (narrow ((1 : Nat) : Int)) (hardmax_row x y (narrow d1)) m =
      some (Function.update m (got + k) 1) := by
  have hle := narrow_le (Int.natCast_nonneg d1)
  have hlt := (narrow_range (d1 : Int)).2
  have hone : narrow ((1 : Nat) : Int) = ((0 + 1 : Nat) : Int) := by decide
  rw [hone, forRows_succ, forRows_of_nonpos (by decide), Option.bind_some]
  generalize narrow d1 = cols at hklt hle hlt ⊢
  obtain ⟨k', hk', hrow⟩ := exists_hardmax_row (m := m) (x := x) (y := y) (r := 0) cols
    hx hy rfl (by simp) (by omega) (by omega) (by omega)
  simp only [Nat.zero_mul, Nat.zero_add] at hk' hrow
  have hkk : k' = k := hk'.unique (hk.of_le hklt (by omega))
  rw [hkk] at hrow
  exact hrow

/-- The output for rank 2 and the last axis is one-hot exactly when the sizes fit. -/
theorem rank_two_is_one_hot_iff [NeZero (1 : K)] (h0 : 0 < d0) (h1 : 0 < d1)
    (ha : IsFloats a (d0 * d1)) (hx : a.data = some data) (hysize : y.size = a.floats.size)
    (hydata : y.size ≠ 0 → y.data = some got)
    (hapart : Apart data a.floats.size got a.floats.size) :
    (∃ m', forRows (narrow d0) (hardmax_row a.floats y (narrow d1))
      (y.allocated (y.allocated m)) = some m' ∧ OneHotRows m data y m' d0 d1) ↔
      HardmaxFits m a d0 d1 := by
  have hpos : 0 < d0 * d1 := Nat.mul_pos h0 h1
  have hlast : (d0 - 1) * d1 + d1 = d0 * d1 := by
    rw [← Nat.succ_mul, Nat.succ_eq_add_one, Nat.sub_add_cancel h0]
  constructor
  · rintro ⟨m', hm', hrows⟩
    obtain ⟨k, hk, hread⟩ := hrows (d0 - 1) (by omega)
    have hklt := hk.lt
    -- the last element is in the buffer, and so are all of them
    have hsize : a.floats.size = d0 * d1 := by
      have hhas := (Floats.read_isSome_iff y m' _).mp
        (Option.isSome_of_eq_some (hread (d1 - 1) (by omega)))
      have := hhas.2.2
      have := ha.size_le
      omega
    have hone := hread k hklt
    rw [if_pos rfl] at hone
    obtain ⟨q, j, hq, hindex, hj⟩ := exists_written hm' hone
    have hword := ha.size_eq_iff.mp hsize
    rcases sizes_of_written h0 (narrow_le (Int.natCast_nonneg d0))
      (narrow_eq_or_le (Int.natCast_nonneg d1)) (narrow_range _).2 hq hj h1 hindex with
      rfl | ⟨hn0, hn1⟩
    · have hq0 : q = 0 := by
        have hcast : narrow ((1 : Nat) : Int) = 1 := by decide
        rw [hcast] at hq
        omega
      have hkj : k = j := by
        rw [hq0, Nat.sub_self, Nat.zero_mul, Nat.zero_add, Nat.cast_zero, zero_mul, zero_add]
          at hindex
        exact_mod_cast hindex
      rw [Nat.one_mul] at hword
      exact Or.inr ⟨rfl, hword, data, k, hx, by simpa using hk, hkj ▸ hj⟩
    · have hr0 := (narrow_range (d0 : Int)).2
      have hr1 := (narrow_range (d1 : Int)).2
      rw [hn0] at hr0 hm'
      rw [hn1] at hr1 hm'
      exact Or.inl ⟨by exact_mod_cast hr0, by exact_mod_cast hr1, size_le_of_hardmax h0 h1 hm'⟩
  · intro hfit
    have hsize : a.floats.size = d0 * d1 := by
      rw [ha.size_eq_iff]
      rcases hfit with ⟨-, -, hle⟩ | ⟨rfl, hlt, -⟩
      · unfold wordSize
        omega
      · rwa [Nat.one_mul]
    have hy : y.data = some got := hydata (by omega)
    rw [hsize] at hysize hapart
    have hydata' : ∀ q ∈ y.data, Apart data (d0 * d1) q y.size := by
      rintro q hq
      rw [hy, Option.mem_some_iff] at hq
      subst hq
      rwa [hysize]
    have hinput : ∀ i < d0 * d1, y.allocated (y.allocated m) (data + i) = m (data + i) :=
      fun i hi => cleared_of_apart m hydata' hi
    have hzero : ∀ i < d0 * d1, y.allocated (y.allocated m) (got + i) = 0 :=
      fun i hi => Floats.allocated_eq_zero _ hy (by omega)
    rcases hfit with ⟨hlt0, hlt1, hle⟩ | ⟨rfl, -, data', k, hdata', hk, hklt⟩
    · obtain ⟨m', hm', hdone⟩ := exists_hardmax_rows (m := m) (x := a.floats) d0 d1
        hx hy h1 hle hsize.ge hysize.ge hapart
        ⟨hinput, fun q hq => absurd hq (Nat.not_lt_zero q), fun i hi _ => hzero i hi⟩
      rw [narrow_of_range (by omega) (by omega), narrow_of_range (by omega) (by omega)]
      refine ⟨m', hm', fun r hr => ?_⟩
      obtain ⟨k, hk, hrow⟩ := hdone.done r hr
      have hend := RowMajor.row_end_le d1 hr
      refine ⟨k, hk, fun j hj => ?_⟩
      rw [Floats.read_eq hy m' (by omega), hrow j hj]
    · obtain rfl : data' = data := Option.some.inj (hdata'.symm.trans hx)
      rw [Nat.one_mul] at hsize hysize hinput hzero
      have hstart : FirstMax (fun j => y.allocated (y.allocated m) (data' + j)) d1 k := by
        refine ⟨hk.lt, fun j hj => ?_, fun j hj => ?_⟩
        · rw [hinput j hj, hinput k hk.lt]
          exact hk.le j hj
        · rw [hinput j (hj.trans hk.lt), hinput k hk.lt]
          exact hk.first j hj
      refine ⟨_, exists_hardmax_one_row hx hy h1 hsize.ge hysize.ge hstart hklt, ?_⟩
      intro r hr
      obtain rfl : r = 0 := by omega
      refine ⟨k, by simpa using hk, fun j hj => ?_⟩
      rw [Nat.zero_mul, Nat.zero_add, Floats.read_eq hy _ (by omega)]
      split_ifs with hj'
      · rw [hj', Function.update_self]
      · rw [Function.update_of_ne (by omega), hzero j hj]

/-- Only zeros are not one-hot. -/
theorem not_one_hot_of_cleared [NeZero (1 : K)] {rows cols : Nat} (hrows : 0 < rows) :
    ¬ OneHotRows m data y (y.allocated (y.allocated m')) rows cols := by
  intro h
  obtain ⟨k, hk, hrow⟩ := h 0 hrows
  have hone := hrow k hk.lt
  rw [if_pos rfl] at hone
  exact one_ne_zero (read_cleared y m' _ hone)

theorem hardmax_rank_two [NeZero (1 : K)] (ha : IsFloats a (d0 * d1))
    (hshape : a.shape_.Fits [d0, d1])
    (hapart : ∀ data ∈ a.data, Apart data a.floats.size got a.floats.size)
    (haxis : axis = -1 ∨ axis = 1) :
    IsHardmax m a [d0, d1] (hardmax m got a axis) ↔ HardmaxFits m a d0 d1 := by
  have h0 : 0 < d0 := hshape.pos d0 (by simp)
  have h1 : 0 < d1 := hshape.pos d1 (by simp)
  have hget0 : a.shape_.dims_.get 0 = some (d0 : Int) := hshape.get (i := 0) (by simp)
  have hget1 : a.shape_.dims_.get 1 = some (d1 : Int) := hshape.get (i := 1) (by simp)
  have hndims : a.shape_.ndims_ = 2 := hshape.ndims_
  obtain ⟨out, hmake, hsame, -, hsize, -, hdata⟩ := ha.exists_make got
  have hresult : hardmax m got a axis = (forRows (narrow d0)
      (hardmax_row a.floats out.floats (narrow d1))
      (out.floats.allocated (out.floats.allocated m))).map fun m => .ok (out, m) := by
    unfold hardmax
    dsimp only
    rw [hmake, Option.bind_some, hndims, if_pos (by omega), if_pos rfl, hget0, hget1, Option.bind_some,
      Option.bind_some]
  unfold IsHardmax
  rw [hresult]
  constructor
  · rintro (⟨e, he⟩ | ⟨out', m', data, hr, -, hx, hrows⟩)
    · obtain ⟨_, _, he⟩ := Option.map_eq_some_iff.mp he
      cases he
    · obtain ⟨m'', hm'', heq⟩ := Option.map_eq_some_iff.mp hr
      cases heq
      exact (rank_two_is_one_hot_iff h0 h1 ha hx hsize hdata (hapart data hx)).mp
        ⟨m', hm'', by simpa using hrows⟩
  · intro hfit
    have hpos : 0 < d0 * d1 := Nat.mul_pos h0 h1
    have hword : d0 * d1 * 4 < wordSize := by
      rcases hfit with ⟨-, -, hle⟩ | ⟨rfl, hlt, -⟩
      · unfold wordSize
        omega
      · rwa [Nat.one_mul]
    have hfull := ha.size_eq_iff.mpr hword
    obtain ⟨data, hx⟩ := ha.exists_data (by omega)
    obtain ⟨m', hm', hrows⟩ :=
      (rank_two_is_one_hot_iff (m := m) h0 h1 ha hx hsize hdata (hapart data hx)).mpr hfit
    exact Or.inr ⟨out, m', data, by rw [hm', Option.map_some], hsame, hx, by simpa using hrows⟩

/-- For other ranks and other axes no row is written. -/
theorem not_hardmax_elsewhere [NeZero (1 : K)] (m : Nat → K) (got : Nat) (axis : Int)
    (ha : IsFloats a ds.prod) (hshape : a.shape_.Fits ds)
    (helse : ¬ (ds.length = 2 ∧ (axis = -1 ∨ axis = 1))) :
    ¬ IsHardmax m a ds (hardmax m got a axis) := by
  obtain ⟨out, hmake, -⟩ := ha.exists_make got
  have hresult : hardmax m got a axis =
      some (.ok (out, out.floats.allocated (out.floats.allocated m))) := by
    unfold hardmax
    rw [hmake, Option.bind_some, hshape.ndims_]
    dsimp only
    split_ifs with haxis htwo
    · exact absurd ⟨by exact_mod_cast htwo, by omega⟩ helse
    · rfl
    · rfl
  have hrows : 0 < ds.dropLast.prod :=
    List.prod_pos fun d hd => hshape.pos d (List.dropLast_subset ds hd)
  rw [hresult]
  rintro (⟨e, he⟩ | ⟨out', m', data, hr, -, -, hone⟩)
  · cases he
  · cases hr
    exact not_one_hot_of_cleared hrows hone

/-- The result is one-hot exactly for tensors of rank 2, their last axis, and sizes that fit. -/
theorem hardmax_is_one_hot_iff [NeZero (1 : K)] (m : Nat → K) (got : Nat) (axis : Int)
    (ha : IsFloats a ds.prod) (hshape : a.shape_.Fits ds)
    (hapart : ∀ data ∈ a.data, Apart data a.floats.size got a.floats.size) :
    IsHardmax m a ds (hardmax m got a axis) ↔
      ∃ d0 d1, ds = [d0, d1] ∧ (axis = -1 ∨ axis = 1) ∧ HardmaxFits m a d0 d1 := by
  by_cases hbranch : ds.length = 2 ∧ (axis = -1 ∨ axis = 1)
  · obtain ⟨hlen, haxis⟩ := hbranch
    obtain ⟨d0, d1, rfl⟩ := List.length_eq_two.mp hlen
    rw [List.prod_cons, List.prod_singleton] at ha
    rw [hardmax_rank_two ha hshape hapart haxis]
    constructor
    · intro hfit
      exact ⟨d0, d1, rfl, haxis, hfit⟩
    · rintro ⟨_, _, heq, -, hfit⟩
      cases heq
      exact hfit
  · refine iff_of_false (not_hardmax_elsewhere m got axis ha hshape hbranch) ?_
    rintro ⟨d0, d1, rfl, haxis, -⟩
    exact hbranch ⟨rfl, haxis⟩

theorem apart_floatGrid :
    ∀ data ∈ floatGrid.data, Apart data floatGrid.floats.size 200 floatGrid.floats.size := by
  rintro _ ⟨⟩
  unfold Apart
  decide

/-- The two rows 1, 1, 1. -/
theorem ties_go_to_the_first_column :
    IsHardmax (fun _ => (1 : Int)) floatGrid [2, 3] (hardmax (fun _ => 1) 200 floatGrid (-1)) :=
  (hardmax_is_one_hot_iff _ 200 (-1) isFloats_floatGrid fits_floatGrid apart_floatGrid).mpr
    ⟨2, 3, rfl, Or.inl rfl, Or.inl (by decide)⟩

/-- The first axis: the answer is a tensor of zeros. -/
theorem other_axes_are_answered_with_zeros :
    ¬ ∀ (m : Nat → Int) (got : Nat) (axis : Int) (a : Tensor) (ds : List Nat),
      IsFloats a ds.prod → a.shape_.Fits ds →
      (∀ data ∈ a.data, Apart data a.floats.size got a.floats.size) →
      IsHardmax m a ds (hardmax m got a axis) := fun h =>
  not_hardmax_elsewhere (fun _ => 1) 200 0 isFloats_floatGrid fits_floatGrid (by simp)
    (h _ 200 0 _ _ isFloats_floatGrid fits_floatGrid apart_floatGrid)

end sci.int64.math
