-- The attention of `BM_Attention` (benchmarks/integration/bench_attention.cpp, 15-47) and its
-- reference functions (ref_gemm.hpp): `gemm_qk`, `softmax_rows` and `gemm_nt`, in exact arithmetic.
-- The memory holds one number at each place. The sizes are those of allocated vectors, so that no
-- index leaves `size_t`.
import Scicompute.Gibbs
import Scicompute.RowMajor
import Scicompute.SoftmaxValues

open BlockMemory (Apart)
open sci.math (rowSoftmax)

namespace sci.bench

section
variable {K : Type*} [Field K]

/-- The loops over `j` and `p`, for the row `i`. -/
def gemmRow (b_at : Nat → Nat → Nat) (a c k n i : Nat) (mem : Nat → K) : Nat → K :=
  (List.range n).foldl
    (fun mem j =>
      let acc := (List.range k).foldl
        (fun acc p => acc + mem (a + (i * k + p)) * mem (b_at p j)) 0
      Function.update mem (c + (i * n + j)) acc)
    mem

/-- What `gemm_nt` and `gemm_qk` share. The number in row `p` and column `j` of the second matrix is
at `b_at p j`. -/
def gemm (b_at : Nat → Nat → Nat) (a c m k n : Nat) (mem : Nat → K) : Nat → K :=
  (List.range m).foldl (fun mem i => gemmRow b_at a c k n i mem) mem

def gemm_nt (a b c m k n : Nat) : (Nat → K) → Nat → K :=
  gemm (fun p j => b + (p * n + j)) a c m k n

def gemm_qk (a bt c m k n : Nat) : (Nat → K) → Nat → K :=
  gemm (fun p j => bt + (j * k + p)) a c m k n

/-! ## The product of two matrices -/

variable {b_at : Nat → Nat → Nat} {a b bt c m k n i : Nat} {mem mem' : Nat → K}

/-- The number of the product in row `i` and column `j`. -/
def entry (b_at : Nat → Nat → Nat) (a k : Nat) (mem : Nat → K) (i j : Nat) : K :=
  ∑ p ∈ Finset.range k, mem (a + (i * k + p)) * mem (b_at p j)

theorem foldl_add_range (f : Nat → K) (n : Nat) :
    (List.range n).foldl (fun acc p => acc + f p) 0 = ∑ p ∈ Finset.range n, f p := by
  induction n with
  | zero => rfl
  | succ n ih => rw [List.range_succ, List.foldl_concat, ih, Finset.sum_range_succ]

/-- The matrices are not where the product is written. -/
structure Readable (b_at : Nat → Nat → Nat) (a c m k n : Nat) : Prop where
  first : Apart a (m * k) c (m * n)
  second : ∀ p < k, ∀ j < n, b_at p j < c ∨ c + m * n ≤ b_at p j

/-- A memory that differs at the product only holds the same matrices. -/
theorem entry_congr (h : Readable b_at a c m k n) (hi : i < m) {j : Nat} (hj : j < n)
    (hmem : ∀ x, x < c ∨ c + m * n ≤ x → mem' x = mem x) :
    entry b_at a k mem' i j = entry b_at a k mem i j := by
  apply Finset.sum_congr rfl
  intro p hp
  have hlt := Finset.mem_range.mp hp
  have hrow := RowMajor.row_end_le k hi
  have hfirst := h.first
  unfold Apart at hfirst
  rw [hmem _ (h.second p hlt j hj), hmem _ (by omega)]

theorem gemmRow_spec (h : Readable b_at a c m k n) (hi : i < m)
    (hmem : ∀ x, x < c ∨ c + m * n ≤ x → mem' x = mem x) :
    (∀ j < n, gemmRow b_at a c k n i mem' (c + (i * n + j)) = entry b_at a k mem i j) ∧
    ∀ x, (∀ j < n, x ≠ c + (i * n + j)) → gemmRow b_at a c k n i mem' x = mem' x := by
  have hrow := RowMajor.row_end_le n hi
  unfold gemmRow
  simp only [foldl_add_range]
  apply BlockMemory.foldl_range_update
  · intro j _ j' hj'
    omega
  · intro j hj mem'' hmem''
    apply entry_congr h hi hj
    intro x hx
    rw [hmem'' x (fun j' hj' => by omega)]
    exact hmem x hx

theorem gemm_spec (mem : Nat → K) (h : Readable b_at a c m k n) :
    (∀ i < m, ∀ j < n, gemm b_at a c m k n mem (c + (i * n + j)) = entry b_at a k mem i j) ∧
    ∀ x, x < c ∨ c + m * n ≤ x → gemm b_at a c m k n mem x = mem x := by
  have hloop : (∀ i < m, ∀ x, (∃ j < n, x = c + (i * n + j)) →
        gemm b_at a c m k n mem x = entry b_at a k mem i (x - (c + i * n))) ∧
      ∀ x, (∀ i < m, ¬ ∃ j < n, x = c + (i * n + j)) → gemm b_at a c m k n mem x = mem x := by
    unfold gemm
    apply BlockMemory.foldl_range_blocks
    · rintro i _ i' hi' x ⟨j, hj, rfl⟩ ⟨j', hj', heq⟩
      have hrow := RowMajor.row_end_le n hi'
      omega
    · intro mem' i hi x hx
      apply (gemmRow_spec h hi fun x _ => Eq.refl (mem' x)).2
      intro j hj heq
      exact hx ⟨j, hj, heq⟩
    · rintro i hi mem' hmem' x ⟨j, hj, rfl⟩
      have hout : ∀ x, x < c ∨ c + m * n ≤ x → mem' x = mem x := by
        intro x hx
        apply hmem'
        rintro i' hi' ⟨j', hj', rfl⟩
        have hrow := RowMajor.row_end_le n (hi'.trans hi)
        omega
      rw [(gemmRow_spec h hi hout).1 j hj]
      congr 1
      omega
  constructor
  · intro i hi j hj
    rw [hloop.1 i hi _ ⟨j, hj, rfl⟩]
    congr 1
    omega
  · intro x hx
    apply hloop.2
    rintro i hi ⟨j, hj, rfl⟩
    have hrow := RowMajor.row_end_le n hi
    omega

/-- Without rows nothing is written. -/
theorem readable_of_rows (ha : Apart a (m * k) c (m * n))
    (hb : 0 < m → ∀ p < k, ∀ j < n, b_at p j < c ∨ c + m * n ≤ b_at p j) :
    Readable b_at a c m k n := by
  refine ⟨ha, ?_⟩
  rcases Nat.eq_zero_or_pos m with rfl | hm
  · intro p _ j _
    omega
  · exact hb hm

theorem readable_nt (ha : Apart a (m * k) c (m * n)) (hb : 0 < m → Apart b (k * n) c (m * n)) :
    Readable (fun p j => b + (p * n + j)) a c m k n := by
  apply readable_of_rows ha
  intro hm p hp j hj
  have hrow := RowMajor.row_end_le n hp
  have hapart := hb hm
  unfold Apart at hapart
  omega

theorem readable_qk (ha : Apart a (m * k) c (m * n)) (hb : 0 < m → Apart bt (n * k) c (m * n)) :
    Readable (fun p j => bt + (j * k + p)) a c m k n := by
  apply readable_of_rows ha
  intro hm p hp j hj
  have hrow := RowMajor.row_end_le k hj
  have hapart := hb hm
  unfold Apart at hapart
  omega

end

/-! ## The softmax of every row -/

section
variable {K : Type*} [Field K] [LinearOrder K]

/-- The body of the loop over `r`. -/
def softmaxRow (exp : K → K) (row cols : Nat) (mem : Nat → K) : Nat → K :=
  let maxv := (List.range' 1 (cols - 1)).foldl
    (fun maxv c => if mem (row + c) < maxv then maxv else mem (row + c)) (mem row)
  let s := (List.range cols).foldl
    (fun (s : (Nat → K) × K) c =>
      let mem := Function.update s.1 (row + c) (exp (s.1 (row + c) - maxv))
      (mem, s.2 + mem (row + c)))
    (mem, 0)
  let inv := 1 / s.2
  (List.range cols).foldl
    (fun mem c => Function.update mem (row + c) (mem (row + c) * inv)) s.1

def softmax_rows (exp : K → K) (x rows cols : Nat) (mem : Nat → K) : Nat → K :=
  (List.range rows).foldl (fun mem r => softmaxRow exp (x + r * cols) cols mem) mem

/-- It is the reference function of the library, in place. -/
theorem softmaxRow_eq (exp : K → K) (row cols : Nat) (mem : Nat → K) :
    softmaxRow exp row cols mem = math.ref.softmax_f32 exp mem row row cols 1 := by
  have hmax : ∀ v w : K, (if w < v then v else w) = max v w := by
    intro v w
    rcases lt_or_ge w v with h | h
    · rw [if_pos h, max_eq_left h.le]
    · rw [if_neg (not_lt.mpr h), max_eq_right h]
  unfold softmaxRow math.ref.softmax_f32 math.ref.max_val
  simp only [hmax, mul_one]

variable {x rows cols : Nat} {mem : Nat → K}

theorem softmaxRow_spec (exp : K → K) (row cols : Nat) (mem : Nat → K) :
    (∀ j < cols, softmaxRow exp row cols mem (row + j) =
      rowSoftmax exp (fun j => mem (row + j)) cols j) ∧
    ∀ y, (∀ j < cols, y ≠ row + j) → softmaxRow exp row cols mem y = mem y := by
  have hread : math.ReadsFirst row row cols 1 :=
    math.SameOrDisjoint.readsFirst (Or.inl rfl) Nat.one_pos
  have hspec := math.ref.softmax_f32_spec (m := mem) exp Nat.one_pos hread
  simp only [mul_one] at hspec
  rw [softmaxRow_eq]
  exact hspec

theorem softmax_rows_spec (exp : K → K) (x rows cols : Nat) (mem : Nat → K) :
    (∀ r < rows, ∀ j < cols, softmax_rows exp x rows cols mem (x + (r * cols + j)) =
      rowSoftmax exp (fun j => mem (x + (r * cols + j))) cols j) ∧
    ∀ y, y < x ∨ x + rows * cols ≤ y → softmax_rows exp x rows cols mem y = mem y := by
  have hloop : (∀ r < rows, ∀ y, (∃ j < cols, y = x + r * cols + j) →
        softmax_rows exp x rows cols mem y =
          rowSoftmax exp (fun j => mem (x + r * cols + j)) cols (y - (x + r * cols))) ∧
      ∀ y, (∀ r < rows, ¬ ∃ j < cols, y = x + r * cols + j) →
        softmax_rows exp x rows cols mem y = mem y := by
    unfold softmax_rows
    apply BlockMemory.foldl_range_blocks
    · rintro r _ r' hr' y ⟨j, hj, rfl⟩ ⟨j', hj', heq⟩
      have hrow := RowMajor.row_end_le cols hr'
      omega
    · intro mem' r _ y hy
      apply (softmaxRow_spec exp _ _ mem').2
      intro j hj heq
      exact hy ⟨j, hj, heq⟩
    · rintro r _ mem' hmem' y ⟨j, hj, rfl⟩
      have hsame : ∀ j < cols, mem' (x + r * cols + j) = mem (x + r * cols + j) := by
        intro j hj
        apply hmem'
        rintro r' hr' ⟨j', hj', heq⟩
        have hrow := RowMajor.row_end_le cols hr'
        omega
      rw [(softmaxRow_spec exp _ _ mem').1 j hj, Nat.add_sub_cancel_left]
      exact (math.rowKernel_softmax exp).reads _ _ _ hsame j hj
  constructor
  · intro r hr j hj
    rw [← Nat.add_assoc, hloop.1 r hr _ ⟨j, hj, rfl⟩, Nat.add_sub_cancel_left]
    simp only [Nat.add_assoc]
  · intro y hy
    apply hloop.2
    rintro r hr ⟨j, hj, rfl⟩
    have hrow := RowMajor.row_end_le cols hr
    omega

/-! ## Attention -/

/-- Where the data of the vectors of `BM_Attention` begin. -/
structure Vectors where
  q : Nat
  k : Nat
  v : Nat
  scores : Nat
  out : Nat

/-- One round of the benchmark. -/
def attention (exp : K → K) (at_ : Vectors) (heads seq dim : Nat) (mem : Nat → K) : Nat → K :=
  let m := heads * seq
  let mem := gemm_qk at_.q at_.k at_.scores m dim seq mem
  let mem := softmax_rows exp at_.scores m seq mem
  gemm_nt at_.scores at_.v at_.out m seq dim mem

/-- The loop over `state`. -/
def rounds (exp : K → K) (at_ : Vectors) (heads seq dim n : Nat) : (Nat → K) → Nat → K :=
  (attention exp at_ heads seq dim)^[n]

end

/-- What a round writes is apart from what it reads. -/
structure Vectors.Separate (at_ : Vectors) (heads seq dim : Nat) : Prop where
  q_scores : Apart at_.q (heads * seq * dim) at_.scores (heads * seq * seq)
  k_scores : Apart at_.k (heads * seq * dim) at_.scores (heads * seq * seq)
  v_scores : Apart at_.v (heads * seq * dim) at_.scores (heads * seq * seq)
  q_out : Apart at_.q (heads * seq * dim) at_.out (heads * seq * dim)
  k_out : Apart at_.k (heads * seq * dim) at_.out (heads * seq * dim)
  v_out : Apart at_.v (heads * seq * dim) at_.out (heads * seq * dim)
  scores_out : Apart at_.scores (heads * seq * seq) at_.out (heads * seq * dim)

variable {at_ : Vectors} {heads seq dim i d : Nat} {mem mem' : Nat → ℝ}

/-- How much row `i` of `q` and row `j` of `k` agree. -/
def score (at_ : Vectors) (dim : Nat) (mem : Nat → ℝ) (i j : Nat) : ℝ :=
  ∑ p ∈ Finset.range dim, mem (at_.q + (i * dim + p)) * mem (at_.k + (j * dim + p))

/-- The mean of the first rows of `v`, weighted by the scores of row `i`. -/
noncomputable def attended (at_ : Vectors) (seq dim : Nat) (mem : Nat → ℝ) (i d : Nat) : ℝ :=
  Gibbs.mean (Finset.range seq) (score at_ dim mem i) 1 fun j => mem (at_.v + (j * dim + d))

theorem rowSoftmax_eq_share_one (v : Nat → ℝ) (n j : Nat) :
    rowSoftmax Real.exp v n j = Gibbs.share (Finset.range n) v 1 j := by
  rw [math.rowSoftmax_exp, Gibbs.share]
  simp only [one_mul]

/-- The heads are one after the other, and the first `seq` rows of `k` and `v` are read for all. -/
theorem seq_rows_le (dim : Nat) (hpos : 0 < heads * seq) : seq * dim ≤ heads * seq * dim := by
  apply Nat.mul_le_mul_right
  apply Nat.le_mul_of_pos_left
  exact Nat.pos_of_mul_pos_right hpos

theorem attention_spec (hsep : at_.Separate heads seq dim) (mem : Nat → ℝ) :
    (∀ i < heads * seq, ∀ d < dim,
      attention Real.exp at_ heads seq dim mem (at_.out + (i * dim + d)) =
        attended at_ seq dim mem i d) ∧
    ∀ x, (x < at_.scores ∨ at_.scores + heads * seq * seq ≤ x) →
      (x < at_.out ∨ at_.out + heads * seq * dim ≤ x) →
      attention Real.exp at_ heads seq dim mem x = mem x := by
  obtain ⟨hq, hk, hv, -, -, hvout, hscores⟩ := hsep
  have hfirst : 0 < heads * seq → seq * dim ≤ heads * seq * dim := seq_rows_le dim
  -- each of the three functions writes to one vector, and leaves what the others read
  obtain ⟨hqk, hqk'⟩ := gemm_spec mem
    (readable_qk hq fun hm => hk.mono (le_refl _) (Nat.add_le_add_left (hfirst hm) _))
  obtain ⟨hsoft, hsoft'⟩ := softmax_rows_spec Real.exp at_.scores (heads * seq) seq
    (gemm_qk at_.q at_.k at_.scores (heads * seq) dim seq mem)
  obtain ⟨hnt, hnt'⟩ := gemm_spec
    (softmax_rows Real.exp at_.scores (heads * seq) seq
      (gemm_qk at_.q at_.k at_.scores (heads * seq) dim seq mem))
    (readable_nt hscores fun hm => hvout.mono (le_refl _) (Nat.add_le_add_left (hfirst hm) _))
  constructor
  · intro i hi d hd
    unfold attention attended Gibbs.mean
    apply (hnt i hi d hd).trans
    apply Finset.sum_congr rfl
    intro j hj
    have hlt := Finset.mem_range.mp hj
    have hread : at_.v + (j * dim + d) < at_.scores ∨
        at_.scores + heads * seq * seq ≤ at_.v + (j * dim + d) := by
      have hrow := RowMajor.row_end_le dim hlt
      have hall := hfirst (by omega)
      unfold Apart at hv
      omega
    have hshare : softmax_rows Real.exp at_.scores (heads * seq) seq
        (gemm_qk at_.q at_.k at_.scores (heads * seq) dim seq mem) (at_.scores + (i * seq + j)) =
        Gibbs.share (Finset.range seq) (score at_ dim mem i) 1 j := by
      rw [hsoft i hi j hlt, ← rowSoftmax_eq_share_one]
      exact (math.rowKernel_softmax Real.exp).reads _ _ _ (hqk i hi) j hlt
    rw [hshare, hsoft' _ hread]
    congr 1
    exact hqk' _ hread
  · intro x hx hx'
    unfold attention
    apply (hnt' x hx').trans
    rw [hsoft' x hx]
    exact hqk' x hx

/-- The rows of `k` and `v` can be in any order, and other rows do not matter. -/
theorem attended_perm (σ : Equiv.Perm ℕ) (hσ : ∀ j, σ j < seq ↔ j < seq) (hd : d < dim)
    (hq : ∀ p < dim, mem' (at_.q + (i * dim + p)) = mem (at_.q + (i * dim + p)))
    (hkv : ∀ j < seq, ∀ p < dim, mem' (at_.k + (j * dim + p)) = mem (at_.k + (σ j * dim + p)) ∧
      mem' (at_.v + (j * dim + p)) = mem (at_.v + (σ j * dim + p))) :
    attended at_ seq dim mem' i d = attended at_ seq dim mem i d := by
  unfold attended
  apply Eq.trans _ (Gibbs.mean_perm σ (by simpa using hσ))
  apply Gibbs.mean_congr
  · intro j hj
    apply Finset.sum_congr rfl
    intro p hp
    have hlt := Finset.mem_range.mp hp
    rw [hq p hlt, (hkv j (Finset.mem_range.mp hj) p hlt).1]
  · intro j hj
    exact (hkv j (Finset.mem_range.mp hj) d hd).2

/-- A round finds `q`, `k` and `v` as the one before. -/
theorem rounds_spec (hsep : at_.Separate heads seq dim) (mem : Nat → ℝ) (n : Nat) :
    (∀ i < heads * seq, ∀ d < dim,
      rounds Real.exp at_ heads seq dim (n + 1) mem (at_.out + (i * dim + d)) =
        attended at_ seq dim mem i d) ∧
    ∀ x, (x < at_.scores ∨ at_.scores + heads * seq * seq ≤ x) →
      (x < at_.out ∨ at_.out + heads * seq * dim ≤ x) →
      rounds Real.exp at_ heads seq dim (n + 1) mem x = mem x := by
  induction n with
  | zero => exact attention_spec hsep mem
  | succ n ih =>
    have hround : rounds Real.exp at_ heads seq dim (n + 1 + 1) mem =
        attention Real.exp at_ heads seq dim (rounds Real.exp at_ heads seq dim (n + 1) mem) :=
      Function.iterate_succ_apply' _ _ _
    obtain ⟨hvalue, hframe⟩ :=
      attention_spec hsep (rounds Real.exp at_ heads seq dim (n + 1) mem)
    rw [hround]
    constructor
    · intro i hi d hd
      have hrow := RowMajor.row_end_le dim hi
      have hfirst := seq_rows_le dim (Nat.zero_lt_of_lt hi)
      obtain ⟨hq, hk, hv, hq', hk', hv', -⟩ := hsep
      unfold Apart at *
      rw [hvalue i hi d hd]
      apply attended_perm (Equiv.refl ℕ) (fun _ => Iff.rfl) hd
      · intro p hp
        apply ih.2 <;> omega
      · intro j hj p hp
        have hrow := RowMajor.row_end_le dim hj
        constructor
        · apply ih.2 <;> omega
        · apply ih.2 <;> omega
    · intro x hx hx'
      rw [hframe x hx hx']
      exact ih.2 x hx hx'

/-- A row of `out` is the mean of the first rows of `v`, weighted by the softmax of its scores, and
lies between them. All heads have the same rows of `k` and `v`; in which order these are does not
matter, nor what other rows of `k`, `v` and `q` hold, nor how many rounds there were. -/
theorem attention_averages_the_first_rows (hsep : at_.Separate heads seq dim) (mem : Nat → ℝ)
    (n : Nat) :
    (∀ i < heads * seq, ∀ d < dim,
      rounds Real.exp at_ heads seq dim (n + 1) mem (at_.out + (i * dim + d)) =
        attended at_ seq dim mem i d ∧
      ∀ low high, (∀ j < seq, low ≤ mem (at_.v + (j * dim + d)) ∧
        mem (at_.v + (j * dim + d)) ≤ high) →
        low ≤ rounds Real.exp at_ heads seq dim (n + 1) mem (at_.out + (i * dim + d)) ∧
        rounds Real.exp at_ heads seq dim (n + 1) mem (at_.out + (i * dim + d)) ≤ high) ∧
    (∀ (mem' : Nat → ℝ) (n' : Nat) (σ : Equiv.Perm ℕ), (∀ j, σ j < seq ↔ j < seq) →
      (∀ j < seq, ∀ p < dim, mem' (at_.k + (j * dim + p)) = mem (at_.k + (σ j * dim + p)) ∧
        mem' (at_.v + (j * dim + p)) = mem (at_.v + (σ j * dim + p))) →
      ∀ i < heads * seq,
        (∀ p < dim, mem' (at_.q + (i * dim + p)) = mem (at_.q + (i * dim + p))) →
        ∀ d < dim, rounds Real.exp at_ heads seq dim (n' + 1) mem' (at_.out + (i * dim + d)) =
          rounds Real.exp at_ heads seq dim (n + 1) mem (at_.out + (i * dim + d))) ∧
    ∀ x, (x < at_.scores ∨ at_.scores + heads * seq * seq ≤ x) →
      (x < at_.out ∨ at_.out + heads * seq * dim ≤ x) →
      rounds Real.exp at_ heads seq dim (n + 1) mem x = mem x := by
  obtain ⟨hvalue, hframe⟩ := rounds_spec hsep mem n
  refine ⟨?_, ?_, hframe⟩
  · intro i hi d hd
    have hseq : 0 ∈ Finset.range seq :=
      Finset.mem_range.mpr (Nat.pos_of_mul_pos_left (Nat.zero_lt_of_lt hi))
    rw [hvalue i hi d hd]
    refine ⟨rfl, fun low high h => ⟨?_, ?_⟩⟩
    · apply Gibbs.le_mean hseq
      intro j hj
      exact (h j (Finset.mem_range.mp hj)).1
    · apply Gibbs.mean_le hseq
      intro j hj
      exact (h j (Finset.mem_range.mp hj)).2
  · intro mem' n' σ hσ hkv i hi hq d hd
    rw [hvalue i hi d hd, (rounds_spec hsep mem' n').1 i hi d hd]
    exact attended_perm σ hσ hd hq hkv

/-- Two heads of two rows each, with vectors of two numbers. -/
def twoHeads : Vectors := { q := 0, k := 8, v := 16, scores := 24, out := 32 }

theorem twoHeads_separate : twoHeads.Separate 2 2 2 :=
  ⟨by decide, by decide, by decide, by decide, by decide, by decide, by decide⟩

theorem two_heads_after_a_round :
    rounds Real.exp twoHeads 2 2 2 1 Nat.cast 32 = attended twoHeads 2 2 Nat.cast 0 0 :=
  ((attention_averages_the_first_rows twoHeads_separate Nat.cast 0).1
    0 (by decide) 0 (by decide)).1

end sci.bench
