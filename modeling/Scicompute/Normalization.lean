-- Layer and RMS normalization (src/math/normalization.cpp, 15-141) over exact numbers. The loops
-- go over rows and columns with indices of type `int`; a product or an index that overflows, and
-- an access outside of a buffer, have no result.
import Scicompute.FloatArrays

open Word
open BlockMemory (Apart)

namespace sci.int64.math

variable {K : Type*} [Field K]

/-- `p ? p[c] : v` -/
def param (p : Floats) (v : K) (m : Nat → K) (c : Nat) : Option K :=
  if p.data.isSome then p.read m c else some v

/-- The loop `sum += f(x[r * cols + c])`. -/
def columnSum (x : Floats) (r : Nat) (cols : Int) (f : K → K) (m : Nat → K) : Option K :=
  forCols r cols 0 (fun _ i sum => (x.read m i).map fun v => sum + f v) 0

/-- The loop `out[r * cols + c] = f(c, x[r * cols + c])`. -/
def writeColumns (x out : Floats) (r : Nat) (cols : Int) (f : Nat → K → (Nat → K) → Option K)
    (m : Nat → K) : Option (Nat → K) :=
  forCols r cols 0
    (fun c i m => (x.read m i).bind fun v => (f c v m).bind fun y => out.write m i y) m

namespace ref

def layer_norm_f32 (sqrt : K → K) (x weight bias out : Floats) (rows cols : Int) (eps : K)
    (m : Nat → K) : Option (Nat → K) :=
  forRows rows (fun r m =>
    (columnSum x r cols id m).bind fun mean =>
    let mean := mean / cols
    (columnSum x r cols (fun v => (v - mean) * (v - mean)) m).bind fun var =>
    let var := var / cols
    let inv_std := 1 / sqrt (var + eps)
    writeColumns x out r cols (fun c v m =>
      (param weight 1 m c).bind fun w => (param bias 0 m c).map fun b =>
        (v - mean) * inv_std * w + b) m) m

def rms_norm_f32 (sqrt : K → K) (x weight out : Floats) (rows cols : Int) (eps : K)
    (m : Nat → K) : Option (Nat → K) :=
  forRows rows (fun r m =>
    (columnSum x r cols (fun v => v * v) m).bind fun sum_sq =>
    let rms := sqrt (sum_sq / cols + eps)
    let inv_rms := 1 / rms
    writeColumns x out r cols (fun c v m =>
      (param weight 1 m c).map fun w => v * inv_rms * w) m) m

end ref

/-- The loop `rows *= x.dim(i)`, whose product is converted to `int` in each round. -/
def leading_rows (x : Tensor) : Option Int :=
  (List.range (x.shape_.ndims_ - 1).toNat).foldlM
    (fun rows i => (x.shape_.dims_.get i).map fun d => narrow (imul rows d)) 1

/-- `x.dim(x.ndims() - 1)`, where -1 is no slot. -/
def last_dim (x : Tensor) : Option Int :=
  (x.shape_.dims_.at_index (x.shape_.ndims_ - 1)).map narrow

/-- The memory after a function, and the tensor it returns. -/
abbrev NormResult (K : Type*) := Option (Except String (Tensor × (Nat → K)))

/-- What the two functions share. `got` is the place that the device gets for the output. -/
def normalize (kernel : Floats → Int → Int → (Nat → K) → Option (Nat → K)) (m : Nat → K) (got : Nat)
    (x : Tensor) : NormResult K :=
  (Tensor.make x.shape_ x.dtype_ x.device_ (some got)).bind fun out =>
  (leading_rows x).bind fun rows => (last_dim x).bind fun cols =>
  (kernel out.floats rows cols (out.floats.allocated m)).map fun m => .ok (out, m)

def layer_norm (sqrt : K → K) (m : Nat → K) (got : Nat) (x weight bias : Tensor) (eps : K) :
    NormResult K :=
  normalize (fun out rows cols =>
    ref.layer_norm_f32 sqrt x.floats weight.floats bias.floats out rows cols eps) m got x

def rms_norm (sqrt : K → K) (m : Nat → K) (got : Nat) (x weight : Tensor) (eps : K) :
    NormResult K :=
  normalize (fun out rows cols =>
    ref.rms_norm_f32 sqrt x.floats weight.floats out rows cols eps) m got x

/-- `Tensor(TensorShape{norm_dim}, DType::kFloat32, device)`, filled with one number. A fill goes
over all elements, and has no result where they are not in the buffer. -/
def filled_vector (norm_dim : Int) (device : DeviceType) (got : Nat) (v : K) (m : Nat → K) :
    Option (Tensor × (Nat → K)) :=
  (Tensor.make (TensorShape.of_initializer_list [norm_dim]) .kFloat32 device (some got)).bind
    fun t => t.shape_.num_elements.bind fun n =>
      let m := t.floats.allocated m
      if toSize n = 0 then some (t, m)
      else t.data.bind fun data =>
        if toSize n ≤ t.floats.size then some (t, BlockMemory.fill m data (toSize n) v) else none

/-- `normalized_shape.back()` of an empty vector has no result. `got_weight` and `got_bias` are the
places for the parameters. -/
def layer_norm_shape (sqrt : K → K) (m : Nat → K) (got_weight got_bias got : Nat) (x : Tensor)
    (normalized_shape : List Int) (eps : K) : NormResult K :=
  normalized_shape.getLast?.bind fun norm_dim =>
  (filled_vector norm_dim x.device_ got_weight 1 m).bind fun (weight, m) =>
  (filled_vector norm_dim x.device_ got_bias 0 m).bind fun (bias, m) =>
  layer_norm sqrt m got x weight bias eps

def rms_norm_shape (sqrt : K → K) (m : Nat → K) (got_weight got : Nat) (x : Tensor)
    (normalized_shape : List Int) (eps : K) : NormResult K :=
  normalized_shape.getLast?.bind fun norm_dim =>
  (filled_vector norm_dim x.device_ got_weight 1 m).bind fun (weight, m) =>
  rms_norm sqrt m got x weight eps

/-! ## Rows -/

def rowMean (v : Nat → K) (n : Nat) : K := (∑ j ∈ Finset.range n, v j) / n

def rowVar (v : Nat → K) (n : Nat) : K :=
  (∑ j ∈ Finset.range n, (v j - rowMean v n) * (v j - rowMean v n)) / n

/-- Element `c` of the normalized row `v`. -/
def rowLayerNorm (sqrt : K → K) (eps : K) (v weight bias : Nat → K) (n c : Nat) : K :=
  (v c - rowMean v n) * (1 / sqrt (rowVar v n + eps)) * weight c + bias c

def rowRmsNorm (sqrt : K → K) (eps : K) (v weight : Nat → K) (n c : Nat) : K :=
  v c * (1 / sqrt ((∑ j ∈ Finset.range n, v j * v j) / n + eps)) * weight c

/-- The numbers of a parameter. -/
def paramNumbers (p : Floats) (v : K) (m : Nat → K) (c : Nat) : K :=
  match p.data with
  | none => v
  | some data => m (data + c)

/-- The first `k` numbers at `q` are replaced. -/
def overwrite (m : Nat → K) (q k : Nat) (f : Nat → K) : Nat → K :=
  fun a => if q ≤ a ∧ a < q + k then f (a - q) else m a

/-- Every row of `n` numbers at `p` is mapped by `f`. -/
def mapRows (f : (Nat → K) → Nat → K) (m : Nat → K) (p n i : Nat) : K :=
  f (fun j => m (p + (i / n * n + j))) (i % n)

variable {x weight bias out w : Floats} {m m' : Nat → K} {p q r rows cols c k n i : Nat}
  {f : Nat → K} {sqrt : K → K} {eps : K}

/-! ## The memory between two rounds -/

omit [Field K] in
theorem overwrite_zero (m : Nat → K) (q : Nat) (f : Nat → K) : overwrite m q 0 f = m := by
  funext a
  exact if_neg (by omega)

omit [Field K] in
theorem overwrite_inside (m : Nat → K) (q : Nat) (f : Nat → K) (hi : i < k) :
    overwrite m q k f (q + i) = f i := by
  unfold overwrite
  rw [if_pos (by omega), Nat.add_sub_cancel_left]

omit [Field K] in
theorem overwrite_outside (m : Nat → K) (f : Nat → K) {a : Nat} (ha : ¬ (q ≤ a ∧ a < q + k)) :
    overwrite m q k f a = m a := if_neg ha

omit [Field K] in
theorem overwrite_succ (m : Nat → K) (q k : Nat) (f : Nat → K) :
    Function.update (overwrite m q k f) (q + k) (f k) = overwrite m q (k + 1) f := by
  funext a
  by_cases ha : a = q + k
  · rw [ha, Function.update_self, overwrite_inside m q f (Nat.lt_succ_self k)]
  · rw [Function.update_of_ne ha]
    unfold overwrite
    split_ifs <;> first | rfl | omega

/-- The input is the output, or is apart from it. -/
def SameOrApart (p q n : Nat) : Prop := p = q ∨ Apart p n q n

omit [Field K] in
/-- What is not yet written is still the input. -/
theorem overwrite_input (h : SameOrApart p q n) (hki : k ≤ i) (hi : i < n) (m f : Nat → K) :
    overwrite m q k f (p + i) = m (p + i) := by
  apply overwrite_outside
  rcases h with rfl | h
  · omega
  · unfold Apart at h
    omega

/-- A parameter is null, or has `cols` numbers that are apart from the output. -/
def ParamFits (w : Floats) (q n cols : Nat) : Prop :=
  ∀ data ∈ w.data, cols ≤ w.size ∧ Apart data cols q n

omit [Field K] in
theorem param_eq (hw : ParamFits w q n cols) (hkn : k ≤ n) (hc : c < cols) (v : K) (m f : Nat → K) :
    param w v (overwrite m q k f) c = some (paramNumbers w v m c) := by
  unfold param paramNumbers
  cases hdata : w.data with
  | none => rfl
  | some data =>
    obtain ⟨hsize, hapart⟩ := hw data hdata
    unfold Apart at hapart
    dsimp only
    rw [Option.isSome_some, if_pos rfl, Floats.read_eq hdata _ (by omega),
      overwrite_outside _ _ (by omega)]

/-! ## One row -/

theorem columnSum_eq (hx : x.data = some p) (hlt : r * cols + cols ≤ 2 ^ 31)
    (hsize : r * cols + cols ≤ x.size) {v : Nat → K}
    (hv : ∀ j < cols, m (p + (r * cols + j)) = v j) (g : K → K) :
    columnSum x r cols g m = some (∑ j ∈ Finset.range cols, g (v j)) := by
  unfold columnSum
  rw [forCols_eq _ _ hlt, CheckedLoop.foldlM_eq_some (f := fun sum c => sum + g (v c)) _ ?_]
  · rw [Nat.sub_zero, ← List.range_eq_range', CheckedLoop.foldl_range_add]
  · intro sum c hc
    have := List.mem_range'_1.mp hc
    rw [Floats.read_eq hx m (by omega), Option.map_some, hv c (by omega)]

omit [Field K] in
/-- A row is written behind the rows before it. -/
theorem writeColumns_eq {g : Nat → K → (Nat → K) → Option K} (hx : x.data = some p)
    (hout : out.data = some q) (hlt : r * cols + cols ≤ 2 ^ 31) (hn : r * cols + cols ≤ n)
    (hxsize : n ≤ x.size) (hosize : n ≤ out.size) (hsame : SameOrApart p q n)
    (hg : ∀ c < cols, g c (m (p + (r * cols + c))) (overwrite m q (r * cols + c) f) =
      some (f (r * cols + c))) :
    writeColumns x out r cols g (overwrite m q (r * cols) f) =
      some (overwrite m q (r * cols + cols) f) := by
  unfold writeColumns
  rw [forCols_eq _ _ hlt, Nat.sub_zero, ← List.range_eq_range']
  have hloop : ∀ k ≤ cols, (List.range k).foldlM (fun m (c : Nat) =>
      (x.read m ((r * cols + c : Nat) : Int)).bind fun v => (g c v m).bind fun y =>
        out.write m ((r * cols + c : Nat) : Int) y) (overwrite m q (r * cols) f) =
      some (overwrite m q (r * cols + k) f) := by
    intro k
    induction k with
    | zero => intro _; rfl
    | succ k ih =>
      intro hk
      rw [List.range_succ, List.foldlM_append, ih (by omega), Option.bind_eq_bind, Option.bind_some,
        List.foldlM_cons, Floats.read_eq hx _ (by omega), Option.bind_some,
        overwrite_input hsame le_rfl (by omega), hg k hk, Option.bind_some,
        Floats.write_eq hout _ (by omega), overwrite_succ]
      rfl
  exact hloop cols le_rfl

omit [Field K] in
/-- The rows, one behind the other. -/
theorem forRows_overwrite {body : Nat → (Nat → K) → Option (Nat → K)}
    (hbody : ∀ r < rows, body r (overwrite m q (r * cols) f) =
      some (overwrite m q (r * cols + cols) f)) :
    forRows rows body m = some (overwrite m q (rows * cols) f) := by
  obtain ⟨m', hm', rfl⟩ := exists_forRows (I := fun r m' => m' = overwrite m q (r * cols) f)
    (s := m) (by rw [Nat.zero_mul, overwrite_zero]) (by
      rintro r hr _ rfl
      exact ⟨_, hbody r hr, by rw [Nat.succ_mul]⟩)
  exact hm'

omit [Field K] in
theorem mapRows_index (g : (Nat → K) → Nat → K) (m : Nat → K) (p : Nat) (hc : c < n) :
    mapRows g m p n (r * n + c) = g (fun j => m (p + (r * n + j))) c := by
  have hdiv : (r * n + c) / n = r := by
    rw [Nat.mul_comm, Nat.mul_add_div (by omega), Nat.div_eq_of_lt hc, Nat.add_zero]
  have hmod : (r * n + c) % n = c := by
    rw [Nat.mul_comm, Nat.mul_add_mod, Nat.mod_eq_of_lt hc]
  unfold mapRows
  rw [hdiv, hmod]

/-- The buffers have what the loops go through: the input and the output, which is the input or
apart from it. -/
structure RowsFit (x out : Floats) (p q rows cols : Nat) : Prop where
  int : rows * cols ≤ 2 ^ 31
  input : x.data = some p
  output : out.data = some q
  input_size : rows * cols ≤ x.size
  output_size : rows * cols ≤ out.size
  same : SameOrApart p q (rows * cols)

omit [Field K] in
theorem RowsFit.input_eq (h : RowsFit x out p q rows cols) (hr : r < rows) (m f : Nat → K) :
    ∀ j < cols, overwrite m q (r * cols) f (p + (r * cols + j)) = m (p + (r * cols + j)) := by
  intro j hj
  have hrow := RowMajor.row_end_le cols hr
  exact overwrite_input h.same (by omega) (by omega) m f

/-- Every row is normalized. -/
theorem ref.layer_norm_f32_eq (h : RowsFit x out p q rows cols)
    (hweight : ParamFits weight q (rows * cols) cols) (hbias : ParamFits bias q (rows * cols) cols)
    (sqrt : K → K) (eps : K) (m : Nat → K) :
    ref.layer_norm_f32 sqrt x weight bias out rows cols eps m =
      some (overwrite m q (rows * cols) (mapRows (fun v => rowLayerNorm sqrt eps v
        (paramNumbers weight 1 m) (paramNumbers bias 0 m) cols) m p cols)) := by
  unfold ref.layer_norm_f32
  apply forRows_overwrite
  intro r hr
  have hrow := RowMajor.row_end_le cols hr
  have hint := h.int
  have hisize := h.input_size
  rw [columnSum_eq h.input (by omega) (by omega) (h.input_eq hr m _), Option.bind_some]
  dsimp only
  rw [columnSum_eq h.input (by omega) (by omega) (h.input_eq hr m _), Option.bind_some]
  refine writeColumns_eq h.input h.output (by omega) hrow h.input_size h.output_size h.same ?_
  intro c hc
  rw [param_eq hweight (by omega) hc, param_eq hbias (by omega) hc, Option.bind_some,
    Option.map_some, mapRows_index _ _ _ hc, Int.cast_natCast]
  rfl

theorem ref.rms_norm_f32_eq (h : RowsFit x out p q rows cols)
    (hweight : ParamFits weight q (rows * cols) cols) (sqrt : K → K) (eps : K) (m : Nat → K) :
    ref.rms_norm_f32 sqrt x weight out rows cols eps m =
      some (overwrite m q (rows * cols) (mapRows (fun v => rowRmsNorm sqrt eps v
        (paramNumbers weight 1 m) cols) m p cols)) := by
  unfold ref.rms_norm_f32
  apply forRows_overwrite
  intro r hr
  have hrow := RowMajor.row_end_le cols hr
  have hint := h.int
  have hisize := h.input_size
  rw [columnSum_eq h.input (by omega) (by omega) (h.input_eq hr m _), Option.bind_some]
  refine writeColumns_eq h.input h.output (by omega) hrow h.input_size h.output_size h.same ?_
  intro c hc
  rw [param_eq hweight (by omega) hc, Option.map_some, mapRows_index _ _ _ hc, Int.cast_natCast]
  rfl

end sci.int64.math
