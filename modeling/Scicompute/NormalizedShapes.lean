-- When `layer_norm` and `rms_norm` (src/math/normalization.cpp, 70-141) stay in the buffers of
-- their parameters, and for which normalized shapes `layer_norm` takes the mean and the variance
-- over the trailing dimensions. The number of columns is the last dimension of the tensor, and of
-- the normalized shape only the last entry is looked at.
import Scicompute.Normalization

open Word
open BlockMemory (Apart)

namespace sci.int64.math

variable {K : Type*} [Field K] {x weight bias out w : Floats} {m m' : Nat → K} {r c n : Nat}
  {rows cols : Int} {sqrt : K → K} {eps : K} {t : Tensor} {ds : List Nat} {got : Nat}

/-! ## Loops that stay in the buffers -/

theorem columnSum_isSome_iff (x : Floats) (r cols : Nat) (f : K → K) (m : Nat → K) :
    (columnSum x r cols f m).isSome ↔
      ∀ c < cols, r * cols + c < 2 ^ 31 ∧ x.Has ((r * cols + c : Nat) : Int) := by
  unfold columnSum
  rw [isSome_forCols_iff (P := fun _ i => x.Has i)]
  · simp
  · intro c i sum
    rw [Option.isSome_map, Floats.read_isSome_iff]

omit [Field K] in
theorem writeColumns_isSome_iff {f : Nat → K → (Nat → K) → Option K} {P : Nat → Prop}
    (hf : ∀ c v m, (f c v m).isSome ↔ P c) (hout : ∀ i, out.Has i ↔ x.Has i) (r cols : Nat)
    (m : Nat → K) :
    (writeColumns x out r cols f m).isSome ↔
      ∀ c < cols, r * cols + c < 2 ^ 31 ∧ x.Has ((r * cols + c : Nat) : Int) ∧ P c := by
  unfold writeColumns
  rw [isSome_forCols_iff (P := fun c i => x.Has i ∧ P c)]
  · simp
  · intro c i m
    rw [CheckedLoop.isSome_bind_iff (P := P c ∧ x.Has i), Floats.read_isSome_iff]
    · tauto
    · intro v
      rw [CheckedLoop.isSome_bind_iff (P := x.Has i), hf]
      intro y
      rw [Floats.write_isSome_iff, hout]

/-- A parameter is null, or has `cols` numbers. -/
def ParamHas (cols : Int) (w : Floats) : Prop := w.data = none ∨ cols ≤ w.size

omit [Field K] in
theorem param_isSome_iff (w : Floats) (v : K) (m : Nat → K) (c : Nat) :
    (param w v m c).isSome ↔ w.data = none ∨ c < w.size := by
  unfold param
  cases hdata : w.data with
  | none => simp
  | some data =>
    rw [Option.isSome_some, if_pos rfl, Floats.read_isSome_iff]
    unfold Floats.Has
    rw [hdata]
    simp

/-- Both loops stay in the buffers. -/
def NormFits (size : Nat) (params : List Floats) (rows cols : Int) : Prop :=
  rows ≤ 0 ∨ cols ≤ 0 ∨
    rows * cols ≤ 2 ^ 31 ∧ rows * cols ≤ size ∧ ∀ w ∈ params, ParamHas cols w

/-- What a round of the outer loop needs, for all rounds. -/
theorem forall_rows_iff {rows cols : Nat} (hx : x.size ≠ 0 → x.data.isSome) (hrows : 0 < rows)
    (hcols : 0 < cols) (params : List Floats) :
    (∀ r : Nat, (r : Int) < rows → ∀ c < cols, r * cols + c < 2 ^ 31 ∧
      x.Has ((r * cols + c : Nat) : Int) ∧ ∀ w ∈ params, w.data = none ∨ c < w.size) ↔
      rows * cols ≤ 2 ^ 31 ∧ rows * cols ≤ x.size ∧ ∀ w ∈ params, ParamHas cols w := by
  have hlast : (rows - 1) * cols + cols = rows * cols := by
    rw [← Nat.succ_mul, Nat.succ_eq_add_one, Nat.sub_add_cancel hrows]
  constructor
  · intro h
    obtain ⟨hlt, hhas, hparams⟩ := h (rows - 1) (by omega) (cols - 1) (by omega)
    have := hhas.2.2
    refine ⟨by omega, by omega, fun w hw => ?_⟩
    exact (hparams w hw).imp_right fun hc => by omega
  · rintro ⟨hlt, hsize, hparams⟩ r hr c hc
    have hrow := RowMajor.row_end_le cols (show r < rows by omega)
    refine ⟨by omega, ⟨hx (by omega), by omega, by omega⟩, fun w hw => ?_⟩
    exact (hparams w hw).imp_right fun hc => by omega

omit [Field K] in
/-- A kernel on rows, of which only the accesses matter. -/
theorem forRows_isSome_iff {body : Nat → (Nat → K) → Option (Nat → K)} {params : List Floats}
    (hx : x.size ≠ 0 → x.data.isSome)
    (hnone : cols ≤ 0 → ∀ r m, (body r m).isSome)
    (hbody : ∀ n : Nat, cols = n → ∀ r m, (body r m).isSome ↔ ∀ c < n, r * n + c < 2 ^ 31 ∧
      x.Has ((r * n + c : Nat) : Int) ∧ ∀ w ∈ params, w.data = none ∨ c < w.size)
    (m : Nat → K) : (forRows rows body m).isSome ↔ NormFits x.size params rows cols := by
  unfold NormFits
  by_cases hrows : rows ≤ 0
  · rw [forRows_of_nonpos hrows]
    simp [hrows]
  by_cases hcols : cols ≤ 0
  · rw [isSome_forRows_iff (P := fun _ => True) fun r m => iff_true_intro (hnone hcols r m)]
    simp [hcols]
  obtain ⟨R, rfl⟩ := Int.eq_ofNat_of_zero_le (by omega : 0 ≤ rows)
  obtain ⟨C, rfl⟩ := Int.eq_ofNat_of_zero_le (by omega : 0 ≤ cols)
  rw [isSome_forRows_iff (hbody C rfl), forall_rows_iff hx (by omega) (by omega), or_iff_right hrows,
    or_iff_right hcols]
  norm_cast

theorem ref.layer_norm_f32_isSome_iff (hx : x.size ≠ 0 → x.data.isSome)
    (hout : ∀ i, out.Has i ↔ x.Has i) (sqrt : K → K) (weight bias : Floats) (rows cols : Int)
    (eps : K) (m : Nat → K) :
    (ref.layer_norm_f32 sqrt x weight bias out rows cols eps m).isSome ↔
      NormFits x.size [weight, bias] rows cols := by
  unfold ref.layer_norm_f32
  apply forRows_isSome_iff hx
  · intro hcols r m
    unfold columnSum writeColumns
    simp [forCols_of_nonpos hcols]
  · rintro n rfl r m
    rw [CheckedLoop.isSome_bind_iff (P := ∀ c < n, r * n + c < 2 ^ 31 ∧
      x.Has ((r * n + c : Nat) : Int) ∧ ∀ w ∈ [weight, bias], w.data = none ∨ c < w.size),
      columnSum_isSome_iff]
    · exact and_iff_right_of_imp fun h c hc => ⟨(h c hc).1, (h c hc).2.1⟩
    · intro sum
      rw [CheckedLoop.isSome_bind_iff (P := ∀ c < n, r * n + c < 2 ^ 31 ∧
        x.Has ((r * n + c : Nat) : Int) ∧ ∀ w ∈ [weight, bias], w.data = none ∨ c < w.size),
        columnSum_isSome_iff]
      · exact and_iff_right_of_imp fun h c hc => ⟨(h c hc).1, (h c hc).2.1⟩
      · intro var
        refine writeColumns_isSome_iff (fun c v m => ?_) hout r n m
        rw [CheckedLoop.isSome_bind_iff (P := bias.data = none ∨ c < bias.size), param_isSome_iff,
          List.forall_mem_cons, List.forall_mem_singleton]
        intro v
        rw [Option.isSome_map, param_isSome_iff]

theorem ref.rms_norm_f32_isSome_iff (hx : x.size ≠ 0 → x.data.isSome)
    (hout : ∀ i, out.Has i ↔ x.Has i) (sqrt : K → K) (weight : Floats) (rows cols : Int)
    (eps : K) (m : Nat → K) :
    (ref.rms_norm_f32 sqrt x weight out rows cols eps m).isSome ↔
      NormFits x.size [weight] rows cols := by
  unfold ref.rms_norm_f32
  apply forRows_isSome_iff hx
  · intro hcols r m
    unfold columnSum writeColumns
    simp [forCols_of_nonpos hcols]
  · rintro n rfl r m
    rw [CheckedLoop.isSome_bind_iff (P := ∀ c < n, r * n + c < 2 ^ 31 ∧
      x.Has ((r * n + c : Nat) : Int) ∧ ∀ w ∈ [weight], w.data = none ∨ c < w.size),
      columnSum_isSome_iff]
    · exact and_iff_right_of_imp fun h c hc => ⟨(h c hc).1, (h c hc).2.1⟩
    · intro sum
      refine writeColumns_isSome_iff (fun c v m => ?_) hout r n m
      rw [Option.isSome_map, param_isSome_iff, List.forall_mem_singleton]

/-! ## The functions -/

theorem leading_rows_eq (h : t.shape_.Holds (ds.map Nat.cast)) :
    leading_rows t = some (narrow ds.dropLast.prod) := by
  have hget : (List.range (ds.length - 1)).map t.shape_.dims_.get =
      (ds.dropLast.map Nat.cast).map some := by
    apply List.ext_getElem
    · simp
    · intro i hi hi'
      have hlt : i < ds.length - 1 := by simpa using hi
      have hdim := h.get i (by rw [List.length_map]; omega)
      simp [hdim, show i < ds.length by omega]
  have hrange : (t.shape_.ndims_ - 1).toNat = ds.length - 1 := by
    rw [h.ndims_, List.length_map]
    omega
  have hfold := foldl_narrow_imul (ds.dropLast.map Nat.cast) 1
  have hone : narrow 1 = 1 := by decide
  rw [hone, one_mul, ← Nat.cast_list_prod] at hfold
  unfold leading_rows
  rw [hrange, CheckedLoop.foldlM_map hget (fun rows d => narrow (imul rows d)), hfold]

theorem last_dim_eq (h : t.shape_.Holds (ds.map Nat.cast)) (hne : ds ≠ []) :
    last_dim t = some (narrow (ds.getLastD 0)) := by
  have hpos := List.length_pos_iff.mpr hne
  have hindex : t.shape_.ndims_ - 1 = ((ds.length - 1 : Nat) : Int) := by
    rw [h.ndims_, List.length_map]
    omega
  have hget := h.get (ds.length - 1) (by rw [List.length_map]; omega)
  have hlast : (ds.map Nat.cast)[ds.length - 1]? = some ((ds.getLastD 0 : Nat) : Int) := by
    rw [List.getElem?_map, List.getLastD_eq_getLast?, List.getLast?_eq_getElem?,
      List.getElem?_eq_getElem (by omega)]
    rfl
  unfold last_dim Slots.at_index
  rw [hindex, if_pos (Int.natCast_nonneg _), Int.toNat_natCast, hget, hlast, Option.map_some]

/-- A shape without dimensions has no last one. -/
theorem last_dim_nil (h : t.shape_.Holds []) : last_dim t = none := by
  unfold last_dim Slots.at_index
  rw [h.ndims_]
  rfl

/-- The functions up to their loops. -/
theorem exists_normalize (ht : IsFloats t n) (hds : t.shape_.Holds (ds.map Nat.cast))
    (hne : ds ≠ []) (got : Nat) :
    ∃ out, out.shape_ = t.shape_ ∧ out.floats.size = t.floats.size ∧
      (out.floats.size ≠ 0 → out.floats.data = some got) ∧
      ∀ (kernel : Floats → Int → Int → (Nat → K) → Option (Nat → K)) (m : Nat → K),
        normalize kernel m got t =
          (kernel out.floats (narrow ds.dropLast.prod) (narrow (ds.getLastD 0))
            (out.floats.allocated m)).map fun m => .ok (out, m) := by
  obtain ⟨out, hmake, hshape, -, hsize, -, hdata⟩ := ht.exists_make got
  refine ⟨out, hshape, hsize, hdata, fun kernel m => ?_⟩
  unfold normalize
  rw [ht.dtype, hmake, Option.bind_some, leading_rows_eq hds, Option.bind_some,
    last_dim_eq hds hne, Option.bind_some]

/-- The functions stay in the buffers exactly when the loops do. -/
theorem normalize_isSome_iff {kernel : Floats → Int → Int → (Nat → K) → Option (Nat → K)}
    {params : List Floats} (ht : IsFloats t n) (hds : t.shape_.Holds (ds.map Nat.cast))
    (hkernel : ∀ out : Floats, (∀ i, out.Has i ↔ t.floats.Has i) → ∀ rows cols m,
      (kernel out rows cols m).isSome ↔ NormFits t.floats.size params rows cols)
    (m : Nat → K) (got : Nat) :
    (normalize kernel m got t).isSome ↔ ds ≠ [] ∧
      NormFits t.floats.size params (narrow ds.dropLast.prod) (narrow (ds.getLastD 0)) := by
  by_cases hne : ds = []
  · subst hne
    have hnone : normalize kernel m got t = none := by
      unfold normalize
      rw [last_dim_nil hds]
      simp
    simp [hnone]
  obtain ⟨out, -, hsize, hdata, heq⟩ := exists_normalize (K := K) ht hds hne got
  rw [heq, Option.isSome_map, hkernel out.floats ?_, and_iff_right hne]
  intro i
  unfold Floats.Has
  rw [hsize]
  constructor
  · rintro ⟨-, h0, hi⟩
    obtain ⟨data, hx⟩ := ht.exists_data (by omega)
    exact ⟨by rw [hx]; rfl, h0, hi⟩
  · rintro ⟨-, h0, hi⟩
    exact ⟨by rw [hdata (by omega)]; rfl, h0, hi⟩

theorem layer_norm_isSome_iff (ht : IsFloats t n) (hds : t.shape_.Holds (ds.map Nat.cast))
    (sqrt : K → K) (m : Nat → K) (got : Nat) (weight bias : Tensor) (eps : K) :
    (layer_norm sqrt m got t weight bias eps).isSome ↔ ds ≠ [] ∧
      NormFits t.floats.size [weight.floats, bias.floats] (narrow ds.dropLast.prod)
        (narrow (ds.getLastD 0)) :=
  normalize_isSome_iff ht hds (fun _ hout rows cols m =>
    ref.layer_norm_f32_isSome_iff ht.data_isSome hout sqrt _ _ rows cols eps m) m got

theorem rms_norm_isSome_iff (ht : IsFloats t n) (hds : t.shape_.Holds (ds.map Nat.cast))
    (sqrt : K → K) (m : Nat → K) (got : Nat) (weight : Tensor) (eps : K) :
    (rms_norm sqrt m got t weight eps).isSome ↔ ds ≠ [] ∧
      NormFits t.floats.size [weight.floats] (narrow ds.dropLast.prod) (narrow (ds.getLastD 0)) :=
  normalize_isSome_iff ht hds (fun _ hout rows cols m =>
    ref.rms_norm_f32_isSome_iff ht.data_isSome hout sqrt _ rows cols eps m) m got

/-! ## Parameters of ones and zeros -/

theorem num_elements_of_one_dim {d : Int} (hlow : -2 ^ 31 ≤ d) (hhigh : d < 2 ^ 31) :
    (TensorShape.of_initializer_list [d]).num_elements = some d := by
  have hholds : (TensorShape.of_initializer_list [d]).Holds [d] :=
    TensorShape.holds_of_initializer_list (by simp [kMaxDim])
  rw [hholds.num_elements (by simp), List.prod_singleton, bmod_of_range (by omega) (by omega)]

/-- A vector of `d` numbers. -/
theorem exists_filled_vector {d : Nat} (hd : d < 2 ^ 31) (device : DeviceType) (got : Nat) (v : K)
    (m : Nat → K) :
    ∃ w, filled_vector d device got v m = some (w, BlockMemory.fill m got d v) ∧
      w.floats = ⟨if d = 0 then none else some got, d⟩ := by
  have hcount := num_elements_of_one_dim (d := d) (by omega) (by omega)
  have hsize : toSize (d : Int) = d := toSize_of_lt (by unfold wordSize; omega)
  have hbytes : Word.mul d (kDTypeSize .kFloat32) = d * 4 :=
    Nat.mod_eq_of_lt (by unfold wordSize; change d * 4 < _; omega)
  unfold filled_vector Tensor.make
  rw [hcount, Option.map_some, Option.bind_some]
  dsimp only
  rw [hcount, Option.bind_some, hsize, hbytes]
  unfold Tensor.floats Floats.allocated
  dsimp only
  by_cases hzero : d = 0
  · subst hzero
    have hnone : BlockMemory.fill m got 0 v = m := funext fun a => if_neg (by omega)
    exact ⟨_, congrArg some (Prod.ext rfl hnone.symm), by simp⟩
  · rw [if_neg hzero, if_neg (by omega), Option.bind_some, Nat.mul_div_cancel _ (by decide),
      if_pos le_rfl, if_neg hzero]
    have hfill : BlockMemory.fill (BlockMemory.fill m got d 0) got d v = BlockMemory.fill m got d v := by
      funext a
      unfold BlockMemory.fill
      split_ifs <;> rfl
    refine ⟨_, congrArg some (Prod.ext rfl hfill), ?_⟩
    dsimp only
    rw [Nat.mul_div_cancel _ (by decide)]

/-- A negative size is a huge `size_t`. -/
theorem filled_vector_of_neg {d : Int} (hlow : -2 ^ 31 ≤ d) (hd : d < 0) (device : DeviceType)
    (got : Nat) (v : K) (m : Nat → K) : filled_vector d device got v m = none := by
  have hcount := num_elements_of_one_dim hlow (by omega)
  have hhuge : 2 ^ 62 ≤ toSize d := by
    unfold toSize wordSize
    omega
  have hbytes : Word.mul (toSize d) (kDTypeSize .kFloat32) < wordSize := Nat.mod_lt _ (by decide)
  unfold filled_vector Tensor.make
  rw [hcount, Option.map_some, Option.bind_some]
  dsimp only
  rw [hcount, Option.bind_some]
  unfold Tensor.floats
  dsimp only
  rw [if_neg (by omega), Option.bind_eq_none_iff]
  intro data _
  unfold wordSize at hbytes
  exact if_neg (by omega)

/-! ## Normalized shapes -/

/-- The parameters are made exactly when the last entry is a size. -/
theorem shape_isSome_iff {α : Type*} {ns : List Int} (hint : ∀ d ∈ ns, -2 ^ 31 ≤ d ∧ d < 2 ^ 31)
    {f : Int → Option α} {P : Nat → Prop} (hneg : ∀ d, -2 ^ 31 ≤ d → d < 0 → f d = none)
    (hpos : ∀ d : Nat, d < 2 ^ 31 → ((f d).isSome ↔ P d)) :
    (ns.getLast?.bind f).isSome ↔ ∃ d : Nat, ns.getLast? = some (d : Int) ∧ P d := by
  cases hlast : ns.getLast? with
  | none => simp
  | some d =>
    obtain ⟨hlow, hhigh⟩ := hint d (List.mem_of_getLast? hlast)
    rw [Option.bind_some]
    by_cases hd : d < 0
    · rw [hneg d hlow hd]
      refine iff_of_false (by simp) ?_
      rintro ⟨k, hk, -⟩
      cases hk
      omega
    · obtain ⟨k, rfl⟩ := Int.eq_ofNat_of_zero_le (not_lt.mp hd)
      rw [hpos k (by omega)]
      constructor
      · intro hP
        exact ⟨k, rfl, hP⟩
      · rintro ⟨k', hk', hP⟩
        obtain rfl : k = k' := by
          have := Option.some.inj hk'
          omega
        exact hP

/-- The last entry of the normalized shape is not negative, and it is 0, or at least the number of
columns. -/
def ShapeFits (size : Nat) (ns : List Int) (rows cols : Int) : Prop :=
  ∃ d : Nat, ns.getLast? = some (d : Int) ∧
    (rows ≤ 0 ∨ cols ≤ 0 ∨
      rows * cols ≤ 2 ^ 31 ∧ rows * cols ≤ size ∧ (d = 0 ∨ cols ≤ d))

theorem normFits_replicate_iff {size d : Nat} {params : List Floats} (hne : params ≠ [])
    (hparams : ∀ w ∈ params, w.size = d ∧ (w.data = none ↔ d = 0)) :
    NormFits size params rows cols ↔ rows ≤ 0 ∨ cols ≤ 0 ∨
      rows * cols ≤ 2 ^ 31 ∧ rows * cols ≤ size ∧ (d = 0 ∨ cols ≤ d) := by
  have hall : (∀ w ∈ params, ParamHas cols w) ↔ (d = 0 ∨ cols ≤ d) := by
    unfold ParamHas
    constructor
    · intro h
      obtain ⟨w, hw⟩ := List.exists_mem_of_ne_nil params hne
      have hhas := h w hw
      rwa [(hparams w hw).1, (hparams w hw).2] at hhas
    · intro h w hw
      rwa [(hparams w hw).1, (hparams w hw).2]
  unfold NormFits
  rw [hall]

theorem layer_norm_shape_isSome_iff (ht : IsFloats t n) (hds : t.shape_.Holds (ds.map Nat.cast))
    (sqrt : K → K) (m : Nat → K) (got_weight got_bias got : Nat) {ns : List Int}
    (hint : ∀ d ∈ ns, -2 ^ 31 ≤ d ∧ d < 2 ^ 31) (eps : K) :
    (layer_norm_shape sqrt m got_weight got_bias got t ns eps).isSome ↔ ds ≠ [] ∧
      ShapeFits t.floats.size ns (narrow ds.dropLast.prod) (narrow (ds.getLastD 0)) := by
  unfold layer_norm_shape ShapeFits
  rw [shape_isSome_iff hint (P := fun d => ds ≠ [] ∧ (_ ∨ _ ∨ _ ∧ _ ∧ (d = 0 ∨ _ ≤ (d : Int))))]
  · constructor
    · rintro ⟨d, hlast, hne, hfit⟩
      exact ⟨hne, d, hlast, hfit⟩
    · rintro ⟨hne, d, hlast, hfit⟩
      exact ⟨d, hlast, hne, hfit⟩
  · intro d hlow hd
    rw [filled_vector_of_neg hlow hd, Option.bind_none]
  · intro d hd
    obtain ⟨weight, hweight, hwfloats⟩ := exists_filled_vector hd t.device_ got_weight (1 : K) m
    obtain ⟨bias, hbias, hbfloats⟩ := exists_filled_vector hd t.device_ got_bias (0 : K)
      (BlockMemory.fill m got_weight d 1)
    rw [hweight, Option.bind_some]
    dsimp only
    rw [hbias, Option.bind_some]
    dsimp only
    rw [layer_norm_isSome_iff ht hds, normFits_replicate_iff (by simp)]
    rw [hwfloats, hbfloats]
    simp

theorem rms_norm_shape_isSome_iff (ht : IsFloats t n) (hds : t.shape_.Holds (ds.map Nat.cast))
    (sqrt : K → K) (m : Nat → K) (got_weight got : Nat) {ns : List Int}
    (hint : ∀ d ∈ ns, -2 ^ 31 ≤ d ∧ d < 2 ^ 31) (eps : K) :
    (rms_norm_shape sqrt m got_weight got t ns eps).isSome ↔ ds ≠ [] ∧
      ShapeFits t.floats.size ns (narrow ds.dropLast.prod) (narrow (ds.getLastD 0)) := by
  unfold rms_norm_shape ShapeFits
  rw [shape_isSome_iff hint (P := fun d => ds ≠ [] ∧ (_ ∨ _ ∨ _ ∧ _ ∧ (d = 0 ∨ _ ≤ (d : Int))))]
  · constructor
    · rintro ⟨d, hlast, hne, hfit⟩
      exact ⟨hne, d, hlast, hfit⟩
    · rintro ⟨hne, d, hlast, hfit⟩
      exact ⟨d, hlast, hne, hfit⟩
  · intro d hlow hd
    rw [filled_vector_of_neg hlow hd, Option.bind_none]
  · intro d hd
    obtain ⟨weight, hweight, hwfloats⟩ := exists_filled_vector hd t.device_ got_weight (1 : K) m
    rw [hweight, Option.bind_some]
    dsimp only
    rw [rms_norm_isSome_iff ht hds, normFits_replicate_iff (by simp)]
    rw [hwfloats]
    simp

/-! ## The mean and the variance over the trailing dimensions -/

/-- The result is an error, or the normalized shape is a suffix of the dimensions, and each group of
elements of this shape is normalized. -/
def IsShapeNorm (m : Nat → ℝ) (t : Tensor) (ds : List Nat) (ns : List Int) (n : Nat) (eps : ℝ)
    (r : NormResult ℝ) : Prop :=
  (∃ e, r = some (.error e)) ∨ ns ≠ [] ∧ ns <:+ ds.map Nat.cast ∧
    ∃ out m', r = some (.ok (out, m')) ∧ out.shape_ = t.shape_ ∧ ∀ i < n, ∃ data,
      t.data = some data ∧ out.floats.read m' (i : Int) = some (mapRows (fun v =>
        rowLayerNorm Real.sqrt eps v (fun _ => 1) (fun _ => 0) ns.prod.toNat) m data
          ns.prod.toNat i)

/-- The buffers that the function gets are apart from each other and from the input. -/
structure PlacesApart (t : Tensor) (d got_weight got_bias got : Nat) : Prop where
  input_weight : ∀ data ∈ t.data, Apart data t.floats.size got_weight d
  input_bias : ∀ data ∈ t.data, Apart data t.floats.size got_bias d
  input_output : ∀ data ∈ t.data, Apart data t.floats.size got t.floats.size
  weight_bias : Apart got_weight d got_bias d
  weight_output : Apart got_weight d got t.floats.size
  bias_output : Apart got_bias d got t.floats.size

theorem rowLayerNorm_congr {v v' weight weight' bias bias' : Nat → K} {n c : Nat} (hc : c < n)
    (hv : ∀ j < n, v j = v' j) (hweight : weight c = weight' c) (hbias : bias c = bias' c) :
    rowLayerNorm sqrt eps v weight bias n c = rowLayerNorm sqrt eps v' weight' bias' n c := by
  have hmean : rowMean v n = rowMean v' n := by
    unfold rowMean
    rw [Finset.sum_congr rfl fun j hj => hv j (Finset.mem_range.mp hj)]
  have hvar : rowVar v n = rowVar v' n := by
    unfold rowVar
    rw [hmean, Finset.sum_congr rfl fun j hj => by rw [hv j (Finset.mem_range.mp hj)]]
  unfold rowLayerNorm
  rw [hmean, hvar, hv c hc, hweight, hbias]

/-- A row of one number is its own mean. -/
theorem rowLayerNorm_one (v : Nat → K) : rowLayerNorm sqrt eps v (fun _ => 1) (fun _ => 0) 1 0 = 0 := by
  unfold rowLayerNorm rowMean
  simp

/-- The memory with the parameters and the cleared output: the parameters are ones and zeros, and
the input is as it was. -/
structure Prepared (m m0 : Nat → K) (data got_weight got_bias got n cols : Nat) : Prop where
  input : ∀ j < n, m0 (data + j) = m (data + j)
  ones : ∀ c < cols, m0 (got_weight + c) = 1
  zeros : ∀ c < cols, m0 (got_bias + c) = 0
  output : ∀ i < n, m0 (got + i) = 0

theorem PlacesApart.prepared {got_weight got_bias data cols : Nat}
    (h : PlacesApart t cols got_weight got_bias got) (hdata : t.data = some data)
    (hsize : t.floats.size = n) (m : Nat → K) :
    Prepared m (BlockMemory.fill (BlockMemory.fill (BlockMemory.fill m got_weight cols 1) got_bias
      cols 0) got n 0) data got_weight got_bias got n cols := by
  have hxw := h.input_weight data hdata
  have hxb := h.input_bias data hdata
  have hxo := h.input_output data hdata
  have hwb := h.weight_bias
  have hwo := h.weight_output
  have hbo := h.bias_output
  unfold Apart at hxw hxb hxo hwb hwo hbo
  constructor
  · intro j hj
    rw [BlockMemory.fill_of_outside _ _ (by omega), BlockMemory.fill_of_outside _ _ (by omega),
      BlockMemory.fill_of_outside _ _ (by omega)]
  · intro c hc
    rw [BlockMemory.fill_of_outside _ _ (by omega), BlockMemory.fill_of_outside _ _ (by omega)]
    exact if_pos (by omega)
  · intro c hc
    rw [BlockMemory.fill_of_outside _ _ (by omega)]
    exact if_pos (by omega)
  · intro i hi
    exact if_pos (by omega)

/-- The loop over the rows, where their number as an `int` may be negative. -/
theorem layer_norm_f32_rows {rows cols p q : Nat} {R : Int} (hrows : rows = R.toNat)
    (h : RowsFit x out p q rows cols) (hweight : ParamFits weight q (rows * cols) cols)
    (hbias : ParamFits bias q (rows * cols) cols) (sqrt : K → K) (eps : K) (m : Nat → K) :
    ref.layer_norm_f32 sqrt x weight bias out R cols eps m =
      some (overwrite m q (rows * cols) (mapRows (fun v => rowLayerNorm sqrt eps v
        (paramNumbers weight 1 m) (paramNumbers bias 0 m) cols) m p cols)) := by
  by_cases hnone : R ≤ 0
  · unfold ref.layer_norm_f32
    rw [forRows_of_nonpos hnone, hrows, Int.toNat_of_nonpos hnone, Nat.zero_mul, overwrite_zero]
  · have hcast : R = (rows : Int) := by omega
    rw [hcast]
    exact ref.layer_norm_f32_eq h hweight hbias sqrt eps m

/-- What the function makes of a tensor when the last entry of the normalized shape is the number of
its columns: the rows that the loop goes through are normalized, and the others are zeros. -/
theorem exists_layer_norm_shape {rows cols got_weight got_bias data : Nat} {ns : List Int}
    (ht : IsFloats t n) (hds : t.shape_.Holds (ds.map Nat.cast)) (hne : ds ≠ [])
    (hlast : ns.getLast? = some (cols : Int)) (hcols : ds.getLastD 0 = cols) (hpos : 0 < cols)
    (hint : cols < 2 ^ 31) (hrows : rows = (narrow ds.dropLast.prod).toNat)
    (hlt : rows * cols ≤ 2 ^ 31) (hrowsn : rows * cols ≤ n) (hn : 0 < n) (hsize : t.floats.size = n)
    (hdata : t.data = some data) (hapart : PlacesApart t cols got_weight got_bias got)
    (sqrt : K → K) (m : Nat → K) (eps : K) :
    ∃ out m', layer_norm_shape sqrt m got_weight got_bias got t ns eps = some (.ok (out, m')) ∧
      out.shape_ = t.shape_ ∧ ∀ i < n, out.floats.read m' (i : Int) =
        some (if i < rows * cols then mapRows (fun v =>
          rowLayerNorm sqrt eps v (fun _ => 1) (fun _ => 0) cols) m data cols i else 0) := by
  obtain ⟨weight, hweight, hwfloats⟩ := exists_filled_vector hint t.device_ got_weight (1 : K) m
  obtain ⟨bias, hbias, hbfloats⟩ := exists_filled_vector hint t.device_ got_bias (0 : K)
    (BlockMemory.fill m got_weight cols 1)
  obtain ⟨out, hshape, houtsize, houtdata, heq⟩ := exists_normalize (K := K) ht hds hne got
  have hout := houtdata (by omega)
  rw [if_neg (by omega)] at hwfloats hbfloats
  have hprepared := hapart.prepared hdata hsize m
  have hcleared : ∀ m : Nat → K, out.floats.allocated m = BlockMemory.fill m got n 0 := by
    intro m
    unfold Floats.allocated
    rw [hout, houtsize, hsize]
  have hxo := hapart.input_output data hdata
  have hwo := hapart.weight_output
  have hbo := hapart.bias_output
  rw [hsize] at hxo hwo hbo
  have hbefore : ∀ p k : Nat, Apart p k got n → Apart p k got (rows * cols) := by
    intro p k h
    unfold Apart at h ⊢
    omega
  have hcolsint : narrow ((ds.getLastD 0 : Nat) : Int) = cols := by
    rw [hcols, narrow_of_range (by omega) (by omega)]
  have hrowsfit : RowsFit t.floats out.floats data got rows cols := by
    refine ⟨hlt, hdata, hout, by omega, by omega, Or.inr ?_⟩
    unfold Apart at hxo ⊢
    omega
  have hweightfit : ParamFits weight.floats got (rows * cols) cols := by
    rw [hwfloats]
    rintro _ ⟨⟩
    exact ⟨le_rfl, hbefore _ _ hwo⟩
  have hbiasfit : ParamFits bias.floats got (rows * cols) cols := by
    rw [hbfloats]
    rintro _ ⟨⟩
    exact ⟨le_rfl, hbefore _ _ hbo⟩
  have hresult := layer_norm_f32_rows hrows hrowsfit hweightfit hbiasfit sqrt eps
    (BlockMemory.fill (BlockMemory.fill (BlockMemory.fill m got_weight cols 1) got_bias
      cols 0) got n 0)
  have hok : layer_norm_shape sqrt m got_weight got_bias got t ns eps =
      normalize (fun out rows cols => ref.layer_norm_f32 sqrt t.floats weight.floats bias.floats
        out rows cols eps) (BlockMemory.fill (BlockMemory.fill m got_weight cols 1) got_bias cols 0)
        got t := by
    unfold layer_norm_shape layer_norm
    rw [hlast, Option.bind_some, hweight, Option.bind_some]
    dsimp only
    rw [hbias, Option.bind_some]
  rw [heq, hcolsint, hcleared, hresult, Option.map_some] at hok
  refine ⟨out, _, hok, hshape, fun i hi => ?_⟩
  rw [Floats.read_eq hout _ (by omega)]
  split_ifs with hi'
  · have hmod := Nat.mod_lt i hpos
    have hdiv : i / cols < rows := Nat.div_lt_of_lt_mul (by rwa [Nat.mul_comm])
    have hrow := RowMajor.row_end_le cols hdiv
    rw [overwrite_inside _ _ _ hi']
    unfold mapRows
    refine congrArg some (rowLayerNorm_congr hmod (fun j hj => hprepared.input _ (by omega)) ?_ ?_)
    · unfold paramNumbers
      rw [hwfloats]
      exact hprepared.ones _ hmod
    · unfold paramNumbers
      rw [hbfloats]
      exact hprepared.zeros _ hmod
  · rw [overwrite_outside _ _ (by omega), hprepared.output i hi]

/-- The last `k` numbers of a group are 1, and the others are 0. -/
theorem rowLayerNorm_indicator_ne_zero {v : Nat → ℝ} {G k : Nat} {eps : ℝ} (heps : 0 < eps)
    (hk : 0 < k) (hkG : k < G) (hv : ∀ j < G, v j = if G - k ≤ j then 1 else 0) :
    rowLayerNorm Real.sqrt eps v (fun _ => 1) (fun _ => 0) G (G - 1) ≠ 0 := by
  have hG : (0 : ℝ) < G := by exact_mod_cast (by omega : 0 < G)
  have hsum : ∑ j ∈ Finset.range G, v j = k := by
    have hfilter : (Finset.range G).filter (G - k ≤ ·) = Finset.Ico (G - k) G := by
      ext j
      simp only [Finset.mem_filter, Finset.mem_range, Finset.mem_Ico]
      omega
    rw [Finset.sum_congr rfl fun j hj => hv j (Finset.mem_range.mp hj), Finset.sum_ite,
      Finset.sum_const_zero, add_zero, Finset.sum_const, hfilter, Nat.card_Ico, nsmul_one]
    congr 1
    omega
  have hlast : v (G - 1) = 1 := by
    rw [hv _ (by omega), if_pos (by omega)]
  have hvar : 0 ≤ rowVar v G :=
    div_nonneg (Finset.sum_nonneg fun j _ => mul_self_nonneg _) hG.le
  have hdiff : v (G - 1) - rowMean v G ≠ 0 := by
    unfold rowMean
    rw [hsum, hlast, sub_ne_zero]
    have hlt : (k : ℝ) / G < 1 := by
      rw [div_lt_one hG]
      exact_mod_cast hkG
    exact hlt.ne'
  have hsqrt : Real.sqrt (rowVar v G + eps) ≠ 0 := (Real.sqrt_pos.mpr (by linarith)).ne'
  unfold rowLayerNorm
  rw [mul_one, add_zero]
  exact mul_ne_zero hdiff (one_div_ne_zero hsqrt)

/-- A row of equal numbers. -/
theorem rowLayerNorm_const {v : Nat → ℝ} {C c : Nat} {eps : ℝ} (hc : c < C)
    (hv : ∀ j < C, v j = 1) :
    rowLayerNorm Real.sqrt eps v (fun _ => 1) (fun _ => 0) C c = 0 := by
  have hC : (C : ℝ) ≠ 0 := by exact_mod_cast (by omega : C ≠ 0)
  have hmean : rowMean v C = 1 := by
    unfold rowMean
    rw [Finset.sum_congr rfl fun j hj => hv j (Finset.mem_range.mp hj), Finset.sum_const,
      Finset.card_range, nsmul_one, div_self hC]
  unfold rowLayerNorm
  rw [hmean, hv c hc]
  simp

/-- The place of the last element in its group. -/
theorem last_of_group {G : Nat} (hn : 0 < n) (hG : G ∣ n) :
    (n - 1) % G = G - 1 ∧ (n - 1) / G * G = n - G := by
  obtain ⟨q, rfl⟩ := hG
  obtain ⟨q, rfl⟩ := Nat.exists_eq_succ_of_ne_zero (Nat.pos_of_mul_pos_left hn).ne'
  have hpos : 0 < G := Nat.pos_of_mul_pos_right hn
  have hlast : G * (q + 1) - 1 = G * q + (G - 1) := by
    rw [Nat.mul_succ]
    omega
  rw [Nat.succ_eq_add_one, hlast]
  refine ⟨?_, ?_⟩
  · rw [Nat.mul_add_mod, Nat.mod_eq_of_lt (by omega)]
  · rw [Nat.mul_add_div hpos, Nat.div_eq_of_lt (by omega), Nat.mul_succ, Nat.add_sub_cancel,
      Nat.add_zero, Nat.mul_comm]

/-- When the groups that the function looks at are those of the normalized shape. -/
theorem shape_norm_values_iff {rows cols G : Nat} (data : Nat) {eps : ℝ} (heps : 0 < eps) (hn : 0 < n)
    (hcols : 0 < cols) (hG : cols ∣ G) (hGn : G ∣ n) (hrows : rows * cols ≤ n) :
    (∀ m : Nat → ℝ, ∀ i < n,
      (if i < rows * cols then mapRows (fun v =>
        rowLayerNorm Real.sqrt eps v (fun _ => 1) (fun _ => 0) cols) m data cols i else 0) =
      mapRows (fun v => rowLayerNorm Real.sqrt eps v (fun _ => 1) (fun _ => 0) G) m data G i) ↔
      G = 1 ∨ G = cols ∧ rows * cols = n := by
  have hGpos : 0 < G := Nat.pos_of_dvd_of_pos hGn hn
  have hcolsG := Nat.le_of_dvd hGpos hG
  have hGle := Nat.le_of_dvd hn hGn
  -- the last element, in a memory whose last `k` elements are 1
  have hspec : ∀ k, 0 < k → k < G →
      mapRows (fun v => rowLayerNorm Real.sqrt eps v (fun _ => 1) (fun _ => 0) G)
        (fun a => if data + (n - k) ≤ a then 1 else 0) data G (n - 1) ≠ 0 := by
    intro k hk hkG
    obtain ⟨hmod, hdiv⟩ := last_of_group hn hGn
    unfold mapRows
    rw [hmod, hdiv]
    refine rowLayerNorm_indicator_ne_zero heps hk hkG fun j hj => ?_
    dsimp only
    split_ifs <;> first | rfl | omega
  constructor
  · intro h
    by_cases hone : G = 1
    · exact Or.inl hone
    have hall : rows * cols = n := by
      by_contra hless
      have hlast := h (fun a => if data + (n - 1) ≤ a then 1 else 0) (n - 1) (by omega)
      rw [if_neg (by omega)] at hlast
      exact hspec 1 Nat.one_pos (by omega) hlast.symm
    refine Or.inr ⟨?_, hall⟩
    by_contra hne
    have hlast := h (fun a => if data + (n - cols) ≤ a then 1 else 0) (n - 1) (by omega)
    have hrow : mapRows (fun v => rowLayerNorm Real.sqrt eps v (fun _ => 1) (fun _ => 0) cols)
        (fun a => if data + (n - cols) ≤ a then 1 else 0) data cols (n - 1) = 0 := by
      obtain ⟨hmod, hdiv⟩ := last_of_group hn (hG.trans hGn)
      unfold mapRows
      rw [hmod, hdiv]
      exact rowLayerNorm_const (by omega) fun j hj => if_pos (by omega)
    rw [if_pos (by omega), hrow] at hlast
    exact hspec cols hcols (by omega) hlast.symm
  · rintro (rfl | ⟨rfl, hall⟩) m i hi
    · obtain rfl : cols = 1 := by omega
      unfold mapRows
      rw [Nat.mod_one]
      dsimp only
      rw [rowLayerNorm_one]
      split_ifs <;> rfl
    · rw [if_pos (by omega)]

theorem layer_norm_shape_ok (ht : IsFloats t n) (hds : t.shape_.Holds (ds.map Nat.cast))
    {m : Nat → K} {got_weight got_bias : Nat} {ns : List Int}
    {r : Except String (Tensor × (Nat → K))} (hne : ds ≠ [])
    (h : layer_norm_shape sqrt m got_weight got_bias got t ns eps = some r) :
    ∃ out m', r = .ok (out, m') ∧ out.shape_ = t.shape_ ∧ out.floats.size = t.floats.size := by
  obtain ⟨out, hshape, hsize, -, heq⟩ := exists_normalize (K := K) ht hds hne got
  unfold layer_norm_shape layer_norm at h
  obtain ⟨d, -, h⟩ := Option.bind_eq_some_iff.mp h
  obtain ⟨weight, -, h⟩ := Option.bind_eq_some_iff.mp h
  obtain ⟨bias, -, h⟩ := Option.bind_eq_some_iff.mp h
  dsimp only at h
  rw [heq] at h
  obtain ⟨m', -, rfl⟩ := Option.map_eq_some_iff.mp h
  exact ⟨out, m', rfl, hshape, hsize⟩

/-- The numbers of rows that the loop has and that the tensor has. -/
theorem rows_mul_cols_le (R cols : Nat) : (narrow R).toNat * cols ≤ R * cols := by
  apply Nat.mul_le_mul_right
  have := narrow_le (Int.natCast_nonneg R)
  omega

theorem rows_le (a : Int) : (narrow a).toNat ≤ 2 ^ 31 := by
  have hlt := (narrow_range a).2
  generalize narrow a = b at hlt ⊢
  omega

theorem toNat_mul_le {a : Int} {c k : Nat} (h : a ≤ 0 ∨ a * c ≤ k) : a.toNat * c ≤ k := by
  by_cases hneg : a ≤ 0
  · rw [Int.toNat_of_nonpos hneg, Nat.zero_mul]
    exact Nat.zero_le k
  · have hle := h.resolve_left hneg
    rw [← Int.toNat_of_nonneg (not_le.mp hneg).le] at hle
    exact_mod_cast hle

/-- Where the groups are the last dimension, the loop has all rows. -/
theorem all_rows_of_groups {R G cols : Nat} (hn : n = R * cols) (hpos : 0 < cols)
    (hfit : G = 1 ∨ G = cols ∧ n ≤ 2 ^ 31) : G = 1 ∨ G = cols ∧ (narrow R).toNat * cols = n := by
  rcases hfit with hone | ⟨hcolumns, hle⟩
  · exact Or.inl hone
  by_cases hsingle : cols = 1
  · exact Or.inl (hcolumns.trans hsingle)
  · have hR : R * 2 ≤ n := by
      rw [hn]
      exact Nat.mul_le_mul_left _ (by omega)
    rw [narrow_of_range (by omega) (by omega), Int.toNat_natCast]
    exact Or.inr ⟨hcolumns, hn.symm⟩

/-- A tensor without elements. -/
theorem isShapeNorm_of_empty {pre mid : List Nat} {cols got_weight got_bias : Nat} {eps : ℝ}
    (ht : IsFloats t n) (hds : t.shape_.Holds ((pre ++ mid ++ [cols]).map Nat.cast))
    (hn : n = (pre ++ mid).prod * cols) (hcols : cols < 2 ^ 31)
    (hint : ∀ d ∈ (mid ++ [cols]).map (Nat.cast (R := Int)), -2 ^ 31 ≤ d ∧ d < 2 ^ 31)
    (hzero : n = 0) (m : Nat → ℝ) :
    IsShapeNorm m t (pre ++ mid ++ [cols]) ((mid ++ [cols]).map Nat.cast) n eps
      (layer_norm_shape Real.sqrt m got_weight got_bias got t ((mid ++ [cols]).map Nat.cast) eps) := by
  have hne : pre ++ mid ++ [cols] ≠ [] := by simp
  have hdims : (pre ++ mid ++ [cols]).getLastD 0 = cols := by simp
  have hlead : (pre ++ mid ++ [cols]).dropLast.prod = (pre ++ mid).prod := by simp
  have hfit : narrow (pre ++ mid).prod ≤ 0 ∨ (cols : Int) ≤ 0 := by
    rcases Nat.mul_eq_zero.mp (hn.symm.trans hzero) with hrows | hcols
    · left
      rw [hrows]
      decide
    · right
      rw [hcols]
      decide
  have hsome := layer_norm_shape_isSome_iff ht hds Real.sqrt m got_weight got_bias got hint eps
  have hcolsn : narrow ((cols : Nat) : Int) = cols := narrow_of_range (by omega) (by omega)
  rw [hdims, hlead, hcolsn] at hsome
  obtain ⟨r, hr⟩ := Option.isSome_iff_exists.mp (hsome.mpr
    ⟨hne, cols, by simp, hfit.imp_right Or.inl⟩)
  obtain ⟨out, m', rfl, hshape, -⟩ := layer_norm_shape_ok ht hds hne hr
  exact Or.inr ⟨by simp, ⟨pre.map Nat.cast, by simp⟩, out, m', hr, hshape,
    fun i hi => absurd hi (by omega)⟩

/-- A normalized shape of the last dimensions. -/
theorem suffix_shape_norm_iff {pre mid : List Nat} {cols got_weight got_bias : Nat} {eps : ℝ}
    (ht : IsFloats t n) (hds : t.shape_.Holds ((pre ++ mid ++ [cols]).map Nat.cast))
    (hn : n = (pre ++ mid).prod * cols)
    (hint : ∀ d ∈ (mid ++ [cols]).map (Nat.cast (R := Int)), -2 ^ 31 ≤ d ∧ d < 2 ^ 31)
    (heps : 0 < eps) (hapart : PlacesApart t cols got_weight got_bias got) :
    (∀ m, IsShapeNorm m t (pre ++ mid ++ [cols]) ((mid ++ [cols]).map Nat.cast) n eps
      (layer_norm_shape Real.sqrt m got_weight got_bias got t ((mid ++ [cols]).map Nat.cast) eps)) ↔
      n = 0 ∨ n * 4 < wordSize ∧ (mid.prod * cols = 1 ∨ mid.prod * cols = cols ∧ n ≤ 2 ^ 31) := by
  let ns : List Int := (mid ++ [cols]).map Nat.cast
  have hne : pre ++ mid ++ [cols] ≠ [] := by simp
  have hnsne : ns ≠ [] := by simp [ns]
  have hsuffix : ns <:+ (pre ++ mid ++ [cols]).map Nat.cast :=
    ⟨pre.map Nat.cast, by simp [ns]⟩
  have hlast : ns.getLast? = some (cols : Int) := by simp [ns]
  have hdims : (pre ++ mid ++ [cols]).getLastD 0 = cols := by simp
  have hlead : (pre ++ mid ++ [cols]).dropLast.prod = (pre ++ mid).prod := by simp
  have hcolsint : cols < 2 ^ 31 := by
    have := (hint cols (by simp)).2
    omega
  have hgroup : ns.prod.toNat = mid.prod * cols := by
    have hcast : ns.prod = ((mid ++ [cols]).prod : Nat) := (Nat.cast_list_prod _).symm
    rw [hcast, Int.toNat_natCast, List.prod_append, List.prod_singleton]
  have hsome := fun m : Nat → ℝ =>
    layer_norm_shape_isSome_iff ht hds Real.sqrt m got_weight got_bias got hint eps
  have hcolsn : narrow ((cols : Nat) : Int) = cols := narrow_of_range (by omega) (by omega)
  rw [hdims, hlead, hcolsn] at hsome
  have hrowsle := rows_mul_cols_le (pre ++ mid).prod cols
  rw [← hn] at hrowsle
  by_cases hzero : n = 0
  · exact iff_of_true (isShapeNorm_of_empty ht hds hn hcolsint hint hzero) (Or.inl hzero)
  have hpos : 0 < cols := by
    by_contra hnone
    obtain rfl : cols = 0 := by omega
    exact hzero (by rw [hn, Nat.mul_zero])
  have hdvd : mid.prod * cols ∣ n := by
    rw [hn, List.prod_append, Nat.mul_assoc]
    exact Nat.dvd_mul_left _ _
  -- the values that the function gives, and those of the normalized shape
  have hvalues := fun data : Nat => shape_norm_values_iff (n := n) data heps (by omega)
    hpos (Nat.dvd_mul_left cols mid.prod) hdvd hrowsle
  rw [or_iff_right hzero]
  constructor
  · intro h
    have hright : ∀ m, ∃ out m', layer_norm_shape Real.sqrt m got_weight got_bias got t ns eps =
        some (.ok (out, m')) ∧ out.floats.size = t.floats.size ∧ ∀ i < n, ∃ data,
        t.data = some data ∧ out.floats.read m' (i : Int) = some (mapRows (fun v =>
          rowLayerNorm Real.sqrt eps v (fun _ => 1) (fun _ => 0) ns.prod.toNat) m data
            ns.prod.toNat i) := by
      intro m
      rcases h m with ⟨e, he⟩ | ⟨-, -, out, m', hr, -, hall⟩
      · obtain ⟨_, _, hok, -⟩ := layer_norm_shape_ok ht hds hne he
        cases hok
      · obtain ⟨_, _, hok, -, hsize⟩ := layer_norm_shape_ok ht hds hne hr
        cases hok
        exact ⟨out, m', hr, hsize, hall⟩
    obtain ⟨out, m', hr, houtsize, hall⟩ := hright 0
    obtain ⟨data, hdata, hread⟩ := hall (n - 1) (by omega)
    have hsize : t.floats.size = n := by
      have := ((Floats.read_isSome_iff _ _ _).mp (Option.isSome_of_eq_some hread)).2.2
      have := ht.size_le
      omega
    have hlt : (narrow (pre ++ mid).prod).toNat * cols ≤ 2 ^ 31 := by
      obtain ⟨-, d, -, hfit⟩ := (hsome 0).mp (Option.isSome_of_eq_some hr)
      rcases hfit with hnone | hnone | ⟨hlt, -⟩
      · exact toNat_mul_le (Or.inl hnone)
      · omega
      · exact toNat_mul_le (Or.inr (by exact_mod_cast hlt))
    refine ⟨ht.size_eq_iff.mp hsize, ?_⟩
    have hvalue := (hvalues data).mp fun m i hi => by
      obtain ⟨out, m', hr, -, hread⟩ := exists_layer_norm_shape ht hds hne hlast hdims hpos hcolsint
        (by rw [hlead]) hlt hrowsle (by omega) hsize hdata hapart Real.sqrt m eps
      obtain ⟨out', m'', hr', -, hall⟩ := hright m
      obtain ⟨rfl, rfl⟩ : out' = out ∧ m'' = m' := by
        rw [hr] at hr'
        cases hr'
        exact ⟨rfl, rfl⟩
      obtain ⟨data', hdata', hspec⟩ := hall i hi
      obtain rfl : data' = data := Option.some.inj (hdata'.symm.trans hdata)
      rw [hread i hi, Option.some.injEq] at hspec
      rw [hspec, hgroup]
    rcases hvalue with hone | ⟨hcolumns, hall⟩
    · exact Or.inl hone
    · exact Or.inr ⟨hcolumns, by rw [← hall]; exact hlt⟩
  · rintro ⟨hword, hfit⟩ m
    have hsize := ht.size_eq_iff.mpr hword
    obtain ⟨data, hdata⟩ := ht.exists_data (by omega)
    have hlt : (narrow (pre ++ mid).prod).toNat * cols ≤ 2 ^ 31 := by
      rcases hfit with hone | ⟨-, hle⟩
      · have hcols : cols = 1 := Nat.eq_one_of_mul_eq_one_left hone
        rw [hcols, Nat.mul_one]
        exact rows_le _
      · exact hrowsle.trans hle
    have hgroups := all_rows_of_groups hn hpos hfit
    obtain ⟨out, m', hr, hshape, hread⟩ := exists_layer_norm_shape ht hds hne hlast hdims hpos
      hcolsint (by rw [hlead]) hlt hrowsle (by omega) hsize hdata hapart Real.sqrt m eps
    refine Or.inr ⟨hnsne, hsuffix, out, m', hr, hshape, fun i hi => ⟨data, hdata, ?_⟩⟩
    rw [hread i hi, hgroup, (hvalues data).mpr hgroups m i hi]

theorem exists_suffix {ns : List Int} (hne : ns ≠ []) (h : ns <:+ ds.map Nat.cast) :
    ∃ (pre mid : List Nat) (cols : Nat), ds = pre ++ mid ++ [cols] ∧
      ns = (mid ++ [cols]).map Nat.cast := by
  obtain ⟨es, ⟨pre, rfl⟩, rfl⟩ := List.suffix_map_iff.mp h
  rcases List.eq_nil_or_concat es with rfl | ⟨mid, cols, rfl⟩
  · exact absurd rfl hne
  · exact ⟨pre, mid, cols, by simp, by simp⟩

/-- The mean and the variance are those of the trailing dimensions exactly when the normalized shape
is a suffix of the dimensions, and it has the elements of the last dimension, or groups of one
element, and the sizes fit. -/
theorem shape_norm_iff {got_weight got_bias : Nat} {ns : List Int} {eps : ℝ} (ht : IsFloats t n)
    (hds : t.shape_.Holds (ds.map Nat.cast)) (hn : ds ≠ [] → n = ds.prod)
    (hint : ∀ d ∈ ns, -2 ^ 31 ≤ d ∧ d < 2 ^ 31) (heps : 0 < eps)
    (hapart : PlacesApart t (ns.getLastD 0).toNat got_weight got_bias got) :
    (∀ m, IsShapeNorm m t ds ns n eps
      (layer_norm_shape Real.sqrt m got_weight got_bias got t ns eps)) ↔
      ns ≠ [] ∧ ns <:+ ds.map Nat.cast ∧
        (n = 0 ∨ n * 4 < wordSize ∧ (ns.prod = 1 ∨ ns.prod = ns.getLastD 0 ∧ n ≤ 2 ^ 31)) := by
  by_cases hsuffix : ns ≠ [] ∧ ns <:+ ds.map Nat.cast
  · obtain ⟨hne, hsuf⟩ := hsuffix
    obtain ⟨pre, mid, cols, rfl, rfl⟩ := exists_suffix hne hsuf
    have hlast : ((mid ++ [cols]).map (Nat.cast (R := Int))).getLastD 0 = cols := by simp
    have hprod : ((mid ++ [cols]).map (Nat.cast (R := Int))).prod = (mid.prod * cols : Nat) := by
      rw [← Nat.cast_list_prod, List.prod_append, List.prod_singleton]
    rw [hlast, Int.toNat_natCast] at hapart
    rw [suffix_shape_norm_iff ht hds (by rw [hn (by simp), List.prod_append, List.prod_singleton])
      hint heps hapart, hlast, hprod, and_iff_right hne, and_iff_right hsuf]
    norm_cast
  · refine iff_of_false (fun h => ?_) fun h => hsuffix ⟨h.1, h.2.1⟩
    rcases h 0 with ⟨e, he⟩ | ⟨hne, hsuf, -⟩
    · have hdsne : ds ≠ [] := ((layer_norm_shape_isSome_iff ht hds Real.sqrt 0 got_weight got_bias
        got hint eps).mp (Option.isSome_of_eq_some he)).1
      obtain ⟨_, _, hok, -⟩ := layer_norm_shape_ok ht hds hdsne he
      cases hok
    · exact hsuffix ⟨hne, hsuf⟩

/-- The functions with given parameters stay in the buffers exactly when the parameters are null or
have a number for each column, those with a normalized shape exactly when its last entry is 0 or has
them; and the groups of the normalized shape are normalized exactly when they are the last dimension,
or have one element each. -/
theorem norms_are_right_iff {got_weight got_bias : Nat} {ns : List Int} {eps : ℝ}
    (ht : IsFloats t n) (hds : t.shape_.Holds (ds.map Nat.cast)) (hn : ds ≠ [] → n = ds.prod)
    (hint : ∀ d ∈ ns, -2 ^ 31 ≤ d ∧ d < 2 ^ 31) (heps : 0 < eps)
    (hapart : PlacesApart t (ns.getLastD 0).toNat got_weight got_bias got) (m : Nat → ℝ)
    (weight bias : Tensor) :
    ((layer_norm Real.sqrt m got t weight bias eps).isSome ↔ ds ≠ [] ∧
      NormFits t.floats.size [weight.floats, bias.floats] (narrow ds.dropLast.prod)
        (narrow (ds.getLastD 0))) ∧
    ((rms_norm Real.sqrt m got t weight eps).isSome ↔ ds ≠ [] ∧
      NormFits t.floats.size [weight.floats] (narrow ds.dropLast.prod) (narrow (ds.getLastD 0))) ∧
    ((layer_norm_shape Real.sqrt m got_weight got_bias got t ns eps).isSome ↔ ds ≠ [] ∧
      ShapeFits t.floats.size ns (narrow ds.dropLast.prod) (narrow (ds.getLastD 0))) ∧
    ((rms_norm_shape Real.sqrt m got_weight got t ns eps).isSome ↔ ds ≠ [] ∧
      ShapeFits t.floats.size ns (narrow ds.dropLast.prod) (narrow (ds.getLastD 0))) ∧
    ((∀ m, IsShapeNorm m t ds ns n eps
      (layer_norm_shape Real.sqrt m got_weight got_bias got t ns eps)) ↔
      ns ≠ [] ∧ ns <:+ ds.map Nat.cast ∧
        (n = 0 ∨ n * 4 < wordSize ∧ (ns.prod = 1 ∨ ns.prod = ns.getLastD 0 ∧ n ≤ 2 ^ 31))) :=
  ⟨layer_norm_isSome_iff ht hds Real.sqrt m got weight bias eps,
    rms_norm_isSome_iff ht hds Real.sqrt m got weight eps,
    layer_norm_shape_isSome_iff ht hds Real.sqrt m got_weight got_bias got hint eps,
    rms_norm_shape_isSome_iff ht hds Real.sqrt m got_weight got hint eps,
    shape_norm_iff ht hds hn hint heps hapart⟩

theorem places_apart_floatGrid : PlacesApart floatGrid 3 200 300 400 := by
  constructor <;> (try rintro _ ⟨⟩) <;> unfold Apart <;> decide

/-- The rows of the grid. -/
theorem rows_of_a_grid_are_normalized :
    IsShapeNorm Nat.cast floatGrid [2, 3] [3] 6 1
      (layer_norm_shape Real.sqrt Nat.cast 200 300 400 floatGrid [3] 1) :=
  have hint : ∀ d ∈ [(3 : Int)], -2 ^ 31 ≤ d ∧ d < 2 ^ 31 := by simp
  (norms_are_right_iff isFloats_floatGrid fits_floatGrid.holds (fun _ => rfl) hint one_pos
    places_apart_floatGrid Nat.cast floatGrid floatGrid).2.2.2.2.mpr
    ⟨by simp, ⟨[2], rfl⟩, Or.inr ⟨by decide, Or.inr ⟨by simp, by decide⟩⟩⟩ Nat.cast

/-- The whole grid: its rows are normalized instead. -/
theorem a_grid_is_normalized_by_rows :
    ¬ ∀ (m : Nat → ℝ) (t : Tensor) (ds : List Nat) (n : Nat) (ns : List Int)
      (got_weight got_bias got : Nat),
      IsFloats t n → t.shape_.Holds (ds.map Nat.cast) → n = ds.prod →
      (∀ d ∈ ns, -2 ^ 31 ≤ d ∧ d < 2 ^ 31) →
      PlacesApart t (ns.getLastD 0).toNat got_weight got_bias got →
      IsShapeNorm m t ds ns n 1 (layer_norm_shape Real.sqrt m got_weight got_bias got t ns 1) := by
  intro h
  have hint : ∀ d ∈ [(2 : Int), 3], -2 ^ 31 ≤ d ∧ d < 2 ^ 31 := by simp
  have hiff := shape_norm_iff isFloats_floatGrid fits_floatGrid.holds (fun _ => rfl) hint one_pos
    places_apart_floatGrid
  obtain ⟨-, -, hfit⟩ := hiff.mp fun m => h m _ _ _ _ _ _ _ isFloats_floatGrid
    fits_floatGrid.holds rfl hint places_apart_floatGrid
  revert hfit
  decide

end sci.int64.math
