-- RMS and layer normalization on the device (cuda/kernels/layernorm.cu, 31-134): one block for each
-- row. The sums of a row go through its shared memory, and layer normalization takes the variance from
-- the sum of the squares.
import Scicompute.RowKernels

namespace sci.cuda.kernels

open Simt Simt.Thread Word int64.math

variable {K : Type} [Field K]

def rms_norm_kernel (rsqrtf : K → K) (out inp : Nat) (weight : Option Nat) (rows cols : Int) (eps : K)
    (g : Simt.Launch) (blockIdx threadIdx : Nat) : Simt.Thread Loc K Unit :=
  if rows ≤ blockIdx then done () else do
    let sum_sq ← row_loop cols g threadIdx (fun i sum_sq => do
      let val ← load_element inp blockIdx cols i
      return sum_sq + val * val) 0
    let sum_sq ← warp_reduce (· + ·) sum_sq
    lane_store (Loc.shared blockIdx) threadIdx sum_sq
    barrier
    when (threadIdx = 0) do
      let num_warps := (g.blockDim + 32 - 1) / 32
      let sum ← serial_reduce (· + ·) (Loc.shared blockIdx) 0 num_warps 0
      store (.shared blockIdx 0) (rsqrtf (sum / cols + eps))
    barrier
    let rms ← load (.shared blockIdx 0)
    row_loop cols g threadIdx (fun i _ => do
      let w ← load_param weight 1 i
      let x ← load_element inp blockIdx cols i
      store_element out blockIdx cols i (x * rms * w)) ()

def launch_rms_norm (rsqrtf : K → K) (out inp : Nat) (weight : Option Nat) (rows cols : Nat) (eps : K) :
    KernelLaunch K :=
  ⟨⟨rows, 256⟩, (256 + 32 - 1) / 32 * 4, rms_norm_kernel rsqrtf out inp weight rows cols eps⟩

/-- `for (int i = 0; i < blockDim.x; i++) { total += s_mean[i]; total_sq += s_var[i]; }` -/
def layer_norm_totals (g : Simt.Launch) (blockIdx : Nat) : Simt.Thread Loc K (K × K) :=
  loop (fun i => decide (i < g.blockDim)) (· + 1)
    (fun i totals => do
      let mean ← load (Loc.shared blockIdx i)
      let var ← load (Loc.shared blockIdx (g.blockDim + i))
      return (totals.1 + mean, totals.2 + var))
    (2 ^ 32) 0 (0, 0)

/-- `s_mean` begins at the element 0 of the shared memory, and `s_var` at the element `blockDim.x`. -/
def layer_norm_kernel (rsqrtf : K → K) (out inp : Nat) (weight bias : Option Nat) (rows cols : Int)
    (eps : K) (g : Simt.Launch) (blockIdx threadIdx : Nat) : Simt.Thread Loc K Unit :=
  if rows ≤ blockIdx then done () else do
    let (sum, sum_sq) ← row_loop cols g threadIdx (fun i sums => do
      let val ← load_element inp blockIdx cols i
      return (sums.1 + val, sums.2 + val * val)) (0, 0)
    store (.shared blockIdx threadIdx) sum
    store (.shared blockIdx (g.blockDim + threadIdx)) sum_sq
    barrier
    when (threadIdx = 0) do
      let (total, total_sq) ← layer_norm_totals g blockIdx
      let mean := total / cols
      let var := total_sq / cols - mean * mean
      store (.shared blockIdx 0) mean
      store (.shared blockIdx g.blockDim) (rsqrtf (var + eps))
    barrier
    let mean ← load (.shared blockIdx 0)
    let inv_std ← load (.shared blockIdx g.blockDim)
    row_loop cols g threadIdx (fun i _ => do
      let x ← load_element inp blockIdx cols i
      let normalized := (x - mean) * inv_std
      let w ← load_param weight 1 i
      let b ← load_param bias 0 i
      store_element out blockIdx cols i (normalized * w + b)) ()

def launch_layer_norm (rsqrtf : K → K) (out inp : Nat) (weight bias : Option Nat) (rows cols : Nat)
    (eps : K) : KernelLaunch K :=
  ⟨⟨rows, 256⟩, 2 * 256 * 4, layer_norm_kernel rsqrtf out inp weight bias rows cols eps⟩

/-- All schedules end, without a race and in the shared memory of the launch, with the memory that the
function on the host computes. -/
def Matches (c : KernelLaunch K) (ref : (Nat → K) → Option (Nat → K)) (m : Loc → K) : Prop :=
  ∃ s, Ends c.dims c.threads m s ∧ InSharedBytes c.shared_bytes s.log ∧
    ref (globals m) = some (globals s.mem)

/-! ## RMS normalization -/

section Rms

variable {sqrt : K → K} {out inp : Nat} {weight : Option Nat} {rows cols b t : Nat} {eps : K}
  {g : Simt.Launch} {m : Loc → K}

/-- `sum_sq += val * val` for the value `in[row * cols + i]` -/
def rmsSquare (inp cols b : Nat) (i : Int) (sum_sq : K) : Simt.Thread Loc K K := do
  let val ← load_element inp b cols i
  return sum_sq + val * val

/-- What the first thread does between the barriers. -/
def rmsMiddle (rsqrtf : K → K) (cols : Nat) (eps : K) (b t : Nat) : Simt.Thread Loc K Unit :=
  when (t = 0) do
    let sum ← serial_reduce (· + ·) (Loc.shared b) 0 8 0
    store (.shared b 0) (rsqrtf (sum / cols + eps))

/-- `out[row * cols + i] = in[row * cols + i] * rms * w;` -/
def rmsBody (out inp : Nat) (weight : Option Nat) (cols b : Nat) (rms : K) (i : Int) (_ : Unit) :
    Simt.Thread Loc K Unit := do
  let w ← load_param weight 1 i
  let x ← load_element inp b cols i
  store_element out b cols i (x * rms * w)

/-- What a thread does behind the second barrier. -/
def rmsLast (out inp : Nat) (weight : Option Nat) (cols : Nat) (g : Simt.Launch) (b t : Nat) :
    Simt.Thread Loc K Unit := do
  let rms ← load (.shared b 0)
  row_loop cols g t (rmsBody out inp weight cols b rms) ()

theorem rms_norm_kernel_eq (rsqrtf : K → K) (out inp : Nat) (weight : Option Nat) (cols : Nat) (eps : K)
    (hdim : g.blockDim = 256) (hb : b < rows) :
    rms_norm_kernel rsqrtf out inp weight rows cols eps g b = fun t =>
      row_loop cols g t (rmsSquare inp cols b) 0 >>= fun sum_sq =>
      warp_reduce (· + ·) sum_sq >>= fun sum_sq => lane_store (Loc.shared b) t sum_sq >>= fun _ =>
        Thread.sync (rmsMiddle rsqrtf cols eps b t >>= fun _ =>
          Thread.sync (rmsLast out inp weight cols g b t)) := by
  funext t
  unfold rms_norm_kernel rmsMiddle rmsLast
  rw [if_neg (by omega), hdim]
  simp only [Int.cast_natCast]
  rfl

def rmsMiddleAccesses (b t : Nat) : List (Loc × Bool) :=
  if t = 0 then ((strided 0 1 8).map fun i => (.shared b i, false)) ++ [(.shared b 0, true)] else []

/-- The accesses of a column behind the second barrier. -/
def rmsColumn (out inp : Nat) (weight : Option Nat) (cols b c : Nat) : List (Loc × Bool) :=
  paramAccesses weight c ++ [(.global (inp + (b * cols + c)), false), (rowCell out b cols c, true)]

def rmsLastAccesses (out inp : Nat) (weight : Option Nat) (cols b t : Nat) : List (Loc × Bool) :=
  (.shared b 0, false) :: (strided t 256 cols).flatMap (rmsColumn out inp weight cols b)

variable {d : Nat} {ev : Event Loc}

omit [Field K] in
theorem allowed_of_rms_store (hd : d ≤ 256)
    (h : ev ∈ ∑ t ∈ Finset.range d, events b t 0 (laneAccesses (Loc.shared b) t)) :
    Allowed (· * 32) out rows cols 32 ev := by
  obtain ⟨hblock, htid, hepoch, hmem⟩ := mem_sum_events.mp h
  obtain ⟨hlane, hloc, -⟩ := mem_laneAccesses hmem
  refine allowed_of_shared hloc hblock (by omega) (Or.inl ?_)
  rw [hepoch, rowOwner, if_pos rfl, hlane]

theorem allowed_of_rms_middle
    (h : ev ∈ ∑ t ∈ Finset.range d, events b t 1 (rmsMiddleAccesses b t)) :
    Allowed (· * 32) out rows cols 32 ev := by
  obtain ⟨hblock, -, hepoch, hmem⟩ := mem_sum_events.mp h
  unfold rmsMiddleAccesses at hmem
  split_ifs at hmem with ht
  · rcases List.mem_append.mp hmem with hread | hwrite
    · obtain ⟨j, hj, heq⟩ := List.mem_map.mp hread
      have hlt := ((mem_strided Nat.one_pos).mp hj).2.1
      exact allowed_of_first hblock hepoch ht (Prod.mk.inj heq).1.symm (by omega)
    · exact allowed_of_first hblock hepoch ht (Prod.mk.inj (List.mem_singleton.mp hwrite)).1 (by decide)
  · cases hmem

theorem allowed_of_rms_last (hd : d ≤ 256) (hb : b < rows) (hsame : SameOrApart inp out (rows * cols))
    {n : Nat} (hweight : ParamFits ⟨weight, n⟩ out (rows * cols) cols)
    (h : ev ∈ ∑ t ∈ Finset.range d, events b t 2 (rmsLastAccesses out inp weight cols b t)) :
    Allowed (· * 32) out rows cols 32 ev := by
  obtain ⟨hblock, htid, hepoch, hmem⟩ := mem_sum_events.mp h
  rcases List.mem_cons.mp hmem with hfirst | hrest
  · exact allowed_of_shared_read hblock hepoch (Prod.mk.inj hfirst).2 (Prod.mk.inj hfirst).1 (by decide)
  · obtain ⟨c, hc, hmem⟩ := List.mem_flatMap.mp hrest
    obtain ⟨hlt, hmod⟩ := (mem_strided_of_lt (by omega : ev.tid < 256)).mp hc
    unfold rmsColumn at hmem
    rcases List.mem_append.mp hmem with hparam | hcell
    · exact allowed_of_param hweight hlt hparam
    · exact allowed_of_column hb hlt hsame hblock hepoch hmod hcell

/-- The squares of the row go through the warps to the first cells. -/
theorem exists_rms_first (hdim : g.blockDim = 256) (hb : b < g.gridDim) (hrow : b < rows)
    (hcols : cols ≤ 2 ^ 31 - 256) (hint : rows * cols < 2 ^ 31)
    (hsame : SameOrApart inp out (rows * cols)) (k : Nat → Simt.Thread Loc K Unit) (m : Loc → K) :
    ∃ F m', (∀ ev ∈ F, Allowed (· * 32) out rows cols 32 ev) ∧
      ∑ w ∈ Finset.range 8, m' (.shared b w) = ∑ j ∈ Finset.range cols,
        m (.global (inp + (b * cols + j))) * m (.global (inp + (b * cols + j))) ∧
      (∀ a, m' (.global a) = m (.global a)) ∧
      BlockRun g b (fun t => row_loop cols g t (rmsSquare inp cols b) 0 >>= fun sum_sq =>
        warp_reduce (· + ·) sum_sq >>= fun sum_sq => lane_store (Loc.shared b) t sum_sq >>= fun _ => k t)
        m 0 F k m' 0 := by
  have hend := RowMajor.row_end_le cols hrow
  let v : Nat → K := fun c => m (.global (inp + (b * cols + c)))
  let x : Nat → K := fun t => (strided t 256 cols).foldl (fun s c => s + v c * v c) 0
  have hround : ∀ c < cols, ∀ sum_sq, Exec (rmsSquare inp cols b c sum_sq) m
      [(.global (inp + (b * cols + c)), false)] (done (sum_sq + v c * v c)) m := fun c hc sum_sq =>
    (exec_load_element (by omega) m).seq (f := fun val : K => pure (sum_sq + val * val)) (Exec.refl _ _)
  have hread : ∀ t < g.blockDim, Exec (row_loop cols g t (rmsSquare inp cols b) 0) m
      (columnReads inp b cols t) (done (x t)) m := fun t _ =>
    exec_row_loop (f := fun s c => s + v c * v c) hdim hcols hround t 0
  have hrun1 := blockRun_of_read_seq hb 0 hread fun t sum_sq => warp_reduce (· + ·) sum_sq >>=
    fun sum_sq => lane_store (Loc.shared b) t sum_sq >>= fun _ => k t
  obtain ⟨w, hw, hrun2⟩ := exists_warp_reduce (zero_add : ∀ a : K, 0 + a = a) hb
    (hdim ▸ by decide : 32 ∣ g.blockDim) 0 m x
  obtain ⟨m1, hm1, hrun3⟩ := exists_lane_store (shared_injective b) hb 0 m w k
  refine ⟨_, m1, fun ev hev => ?_, ?_, fun a => hm1.2 _ fun j _ => Loc.global_ne_shared a b j,
    hrun1.trans ((hrun2 _).trans hrun3)⟩
  · rw [zero_add] at hev
    rcases Multiset.mem_add.mp hev with hev | hev
    · exact allowed_of_columnReads (by omega) hrow hsame hev
    · exact allowed_of_rms_store (by omega) hev
  · have hwarp : ∀ l ∈ Finset.range 8, m1 (.shared b l) =
        (Finset.range 32).fold (· + ·) 0 fun i => x (l * 32 + i) := by
      intro l hl
      have hlt := Finset.mem_range.mp hl
      rw [hm1.1 l (by omega)]
      exact hw l
    rw [Finset.sum_eq_fold, Finset.fold_congr hwarp, Folding.fold_range_blocks zero_add x 32 8,
      Finset.sum_eq_fold]
    exact fold_strided zero_add (fun c => v c * v c) (by decide : 0 < 256) cols

theorem exists_rms_middle (rsqrtf : K → K) (cols : Nat) (eps : K) (hb : b < g.gridDim)
    (hdim : 0 < g.blockDim) (k : Nat → Simt.Thread Loc K Unit) (m : Loc → K) :
    ∃ m', m' (.shared b 0) = rsqrtf ((∑ w ∈ Finset.range 8, m (.shared b w)) / cols + eps) ∧
      (∀ a, m' (.global a) = m (.global a)) ∧
      BlockRun g b (fun t => rmsMiddle rsqrtf cols eps b t >>= fun _ => k t) m 1
        (∑ t ∈ Finset.range g.blockDim, events b t 1 (rmsMiddleAccesses b t)) k m' 1 := by
  have hsum := exec_serial_sum (Loc.shared b) (by decide : 8 < 2 ^ 32) m
  have hexec := hsum.seq (f := fun sum : K => store (Loc.shared b 0) (rsqrtf (sum / cols + eps)))
    (exec_store _ _ m)
  exact ⟨_, Function.update_self .., fun a => Function.update_of_ne (Loc.global_ne_shared a b 0) ..,
    blockRun_of_when hb hdim 1 hexec k⟩

/-- The value of a column from the memory behind the second barrier. -/
def rmsValue (inp : Nat) (weight : Option Nat) (cols b : Nat) (m : Loc → K) (c : Nat) : K :=
  m (.global (inp + (b * cols + c))) * m (.shared b 0) * paramNumbers ⟨weight, cols⟩ 1 (globals m) c

theorem exists_rms_last (hb : b < g.gridDim) (hdim : g.blockDim = 256) (hcols : cols ≤ 2 ^ 31 - 256)
    (hrow : b < rows) (hint : rows * cols < 2 ^ 31) (hsame : SameOrApart inp out (rows * cols))
    (hweight : ParamFits ⟨weight, cols⟩ out (rows * cols) cols) (m : Loc → K) :
    ∃ m', Simt.Stored (rowCell out b cols) (· < cols) (rmsValue inp weight cols b m) m m' ∧
      BlockRun g b (rmsLast out inp weight cols g b) m 2
        (∑ t ∈ Finset.range g.blockDim, events b t 2 (rmsLastAccesses out inp weight cols b t))
        (fun _ => done ()) m' 2 := by
  have hend := RowMajor.row_end_le cols hrow
  -- a column is written from its input and its weight, which the writes before have left
  have hcolumn : ∀ c < cols, ∀ (W : Nat → Prop) m2, ¬ W c → (∀ j, W j → j < cols) →
      Simt.Stored (rowCell out b cols) W (rmsValue inp weight cols b m) m m2 →
      Exec (rmsBody out inp weight cols b (m (.shared b 0)) c ()) m2 (rmsColumn out inp weight cols b c)
        (done ()) (Function.update m2 (rowCell out b cols c) (rmsValue inp weight cols b m c)) := by
    intro c hc W m2 hW hlt hm2
    have hexec := (exec_load_param weight cols (1 : K) c m2).seq
      (f := fun w => load_element inp b cols c >>= fun x =>
        store_element out b cols c (x * m (.shared b 0) * w))
      ((exec_load_element (p := inp) (by omega) m2).seq (exec_store_element (p := out) (by omega) _ m2))
    rw [stored_input hrow hsame hc hW hlt hm2, stored_param hrow hweight hc hlt hm2] at hexec
    exact hexec
  have hthread : ∀ t < g.blockDim, ∀ m1, Simt.Stored (rowCell out b cols) (fun c => c < cols ∧ c % 256 < t)
        (rmsValue inp weight cols b m) m m1 →
      ∃ m2, Exec (rmsLast out inp weight cols g b t) m1 (rmsLastAccesses out inp weight cols b t)
          (done ()) m2 ∧
        Simt.Stored (rowCell out b cols) (fun c => c < cols ∧ c % 256 < t + 1)
          (rmsValue inp weight cols b m) m m2 := by
    intro t ht m1 hm1
    have hshared : m1 (.shared b 0) = m (.shared b 0) := hm1.2 (.shared b 0) fun j _ => nofun
    obtain ⟨m2, hexec, hm2⟩ := exists_row_writes hdim hcols (by omega) hm1 hcolumn
    rw [← hshared] at hexec
    exact ⟨m2, Exec.read hexec, hm2⟩
  obtain ⟨m', hrun, hm'⟩ := exists_blockRun hb 2 (stored_nothing fun c hc => by omega) hthread
  exact ⟨m', hm'.congr fun c => by omega, hrun⟩

/-- The mean of the squares of a row goes through the warps and the first thread. -/
theorem rms_writesRows (rsqrtf : K → K) (eps : K) (hdim : g.blockDim = 256)
    (hgrid : g.gridDim = rows) (hcols : cols ≤ 2 ^ 31 - 256) (hint : rows * cols < 2 ^ 31)
    (hsame : SameOrApart inp out (rows * cols))
    (hweight : ParamFits ⟨weight, cols⟩ out (rows * cols) cols) :
    WritesRows g (rms_norm_kernel rsqrtf out inp weight rows cols eps g) out rows cols 32 (· * 32)
      fun m b c => m (inp + (b * cols + c)) * rsqrtf ((∑ j ∈ Finset.range cols,
        m (inp + (b * cols + j)) * m (inp + (b * cols + j))) / cols + eps) *
          paramNumbers ⟨weight, cols⟩ 1 m c := by
  intro b hb m
  have hrow : b < rows := hgrid ▸ hb
  obtain ⟨F, m1, hF, hsum, hglobal1, hrun1⟩ := exists_rms_first hdim hb hrow hcols hint hsame
    (fun t => Thread.sync (rmsMiddle rsqrtf cols eps b t >>= fun _ =>
      Thread.sync (rmsLast out inp weight cols g b t))) m
  obtain ⟨m2, hrms, hglobal2, hrun2⟩ := exists_rms_middle rsqrtf cols eps hb (by omega)
    (fun t => Thread.sync (rmsLast out inp weight cols g b t)) m1
  obtain ⟨m3, hm3, hrun3⟩ := exists_rms_last hb hdim hcols hrow hint hsame hweight m2
  have hkernel := rms_norm_kernel_eq rsqrtf out inp weight cols eps hdim hrow
  have hglobal : ∀ a, m2 (.global a) = m (.global a) := fun a => (hglobal2 a).trans (hglobal1 a)
  refine ⟨_, m3, 2, hkernel ▸ (hrun1.trans (blockRun_of_sync hb 0 m1 _)).trans
    (hrun2.trans ((blockRun_of_sync hb 1 m2 _).trans hrun3)), fun ev hev => ?_, fun c hc => ?_,
    fun a ha => ?_⟩
  · rw [add_zero, zero_add] at hev
    rcases Multiset.mem_add.mp hev with hev | hev
    · exact hF ev hev
    rcases Multiset.mem_add.mp hev with hev | hev
    · exact allowed_of_rms_middle hev
    · exact allowed_of_rms_last (by omega) hrow hsame hweight hev
  · have hglobals : globals m2 = globals m := funext hglobal
    rw [hm3.1 c hc, rmsValue, hrms, hsum, hglobals, hglobal]
    rfl
  · rw [hm3.2 _ fun c hc heq => ha c hc (Loc.global.inj heq), hglobal]

end Rms

/-! ## Layer normalization -/

section Layer

variable {out inp : Nat} {weight bias : Option Nat} {rows cols b t d : Nat} {eps : K}
  {g : Simt.Launch} {m : Loc → K} {ev : Event Loc}

/-- `sum += val; sum_sq += val * val;` for the value `in[row * cols + i]` -/
def layerSums (inp cols b : Nat) (i : Int) (sums : K × K) : Simt.Thread Loc K (K × K) := do
  let val ← load_element inp b cols i
  return (sums.1 + val, sums.2 + val * val)

/-- What the first thread does between the barriers. -/
def layerMiddle (rsqrtf : K → K) (cols : Nat) (eps : K) (g : Simt.Launch) (b t : Nat) :
    Simt.Thread Loc K Unit :=
  when (t = 0) do
    let totals ← layer_norm_totals g b
    store (.shared b 0) (totals.1 / cols)
    store (.shared b g.blockDim)
      (rsqrtf (totals.2 / cols - totals.1 / cols * (totals.1 / cols) + eps))

/-- `out[row * cols + i] = (in[row * cols + i] - mean) * inv_std * w + b;` -/
def layerBody (out inp : Nat) (weight bias : Option Nat) (cols b : Nat) (mean inv_std : K) (i : Int)
    (_ : Unit) : Simt.Thread Loc K Unit := do
  let x ← load_element inp b cols i
  let w ← load_param weight 1 i
  let v ← load_param bias 0 i
  store_element out b cols i ((x - mean) * inv_std * w + v)

/-- What a thread does behind the second barrier. -/
def layerLast (out inp : Nat) (weight bias : Option Nat) (cols : Nat) (g : Simt.Launch) (b t : Nat) :
    Simt.Thread Loc K Unit := do
  let mean ← load (.shared b 0)
  let inv_std ← load (.shared b g.blockDim)
  row_loop cols g t (layerBody out inp weight bias cols b mean inv_std) ()

theorem layer_norm_kernel_eq (rsqrtf : K → K) (out inp : Nat) (weight bias : Option Nat) (cols : Nat)
    (eps : K) (hb : b < rows) :
    layer_norm_kernel rsqrtf out inp weight bias rows cols eps g b = fun t =>
      row_loop cols g t (layerSums inp cols b) (0, 0) >>= fun sums =>
        Thread.write (.shared b t) sums.1 (Thread.write (.shared b (g.blockDim + t)) sums.2
          (Thread.sync (layerMiddle rsqrtf cols eps g b t >>= fun _ =>
            Thread.sync (layerLast out inp weight bias cols g b t)))) := by
  funext t
  unfold layer_norm_kernel layerMiddle layerLast
  rw [if_neg (by omega)]
  simp only [Int.cast_natCast]
  rfl

def layerMiddleAccesses (b t : Nat) : List (Loc × Bool) :=
  if t = 0 then
    ((strided 0 1 256).flatMap fun i => [(.shared b i, false), (.shared b (256 + i), false)]) ++
      [(.shared b 0, true), (.shared b 256, true)]
  else []

/-- The accesses of a column behind the second barrier. -/
def layerColumn (out inp : Nat) (weight bias : Option Nat) (cols b c : Nat) : List (Loc × Bool) :=
  (.global (inp + (b * cols + c)), false) :: (paramAccesses weight c ++ (paramAccesses bias c ++
    [(rowCell out b cols c, true)]))

def layerLastAccesses (out inp : Nat) (weight bias : Option Nat) (cols b t : Nat) :
    List (Loc × Bool) :=
  (.shared b 0, false) :: (.shared b 256, false) ::
    (strided t 256 cols).flatMap (layerColumn out inp weight bias cols b)

theorem allowed_of_layer_store (hd : d ≤ 256)
    (h : ev ∈ ∑ t ∈ Finset.range d, events b t 0 (columnReads inp b cols t ++
      [(Loc.shared b t, true), (Loc.shared b (256 + t), true)])) (hrow : b < rows)
    (hsame : SameOrApart inp out (rows * cols)) : Allowed (· % 256) out rows cols 2048 ev := by
  obtain ⟨hblock, htid, hepoch, hmem⟩ := mem_sum_events.mp h
  have howner : ∀ j, j % 256 = ev.tid →
      rowOwner (· % 256) out rows cols ev.epoch (.shared b j) = some ev.tid := by
    intro j hj
    rw [hepoch, rowOwner, if_pos rfl, hj]
  rcases List.mem_append.mp hmem with hread | hwrite
  · exact allowed_of_columnReads hd hrow hsame (mem_sum_events.mpr ⟨hblock, htid, hepoch, hread⟩)
  · rcases List.mem_cons.mp hwrite with hmean | hvar
    · exact allowed_of_shared (Prod.mk.inj hmean).1 hblock (by omega)
        (Or.inl (howner _ (Nat.mod_eq_of_lt (by omega))))
    · exact allowed_of_shared (Prod.mk.inj (List.mem_singleton.mp hvar)).1 hblock (by omega)
        (Or.inl (howner _ (by omega)))

theorem allowed_of_layer_middle
    (h : ev ∈ ∑ t ∈ Finset.range d, events b t 1 (layerMiddleAccesses b t)) :
    Allowed (· % 256) out rows cols 2048 ev := by
  obtain ⟨hblock, -, hepoch, hmem⟩ := mem_sum_events.mp h
  unfold layerMiddleAccesses at hmem
  split_ifs at hmem with ht
  · rcases List.mem_append.mp hmem with hread | hwrite
    · obtain ⟨j, hj, hmem⟩ := List.mem_flatMap.mp hread
      have hlt := ((mem_strided Nat.one_pos).mp hj).2.1
      rcases List.mem_cons.mp hmem with hmean | hvar
      · exact allowed_of_first hblock hepoch ht (Prod.mk.inj hmean).1 (by omega)
      · exact allowed_of_first hblock hepoch ht (Prod.mk.inj (List.mem_singleton.mp hvar)).1 (by omega)
    · rcases List.mem_cons.mp hwrite with hmean | hvar
      · exact allowed_of_first hblock hepoch ht (Prod.mk.inj hmean).1 (by decide)
      · exact allowed_of_first hblock hepoch ht (Prod.mk.inj (List.mem_singleton.mp hvar)).1 (by decide)
  · cases hmem

theorem allowed_of_layer_last (hd : d ≤ 256) (hb : b < rows)
    (hsame : SameOrApart inp out (rows * cols)) {n : Nat}
    (hweight : ParamFits ⟨weight, n⟩ out (rows * cols) cols)
    (hbias : ParamFits ⟨bias, n⟩ out (rows * cols) cols)
    (h : ev ∈ ∑ t ∈ Finset.range d, events b t 2 (layerLastAccesses out inp weight bias cols b t)) :
    Allowed (· % 256) out rows cols 2048 ev := by
  obtain ⟨hblock, htid, hepoch, hmem⟩ := mem_sum_events.mp h
  rcases List.mem_cons.mp hmem with hmean | hmem
  · exact allowed_of_shared_read hblock hepoch (Prod.mk.inj hmean).2 (Prod.mk.inj hmean).1 (by decide)
  rcases List.mem_cons.mp hmem with hvar | hmem
  · exact allowed_of_shared_read hblock hepoch (Prod.mk.inj hvar).2 (Prod.mk.inj hvar).1 (by decide)
  obtain ⟨c, hc, hmem⟩ := List.mem_flatMap.mp hmem
  obtain ⟨hlt, hmod⟩ := (mem_strided_of_lt (by omega : ev.tid < 256)).mp hc
  have hcolumn : (ev.loc, ev.isWrite) ∈
      [(Loc.global (inp + (b * cols + c)), false), (rowCell out b cols c, true)] →
      Allowed (· % 256) out rows cols 2048 ev := allowed_of_column hb hlt hsame hblock hepoch hmod
  rcases List.mem_cons.mp hmem with hread | hmem
  · exact hcolumn (hread ▸ List.mem_cons_self ..)
  rcases List.mem_append.mp hmem with hparam | hmem
  · exact allowed_of_param hweight hlt hparam
  rcases List.mem_append.mp hmem with hparam | hmem
  · exact allowed_of_param hbias hlt hparam
  · exact hcolumn (List.mem_cons_of_mem _ hmem)

/-- The threads leave their sums. -/
theorem exists_layer_first (hdim : g.blockDim = 256) (hb : b < g.gridDim) (hrow : b < rows)
    (hcols : cols ≤ 2 ^ 31 - 256) (hint : rows * cols < 2 ^ 31) (k : Nat → Simt.Thread Loc K Unit)
    (m : Loc → K) :
    ∃ m', ∑ i ∈ Finset.range 256, m' (.shared b i) =
        ∑ j ∈ Finset.range cols, m (.global (inp + (b * cols + j))) ∧
      ∑ i ∈ Finset.range 256, m' (.shared b (256 + i)) = ∑ j ∈ Finset.range cols,
        m (.global (inp + (b * cols + j))) * m (.global (inp + (b * cols + j))) ∧
      (∀ a, m' (.global a) = m (.global a)) ∧
      BlockRun g b (fun t => row_loop cols g t (layerSums inp cols b) (0, 0) >>= fun sums =>
          Thread.write (.shared b t) sums.1 (Thread.write (.shared b (g.blockDim + t)) sums.2 (k t))) m 0
        (∑ t ∈ Finset.range g.blockDim, events b t 0 (columnReads inp b cols t ++
          [(Loc.shared b t, true), (Loc.shared b (256 + t), true)])) k m' 0 := by
  have hend := RowMajor.row_end_le cols hrow
  have hcell := shared_injective b
  let v : Nat → K := fun c => m (.global (inp + (b * cols + c)))
  let x : Nat → K := fun t => (strided t 256 cols).foldl (fun s c => s + v c) 0
  let y : Nat → K := fun t => (strided t 256 cols).foldl (fun s c => s + v c * v c) 0
  let f : Nat → K := fun j => if j < 256 then x j else y (j - 256)
  have hthread : ∀ t < g.blockDim, ∀ m1,
      Simt.Stored (Loc.shared b) (fun j => j < t ∨ 256 ≤ j ∧ j < 256 + t) f m m1 →
      ∃ m2, Exec (row_loop cols g t (layerSums inp cols b) (0, 0) >>= fun sums =>
          Thread.write (.shared b t) sums.1 (Thread.write (.shared b (g.blockDim + t)) sums.2 (k t))) m1
          (columnReads inp b cols t ++ [(Loc.shared b t, true), (Loc.shared b (256 + t), true)]) (k t) m2 ∧
        Simt.Stored (Loc.shared b) (fun j => j < t + 1 ∨ 256 ≤ j ∧ j < 256 + (t + 1)) f m m2 := by
    intro t ht m1 hm1
    have hround : ∀ c < cols, ∀ sums : K × K, Exec (layerSums inp cols b c sums) m1
        [(.global (inp + (b * cols + c)), false)] (done (sums.1 + v c, sums.2 + v c * v c)) m1 := by
      intro c hc sums
      have hv : m1 (.global (inp + (b * cols + c))) = v c :=
        hm1.2 _ fun j _ => Loc.global_ne_shared _ b j
      have hexec := (exec_load_element (p := inp) (by omega : b * cols + c < 2 ^ 31) m1).seq
        (f := fun val : K => pure (sums.1 + val, sums.2 + val * val)) (Exec.refl _ _)
      rw [hv] at hexec
      exact hexec
    have hread := exec_row_loop (f := fun s c => (s.1 + v c, s.2 + v c * v c)) hdim hcols hround t (0, 0)
    rw [Folding.foldl_pair (fun s c => s + v c) (fun s c => s + v c * v c)] at hread
    have hx : f t = x t := if_pos (by omega)
    have hy : f (256 + t) = y t := by
      have hnot : ¬ 256 + t < 256 := by omega
      have hsub : 256 + t - 256 = t := by omega
      unfold f
      rw [if_neg hnot, hsub]
    have hwrite : Exec (Thread.write (.shared b t) (x t) (Thread.write (.shared b (g.blockDim + t))
        (y t) (k t))) m1 [(Loc.shared b t, true), (Loc.shared b (256 + t), true)] (k t)
        (Function.update (Function.update m1 (.shared b t) (f t)) (.shared b (256 + t))
          (f (256 + t))) := by
      rw [hdim, hx, hy]
      exact Exec.write (Exec.write (Exec.refl _ _))
    exact ⟨_, hread.seq hwrite, ((hm1.update hcell t).update hcell (256 + t)).congr fun j => by omega⟩
  obtain ⟨m', hrun, hm'⟩ := exists_blockRun hb 0 (stored_nothing fun j hj => by omega) hthread
  refine ⟨m', ?_, ?_, fun a => hm'.2 _ fun j _ => Loc.global_ne_shared a b j, hrun⟩
  · have hcells : ∀ i ∈ Finset.range 256, m' (.shared b i) = x i := by
      intro i hi
      have hlt := Finset.mem_range.mp hi
      rw [hm'.1 i (by omega)]
      exact if_pos hlt
    rw [Finset.sum_congr rfl hcells, Finset.sum_eq_fold, Finset.sum_eq_fold]
    exact fold_strided zero_add v (by decide : 0 < 256) cols
  · have hcells : ∀ i ∈ Finset.range 256, m' (.shared b (256 + i)) = y i := by
      intro i hi
      have hlt := Finset.mem_range.mp hi
      have hnot : ¬ 256 + i < 256 := by omega
      have hsub : 256 + i - 256 = i := by omega
      rw [hm'.1 (256 + i) (by omega)]
      unfold f
      rw [if_neg hnot, hsub]
    rw [Finset.sum_congr rfl hcells, Finset.sum_eq_fold, Finset.sum_eq_fold]
    exact fold_strided zero_add (fun c => v c * v c) (by decide : 0 < 256) cols

theorem exec_layer_norm_totals (hdim : g.blockDim = 256) (b : Nat) (m : Loc → K) :
    Exec (layer_norm_totals g b) m
      ((strided 0 1 256).flatMap fun i => [(.shared b i, false), (.shared b (256 + i), false)])
      (done (∑ i ∈ Finset.range 256, m (.shared b i), ∑ i ∈ Finset.range 256, m (.shared b (256 + i))))
      m := by
  have hrounds : rounds (fun i => decide (i < 256)) (· + 1) (2 ^ 32) (id 0) =
      some ((strided 0 1 256).map id) :=
    rounds_strided id Nat.one_pos (fun _ => rfl) (fun _ _ => rfl) (by decide)
  rw [List.map_id] at hrounds
  have hround : ∀ i ∈ strided 0 1 256, ∀ totals : K × K, Exec (do
        let mean ← load (Loc.shared b i)
        let var ← load (Loc.shared b (256 + i))
        return (totals.1 + mean, totals.2 + var)) m [(.shared b i, false), (.shared b (256 + i), false)]
      (done (totals.1 + m (.shared b i), totals.2 + m (.shared b (256 + i)))) m :=
    fun i _ totals => Exec.read (Exec.read (Exec.refl _ _))
  have hexec := exec_loop hrounds (chain_of_read (f := fun s i =>
    (s.1 + m (.shared b i), s.2 + m (.shared b (256 + i)))) hround (0, 0))
  rw [Folding.foldl_pair (fun s i => s + m (.shared b i)) (fun s i => s + m (.shared b (256 + i))),
    foldl_strided_zero (V := K) (· + ·) 0, foldl_strided_zero (V := K) (· + ·) 0,
    ← Finset.sum_eq_fold, ← Finset.sum_eq_fold] at hexec
  unfold layer_norm_totals
  rw [hdim]
  exact hexec

theorem exists_layer_middle (rsqrtf : K → K) (cols : Nat) (eps : K) (hdim : g.blockDim = 256)
    (hb : b < g.gridDim) (k : Nat → Simt.Thread Loc K Unit) (m : Loc → K) :
    ∃ m', m' (.shared b 0) = (∑ i ∈ Finset.range 256, m (.shared b i)) / cols ∧
      m' (.shared b 256) = rsqrtf ((∑ i ∈ Finset.range 256, m (.shared b (256 + i))) / cols -
        (∑ i ∈ Finset.range 256, m (.shared b i)) / cols *
          ((∑ i ∈ Finset.range 256, m (.shared b i)) / cols) + eps) ∧
      (∀ a, m' (.global a) = m (.global a)) ∧
      BlockRun g b (fun t => layerMiddle rsqrtf cols eps g b t >>= fun _ => k t) m 1
        (∑ t ∈ Finset.range g.blockDim, events b t 1 (layerMiddleAccesses b t)) k m' 1 := by
  have htotals := exec_layer_norm_totals hdim b m
  generalize ∑ i ∈ Finset.range 256, m (.shared b i) = total,
    ∑ i ∈ Finset.range 256, m (.shared b (256 + i)) = total_sq at htotals ⊢
  have hexec := htotals.seq (f := fun totals : K × K =>
      store (Loc.shared b 0) (totals.1 / cols) >>= fun _ => store (Loc.shared b g.blockDim)
        (rsqrtf (totals.2 / cols - totals.1 / cols * (totals.1 / cols) + eps)))
    (Exec.write (Exec.write (Exec.refl _ _)))
  rw [hdim] at hexec
  have hrun := blockRun_of_when hb (by omega) 1 hexec k
  have hne : Loc.shared b 0 ≠ .shared b 256 := fun h => absurd (Loc.shared.inj h).2 (by decide)
  refine ⟨Function.update (Function.update m (.shared b 0) (total / cols)) (.shared b 256)
    (rsqrtf (total_sq / cols - total / cols * (total / cols) + eps)), ?_, Function.update_self ..,
    fun a => ?_, ?_⟩
  · rw [Function.update_of_ne hne, Function.update_self]
  · rw [Function.update_of_ne (Loc.global_ne_shared a b 256),
      Function.update_of_ne (Loc.global_ne_shared a b 0)]
  · unfold layerMiddle
    rw [hdim]
    rw [hdim] at hrun
    exact hrun

/-- The value of a column from the memory behind the second barrier. -/
def layerValue (inp : Nat) (weight bias : Option Nat) (cols b : Nat) (m : Loc → K) (c : Nat) : K :=
  (m (.global (inp + (b * cols + c))) - m (.shared b 0)) * m (.shared b 256) *
    paramNumbers ⟨weight, cols⟩ 1 (globals m) c + paramNumbers ⟨bias, cols⟩ 0 (globals m) c

theorem exists_layer_last (hb : b < g.gridDim) (hdim : g.blockDim = 256) (hcols : cols ≤ 2 ^ 31 - 256)
    (hrow : b < rows) (hint : rows * cols < 2 ^ 31) (hsame : SameOrApart inp out (rows * cols))
    (hweight : ParamFits ⟨weight, cols⟩ out (rows * cols) cols)
    (hbias : ParamFits ⟨bias, cols⟩ out (rows * cols) cols) (m : Loc → K) :
    ∃ m', Simt.Stored (rowCell out b cols) (· < cols) (layerValue inp weight bias cols b m) m m' ∧
      BlockRun g b (layerLast out inp weight bias cols g b) m 2
        (∑ t ∈ Finset.range g.blockDim, events b t 2 (layerLastAccesses out inp weight bias cols b t))
        (fun _ => done ()) m' 2 := by
  have hend := RowMajor.row_end_le cols hrow
  -- a column is written from its input and its parameters, which the writes before have left
  have hcolumn : ∀ c < cols, ∀ (W : Nat → Prop) m2, ¬ W c → (∀ j, W j → j < cols) →
      Simt.Stored (rowCell out b cols) W (layerValue inp weight bias cols b m) m m2 →
      Exec (layerBody out inp weight bias cols b (m (.shared b 0)) (m (.shared b 256)) c ()) m2
        (layerColumn out inp weight bias cols b c) (done ())
        (Function.update m2 (rowCell out b cols c) (layerValue inp weight bias cols b m c)) := by
    intro c hc W m2 hW hlt hm2
    have hexec := (exec_load_element (p := inp) (by omega : b * cols + c < 2 ^ 31) m2).seq
      (f := fun x => load_param weight 1 c >>= fun w => load_param bias 0 c >>= fun v =>
        store_element out b cols c ((x - m (.shared b 0)) * m (.shared b 256) * w + v))
      ((exec_load_param weight cols 1 c m2).seq ((exec_load_param bias cols 0 c m2).seq
        (exec_store_element (p := out) (by omega) _ m2)))
    rw [stored_input hrow hsame hc hW hlt hm2, stored_param hrow hweight hc hlt hm2,
      stored_param hrow hbias hc hlt hm2] at hexec
    exact hexec
  have hthread : ∀ t < g.blockDim, ∀ m1, Simt.Stored (rowCell out b cols) (fun c => c < cols ∧ c % 256 < t)
        (layerValue inp weight bias cols b m) m m1 →
      ∃ m2, Exec (layerLast out inp weight bias cols g b t) m1
          (layerLastAccesses out inp weight bias cols b t) (done ()) m2 ∧
        Simt.Stored (rowCell out b cols) (fun c => c < cols ∧ c % 256 < t + 1)
          (layerValue inp weight bias cols b m) m m2 := by
    intro t ht m1 hm1
    have hshared : ∀ j, m1 (.shared b j) = m (.shared b j) := fun j => hm1.2 (.shared b j) fun _ _ => nofun
    obtain ⟨m2, hexec, hm2⟩ := exists_row_writes hdim hcols (by omega) hm1 hcolumn
    rw [← hshared 0, ← hshared 256] at hexec
    unfold layerLast
    rw [hdim]
    exact ⟨m2, Exec.read (Exec.read hexec), hm2⟩
  obtain ⟨m', hrun, hm'⟩ := exists_blockRun hb 2 (stored_nothing fun c hc => by omega) hthread
  exact ⟨m', hm'.congr fun c => by omega, hrun⟩

/-- The sums of a row go through the cells of the threads and the first thread. -/
theorem layer_writesRows (rsqrtf : K → K) (eps : K) (hdim : g.blockDim = 256)
    (hgrid : g.gridDim = rows) (hcols : cols ≤ 2 ^ 31 - 256) (hint : rows * cols < 2 ^ 31)
    (hsame : SameOrApart inp out (rows * cols))
    (hweight : ParamFits ⟨weight, cols⟩ out (rows * cols) cols)
    (hbias : ParamFits ⟨bias, cols⟩ out (rows * cols) cols) :
    WritesRows g (layer_norm_kernel rsqrtf out inp weight bias rows cols eps g) out rows cols 2048
      (· % 256) fun m b c =>
        (m (inp + (b * cols + c)) - rowMean (fun j => m (inp + (b * cols + j))) cols) *
          rsqrtf ((∑ j ∈ Finset.range cols, m (inp + (b * cols + j)) * m (inp + (b * cols + j))) / cols -
            rowMean (fun j => m (inp + (b * cols + j))) cols *
              rowMean (fun j => m (inp + (b * cols + j))) cols + eps) *
          paramNumbers ⟨weight, cols⟩ 1 m c + paramNumbers ⟨bias, cols⟩ 0 m c := by
  intro b hb m
  have hrow : b < rows := hgrid ▸ hb
  obtain ⟨m1, hsum, hsquares, hglobal1, hrun1⟩ := exists_layer_first hdim hb hrow hcols hint
    (fun t => Thread.sync (layerMiddle rsqrtf cols eps g b t >>= fun _ =>
      Thread.sync (layerLast out inp weight bias cols g b t))) m
  obtain ⟨m2, hmean, hinv, hglobal2, hrun2⟩ := exists_layer_middle rsqrtf cols eps hdim hb
    (fun t => Thread.sync (layerLast out inp weight bias cols g b t)) m1
  obtain ⟨m3, hm3, hrun3⟩ := exists_layer_last hb hdim hcols hrow hint hsame hweight hbias m2
  have hkernel := layer_norm_kernel_eq (g := g) rsqrtf out inp weight bias cols eps hrow
  have hglobal : ∀ a, m2 (.global a) = m (.global a) := fun a => (hglobal2 a).trans (hglobal1 a)
  refine ⟨_, m3, 2, hkernel ▸ (hrun1.trans (blockRun_of_sync hb 0 m1 _)).trans
    (hrun2.trans ((blockRun_of_sync hb 1 m2 _).trans hrun3)), fun ev hev => ?_, fun c hc => ?_,
    fun a ha => ?_⟩
  · rw [add_zero, zero_add] at hev
    rcases Multiset.mem_add.mp hev with hev | hev
    · exact allowed_of_layer_store (by omega) hev hrow hsame
    rcases Multiset.mem_add.mp hev with hev | hev
    · exact allowed_of_layer_middle hev
    · exact allowed_of_layer_last (by omega) hrow hsame hweight hbias hev
  · have hglobals : globals m2 = globals m := funext hglobal
    rw [hm3.1 c hc, layerValue, hmean, hinv, hsum, hsquares, hglobals, hglobal]
    rfl
  · rw [hm3.2 _ fun c hc heq => ha c hc (Loc.global.inj heq), hglobal]

end Layer

/-! ## The functions on the host -/

section Host

variable {out inp : Nat} {weight bias : Option Nat} {rows cols : Nat} {eps : K} {m : Loc → K}

omit [Field K] in
theorem paramNumbers_overwrite {w : int64.Floats} {q n k c : Nat} (hw : ParamFits w q n cols)
    (hk : k ≤ n) (hc : c < cols) (v : K) (mem f : Nat → K) :
    paramNumbers w v (overwrite mem q k f) c = paramNumbers w v mem c := by
  unfold paramNumbers
  cases hdata : w.data with
  | none => rfl
  | some data =>
    obtain ⟨-, hapart⟩ := hw data hdata
    unfold BlockMemory.Apart at hapart
    exact overwrite_outside _ _ (by omega)

/-- The mean of the squares less the square of the mean is the variance. -/
theorem rowVar_eq [CharZero K] (v : Nat → K) {n : Nat} (hn : 0 < n) :
    (∑ j ∈ Finset.range n, v j * v j) / n - rowMean v n * rowMean v n = rowVar v n := by
  have hcast : (n : K) ≠ 0 := Nat.cast_ne_zero.mpr (Nat.ne_of_gt hn)
  have hsum : ∑ j ∈ Finset.range n, v j = n * rowMean v n := by
    unfold rowMean
    rw [mul_div_cancel₀ _ hcast]
  have hsquares : ∑ j ∈ Finset.range n, (v j - rowMean v n) * (v j - rowMean v n) =
      ∑ j ∈ Finset.range n, v j * v j - n * (rowMean v n * rowMean v n) := by
    calc ∑ j ∈ Finset.range n, (v j - rowMean v n) * (v j - rowMean v n)
        = ∑ j ∈ Finset.range n, (v j * v j - 2 * rowMean v n * v j + rowMean v n * rowMean v n) :=
          Finset.sum_congr rfl fun j _ => by ring
      _ = ∑ j ∈ Finset.range n, v j * v j - 2 * rowMean v n * (n * rowMean v n) +
            n * (rowMean v n * rowMean v n) := by
          rw [Finset.sum_add_distrib, Finset.sum_sub_distrib, ← Finset.mul_sum, hsum, Finset.sum_const,
            Finset.card_range, nsmul_eq_mul]
      _ = ∑ j ∈ Finset.range n, v j * v j - n * (rowMean v n * rowMean v n) := by ring
  unfold rowVar
  rw [hsquares, sub_div, mul_div_cancel_left₀ _ hcast]

theorem rowsFit (hint : rows * cols < 2 ^ 31) (hsame : SameOrApart inp out (rows * cols)) :
    RowsFit ⟨some inp, rows * cols⟩ ⟨some out, rows * cols⟩ inp out rows cols :=
  ⟨hint.le, rfl, rfl, le_rfl, le_rfl, hsame⟩

/-- A sum over the inputs of a row, which the writes to the rows before have left. -/
theorem sum_row_overwrite {x y : int64.Floats} {b : Nat} (h : RowsFit x y inp out rows cols)
    (hb : b < rows) (mem f : Nat → K) (F : K → K) :
    ∑ j ∈ Finset.range cols, F (overwrite mem out (b * cols) f (inp + (b * cols + j))) =
      ∑ j ∈ Finset.range cols, F (mem (inp + (b * cols + j))) :=
  Finset.sum_congr rfl fun j hj => by rw [h.input_eq hb mem f j (Finset.mem_range.mp hj)]

theorem rms_matches (sqrt : K → K) (hcols : cols ≤ 2 ^ 31 - 256) (hint : rows * cols < 2 ^ 31)
    (hsame : SameOrApart inp out (rows * cols))
    (hweight : ParamFits ⟨weight, cols⟩ out (rows * cols) cols) :
    Matches (launch_rms_norm (fun x => 1 / sqrt x) out inp weight rows cols eps)
      (ref.rms_norm_f32 sqrt ⟨some inp, rows * cols⟩ ⟨weight, cols⟩ ⟨some out, rows * cols⟩
        rows cols eps) m := by
  have hfit := rowsFit hint hsame
  have hwrites : WritesRows ⟨rows, 256⟩ _ out rows cols 32 (· * 32) _ :=
    rms_writesRows (fun x => 1 / sqrt x) eps rfl rfl hcols hint hsame hweight
  let row : Nat → K := mapRows (fun v => rowRmsNorm sqrt eps v
    (paramNumbers ⟨weight, cols⟩ 1 (globals m)) cols) (globals m) inp cols
  obtain ⟨s, hs, hbytes, hmem⟩ := exists_ends_of_rows (f := row) (show 0 < 256 by decide) rfl hwrites m
    fun b (hb : b < rows) c hc => by
      have hrow := RowMajor.row_end_le cols hb
      have hindex : row (b * cols + c) = _ := mapRows_index _ _ _ hc
      have hinput := hfit.input_eq hb (globals m) row
      have hsum := sum_row_overwrite hfit hb (globals m) row fun v => v * v
      rw [hsum, hinput c hc, paramNumbers_overwrite hweight (by omega) hc, hindex]
      rfl
  refine ⟨s, hs, hbytes, ?_⟩
  rw [ref.rms_norm_f32_eq hfit hweight, hmem]

theorem layer_matches [CharZero K] (sqrt : K → K) (hpos : 1 ≤ cols) (hcols : cols ≤ 2 ^ 31 - 256)
    (hint : rows * cols < 2 ^ 31) (hsame : SameOrApart inp out (rows * cols))
    (hweight : ParamFits ⟨weight, cols⟩ out (rows * cols) cols)
    (hbias : ParamFits ⟨bias, cols⟩ out (rows * cols) cols) :
    Matches (launch_layer_norm (fun x => 1 / sqrt x) out inp weight bias rows cols eps)
      (ref.layer_norm_f32 sqrt ⟨some inp, rows * cols⟩ ⟨weight, cols⟩ ⟨bias, cols⟩
        ⟨some out, rows * cols⟩ rows cols eps) m := by
  have hfit := rowsFit hint hsame
  have hwrites : WritesRows ⟨rows, 256⟩ _ out rows cols 2048 (· % 256) _ :=
    layer_writesRows (fun x => 1 / sqrt x) eps rfl rfl hcols hint hsame hweight hbias
  let row : Nat → K := mapRows (fun v => rowLayerNorm sqrt eps v
    (paramNumbers ⟨weight, cols⟩ 1 (globals m)) (paramNumbers ⟨bias, cols⟩ 0 (globals m)) cols)
    (globals m) inp cols
  obtain ⟨s, hs, hbytes, hmem⟩ := exists_ends_of_rows (f := row) (show 0 < 256 by decide) rfl hwrites m
    fun b (hb : b < rows) c hc => by
      have hrow := RowMajor.row_end_le cols hb
      have hindex : row (b * cols + c) = _ := mapRows_index _ _ _ hc
      have hinput := hfit.input_eq hb (globals m) row
      have hmean : rowMean (fun j => overwrite (globals m) out (b * cols) row (inp + (b * cols + j)))
          cols = rowMean (fun j => globals m (inp + (b * cols + j))) cols := by
        unfold rowMean
        rw [sum_row_overwrite hfit hb (globals m) row fun v => v]
      have hsum := sum_row_overwrite hfit hb (globals m) row fun v => v * v
      rw [hsum, hmean, hinput c hc, paramNumbers_overwrite hweight (by omega) hc,
        paramNumbers_overwrite hbias (by omega) hc, rowVar_eq _ hpos, hindex]
      rfl
  refine ⟨s, hs, hbytes, ?_⟩
  rw [ref.layer_norm_f32_eq hfit hweight hbias, hmem]

omit [Field K] in
/-- A first loop that does not end. -/
theorem not_ends_of_loop {S : Type} {g : Simt.Launch} {kernel : Nat → Nat → Simt.Thread Loc K Unit}
    {s : State Loc K} (hgrid : 0 < g.gridDim) (hdim : g.blockDim = 256)
    (hcols : 2 ^ 31 - 256 < cols) (hlt : cols < 2 ^ 31) {body : Int → S → Simt.Thread Loc K S} {x : S}
    {k : S → Simt.Thread Loc K Unit} (hkernel : kernel 0 0 = row_loop cols g 0 body x >>= k) :
    ¬ Ends g kernel m s := by
  intro hs
  have hloop : (row_loop cols g 0 body x).Must fun _ _ => False :=
    must_loop (rounds_row_none hdim hcols hlt) x
  obtain ⟨e, -, -, -, hfalse⟩ := exists_event_of_must hgrid (hdim ▸ by decide : 0 < g.blockDim)
    (hkernel ▸ hloop.bind_left k) hs
  exact hfalse

theorem not_rms_matches {rsqrtf : K → K} {f : (Nat → K) → Option (Nat → K)} (hrows : 1 ≤ rows)
    (hcols : 2 ^ 31 - 256 < cols) (hlt : cols < 2 ^ 31) :
    ¬ Matches (launch_rms_norm rsqrtf out inp weight rows cols eps) f m := by
  rintro ⟨s, hs, -⟩
  exact not_ends_of_loop (g := ⟨rows, 256⟩) hrows rfl hcols hlt
    (congrFun (rms_norm_kernel_eq (g := ⟨rows, 256⟩) rsqrtf out inp weight cols eps rfl hrows) 0) hs

theorem not_layer_matches {rsqrtf : K → K} {f : (Nat → K) → Option (Nat → K)} (hrows : 1 ≤ rows)
    (hcols : 2 ^ 31 - 256 < cols) (hlt : cols < 2 ^ 31) :
    ¬ Matches (launch_layer_norm rsqrtf out inp weight bias rows cols eps) f m := by
  rintro ⟨s, hs, -⟩
  exact not_ends_of_loop (g := ⟨rows, 256⟩) hrows rfl hcols hlt
    (congrFun (layer_norm_kernel_eq (g := ⟨rows, 256⟩) rsqrtf out inp weight bias cols eps hrows) 0) hs

end Host

/-- Both kernels do what the functions on the host do, as long as the counter of a row stays below
`2^31` behind the last column. -/
theorem norms_match_iff {out inp rows cols : Nat} {weight bias : Option Nat} (hrows : 1 ≤ rows)
    (hcols : 1 ≤ cols) (hint : rows * cols < 2 ^ 31) (hsame : SameOrApart inp out (rows * cols))
    (hweight : ParamFits ⟨weight, cols⟩ out (rows * cols) cols)
    (hbias : ParamFits ⟨bias, cols⟩ out (rows * cols) cols) (eps : ℝ) (m : Loc → ℝ) :
    (Matches (launch_layer_norm (fun x => 1 / √x) out inp weight bias rows cols eps)
        (ref.layer_norm_f32 Real.sqrt ⟨some inp, rows * cols⟩ ⟨weight, cols⟩ ⟨bias, cols⟩
          ⟨some out, rows * cols⟩ rows cols eps) m ↔ cols ≤ 2 ^ 31 - 256) ∧
      (Matches (launch_rms_norm (fun x => 1 / √x) out inp weight rows cols eps)
        (ref.rms_norm_f32 Real.sqrt ⟨some inp, rows * cols⟩ ⟨weight, cols⟩ ⟨some out, rows * cols⟩
          rows cols eps) m ↔ cols ≤ 2 ^ 31 - 256) := by
  have hlt : cols < 2 ^ 31 := (Nat.le_mul_of_pos_left cols hrows).trans_lt hint
  refine ⟨⟨fun h => ?_, fun h => layer_matches Real.sqrt hcols h hint hsame hweight hbias⟩,
    ⟨fun h => ?_, fun h => rms_matches Real.sqrt h hint hsame hweight⟩⟩
  · by_contra hlong
    exact not_layer_matches hrows (by omega) hlt h
  · by_contra hlong
    exact not_rms_matches hrows (by omega) hlt h

theorem two_rows_are_normalized :
    Matches (launch_layer_norm (fun x => 1 / √x) 0 6 (some 12) none 2 3 1)
        (ref.layer_norm_f32 Real.sqrt ⟨some 6, 6⟩ ⟨some 12, 3⟩ ⟨none, 3⟩ ⟨some 0, 6⟩ 2 3 1) (fun _ => 1) ∧
      Matches (launch_rms_norm (fun x => 1 / √x) 0 6 (some 12) 2 3 1)
        (ref.rms_norm_f32 Real.sqrt ⟨some 6, 6⟩ ⟨some 12, 3⟩ ⟨some 0, 6⟩ 2 3 1) (fun _ => 1) := by
  have hweight : ParamFits ⟨some 12, 3⟩ 0 (2 * 3) 3 := by
    intro data hdata
    obtain rfl : 12 = data := Option.some.inj hdata
    exact ⟨le_rfl, Or.inr (by decide)⟩
  have hsame : SameOrApart 6 0 (2 * 3) := Or.inr (Or.inr (by decide))
  have hboth := norms_match_iff (by decide : 1 ≤ 2) (by decide : 1 ≤ 3) (by decide) hsame hweight
    (nofun : ParamFits ⟨none, 3⟩ 0 (2 * 3) 3) 1 fun _ => 1
  exact ⟨hboth.1.mpr (by decide), hboth.2.mpr (by decide)⟩

/-- The counter gets to `2^31 - 256`, and from there to `-2^31`. -/
theorem a_long_row_is_not_normalized :
    ¬ Matches (launch_layer_norm (fun x => 1 / √x) 0 (2 ^ 31) none none 1 (2 ^ 31 - 1) 1)
        (ref.layer_norm_f32 Real.sqrt ⟨some (2 ^ 31), 2 ^ 31 - 1⟩ ⟨none, 0⟩ ⟨none, 0⟩
          ⟨some 0, 2 ^ 31 - 1⟩ 1 (2 ^ 31 - 1) 1) (fun _ => 1) ∧
      ¬ Matches (launch_rms_norm (fun x => 1 / √x) 0 (2 ^ 31) none 1 (2 ^ 31 - 1) 1)
        (ref.rms_norm_f32 Real.sqrt ⟨some (2 ^ 31), 2 ^ 31 - 1⟩ ⟨none, 0⟩ ⟨some 0, 2 ^ 31 - 1⟩
          1 (2 ^ 31 - 1) 1) (fun _ => 1) :=
  ⟨not_layer_matches le_rfl (by decide) (by decide), not_rms_matches le_rfl (by decide) (by decide)⟩

end sci.cuda.kernels
