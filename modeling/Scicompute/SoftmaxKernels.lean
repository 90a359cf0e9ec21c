-- Softmax and its logarithm on the device (cuda/kernels/softmax.cu, 30-188): one block for each
-- row, with two reductions in one dynamic shared memory. The kernel puts the maxima at its beginning
-- and the sums behind them, and the launch asks for one element behind the maxima.
import Mathlib.Analysis.SpecialFunctions.Log.ENNRealLog
import Mathlib.Analysis.SpecialFunctions.Log.ERealExp
import Scicompute.RowKernels
import Scicompute.Softmax

namespace sci.cuda.kernels

open Simt Simt.Thread

section Kernels

variable {V : Type}

/-- `shared_max` -/
def shared_max (block i : Nat) : Loc := .shared block i

/-- `shared_sum`, at the byte `(blockDim.x / 32) * sizeof(T)` -/
def shared_sum (g : Simt.Launch) (block i : Nat) : Loc := .shared block (g.blockDim / 32 + i)

/-- The reduction of the warps, and of their values by the first thread. It is the same for the maximum
and for the sum. -/
def row_reduce (op : V → V → V) (cell : Nat → Loc) (g : Simt.Launch) (tid : Nat) (val : V) :
    Simt.Thread Loc V V := do
  let val ← warp_reduce op val
  lane_store cell tid val
  barrier
  when (tid = 0) do
    let val ← load (cell 0)
    let val ← serial_reduce op cell 1 ((g.blockDim + 32 - 1) / 32) val
    store (cell 0) val
  barrier
  load (cell 0)

variable [Max V] [Bot V] [Zero V] [One V] [Add V] [Sub V] [Mul V] [Div V]

/-- `-HUGE_VALF` is the least value. -/
def row_max (inp : Nat) (cols : Int) (g : Simt.Launch) (blockIdx threadIdx : Nat) :
    Simt.Thread Loc V V := do
  let max_val ← row_loop cols g threadIdx (fun i max_val => do
    let x ← load_element inp blockIdx cols i
    return max max_val x) ⊥
  row_reduce max (shared_max blockIdx) g threadIdx max_val

/-- `tiny` is `static_cast<T>(1e-10)`. -/
def softmax_kernel (expf : V → V) (tiny : V) (inp out : Nat) (rows cols : Int) (g : Simt.Launch)
    (blockIdx threadIdx : Nat) : Simt.Thread Loc V Unit :=
  if rows ≤ blockIdx then done () else do
    let max_val ← row_max inp cols g blockIdx threadIdx
    let exp_sum ← row_loop cols g threadIdx (fun i exp_sum => do
      let x ← load_element inp blockIdx cols i
      let exp_val := expf (x - max_val)
      store_element out blockIdx cols i exp_val
      return exp_sum + exp_val) 0
    let exp_sum ← row_reduce (· + ·) (shared_sum g blockIdx) g threadIdx exp_sum
    let inv_sum := 1 / (exp_sum + tiny)
    row_loop cols g threadIdx (fun i _ => do
      let y ← load_element out blockIdx cols i
      store_element out blockIdx cols i (y * inv_sum)) ()

def launch_softmax (expf : V → V) (tiny : V) (inp out rows cols : Nat) : KernelLaunch V :=
  ⟨⟨rows, 256⟩, (256 / 32 + 1) * 4, softmax_kernel expf tiny inp out rows cols⟩

def log_softmax_kernel (expf logf : V → V) (tiny : V) (inp out : Nat) (rows cols : Int)
    (g : Simt.Launch) (blockIdx threadIdx : Nat) : Simt.Thread Loc V Unit :=
  if rows ≤ blockIdx then done () else do
    let max_val ← row_max inp cols g blockIdx threadIdx
    let sum ← row_loop cols g threadIdx (fun i sum => do
      let x ← load_element inp blockIdx cols i
      return sum + expf (x - max_val)) 0
    let sum ← row_reduce (· + ·) (shared_sum g blockIdx) g threadIdx sum
    let log_sum := logf (sum + tiny) + max_val
    row_loop cols g threadIdx (fun i _ => do
      let x ← load_element inp blockIdx cols i
      store_element out blockIdx cols i (x - log_sum)) ()

def launch_log_softmax (expf logf : V → V) (tiny : V) (inp out rows cols : Nat) : KernelLaunch V :=
  ⟨⟨rows, 256⟩, (256 / 32 + 1) * 4, log_softmax_kernel expf logf tiny inp out rows cols⟩

end Kernels

/-! ## Rows of real numbers -/

noncomputable section

/-- The real exponential, which is 0 at `-HUGE_VALF`. -/
def expf (x : EReal) : EReal := EReal.exp x

def logf (x : EReal) : EReal := ENNReal.log x.toENNReal

def tiny : EReal := (1e-10 : ℝ)

/-- Element `c` of the softmax of a row of `n` numbers, with the summand of the kernel. -/
def guardedSoftmax (v : Nat → ℝ) (n c : Nat) : ℝ :=
  Real.exp (v c - math.rowMax v n) / (math.expSum Real.exp v n + 1e-10)

def guardedLogSoftmax (v : Nat → ℝ) (n c : Nat) : ℝ :=
  v c - (Real.log (math.expSum Real.exp v n + 1e-10) + math.rowMax v n)

end

/-- The row `r` of the input. -/
def inputRow (inp cols r : Nat) (m : Loc → EReal) (j : Nat) : ℝ :=
  (m (.global (inp + (r * cols + j)))).toReal

/-- All schedules end with the rows that `f` computes from those of the input. The accesses stay in
the shared memory of the launch, where no maximum shares an element with a sum. -/
def ComputesRows (c : KernelLaunch EReal) (f : (Nat → ℝ) → Nat → Nat → ℝ) (inp out rows cols : Nat)
    (m : Loc → EReal) : Prop :=
  ∃ n s, Transition.Settles (step c.dims) (launch c.threads m) s n ∧ Finished c.dims s ∧
    InSharedBytes c.shared_bytes s.log ∧
    (∀ r w w', w < c.dims.blockDim / 32 → shared_max r w ≠ shared_sum c.dims r w') ∧
    ∀ r < rows, ∀ i < cols,
      s.mem (.global (out + (r * cols + i))) = f (inputRow inp cols r m) cols i

/-! ## The sums are behind the shared memory -/

section Sums

variable {V : Type} {g : Simt.Launch} {b rows : Nat}

/-- The access of the first lane of the second warp, which stores the sum of its warp. -/
def OverrunBy (b : Nat) (loc : Loc) (isWrite : Bool) : Prop := loc = .shared b 9 ∧ isWrite = true

theorem must_row_reduce (hdim : g.blockDim = 256) (op : V → V → V) (val : V) :
    (row_reduce op (shared_sum g b) g 32 val).Must (OverrunBy b) := by
  refine Must.bind_right _ fun val => Must.bind_left ?_ _
  unfold lane_store shared_sum
  rw [hdim]
  exact Or.inl ⟨rfl, rfl⟩

variable [Max V] [Bot V] [Zero V] [One V] [Add V] [Sub V] [Mul V] [Div V]

theorem must_softmax (hdim : g.blockDim = 256) (hb : b < rows) (expf : V → V) (tiny : V)
    (inp out : Nat) (cols : Int) :
    (softmax_kernel expf tiny inp out rows cols g b 32).Must (OverrunBy b) := by
  unfold softmax_kernel
  rw [if_neg (by omega)]
  exact Must.bind_right _ fun max_val => Must.bind_right _ fun exp_sum =>
    (must_row_reduce hdim (· + ·) exp_sum).bind_left _

omit [One V] [Mul V] [Div V] in
theorem must_log_softmax (hdim : g.blockDim = 256) (hb : b < rows) (expf logf : V → V) (tiny : V)
    (inp out : Nat) (cols : Int) :
    (log_softmax_kernel expf logf tiny inp out rows cols g b 32).Must (OverrunBy b) := by
  unfold log_softmax_kernel
  rw [if_neg (by omega)]
  exact Must.bind_right _ fun max_val => Must.bind_right _ fun sum =>
    (must_row_reduce hdim (· + ·) sum).bind_left _

end Sums

/-- A launch with the bytes of nine elements. -/
theorem not_computesRows {c : KernelLaunch EReal} {f : (Nat → ℝ) → Nat → Nat → ℝ}
    {inp out rows cols : Nat} {m : Loc → EReal} (hgrid : 0 < c.dims.gridDim)
    (hdim : 32 < c.dims.blockDim) (hbytes : c.shared_bytes = 36)
    (hmust : (c.threads 0 32).Must (OverrunBy 0)) : ¬ ComputesRows c f inp out rows cols m := by
  rintro ⟨n, s, hsettles, hfinished, hshared, -⟩
  obtain ⟨as, hr⟩ := hsettles.exists_run
  obtain ⟨e, he, -, -, hloc, -⟩ := exists_event_of_run hmust hr (hfinished 0 hgrid 32 hdim)
  have := hshared e he 0 9 hloc
  omega

/-- Neither kernel stays in the shared memory of its launch, whatever the rows are. -/
theorem softmax_never_in_bounds {inp out rows cols : Nat} (hrows : 1 ≤ rows) (m : Loc → EReal) :
    ¬ ComputesRows (launch_softmax expf tiny inp out rows cols) guardedSoftmax inp out rows cols m ∧
      ¬ ComputesRows (launch_log_softmax expf logf tiny inp out rows cols) guardedLogSoftmax inp out rows
        cols m :=
  ⟨not_computesRows hrows (show 32 < 256 by decide) rfl (must_softmax rfl hrows expf tiny inp out cols),
    not_computesRows hrows (show 32 < 256 by decide) rfl
      (must_log_softmax rfl hrows expf logf tiny inp out cols)⟩

theorem three_rows_are_out_of_bounds :
    ¬ ComputesRows (launch_softmax expf tiny 0 3000 3 1000) guardedSoftmax 0 3000 3 1000 (fun _ => 0) ∧
      ¬ ComputesRows (launch_log_softmax expf logf tiny 0 3000 3 1000) guardedLogSoftmax 0 3000 3 1000
        (fun _ => 0) :=
  softmax_never_in_bounds (by decide) fun _ => 0

/-- Even for one number the second warp stores its sum behind the shared memory. -/
theorem one_number_is_out_of_bounds :
    ¬ ComputesRows (launch_softmax expf tiny 0 1 1 1) guardedSoftmax 0 1 1 1 (fun _ => 0) :=
  not_computesRows Nat.one_pos (show 32 < 256 by decide) rfl
    (must_softmax rfl Nat.one_pos expf tiny 0 1 1)

end sci.cuda.kernels
