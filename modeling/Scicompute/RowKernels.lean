-- What the kernels on rows have in common (cuda/kernels/softmax.cu, layernorm.cu): one block of 256
-- threads for each row, whose threads go through the columns with an `int` counter and a stride.
import Scicompute.BlockReductions
import Scicompute.DeviceKernels
import Scicompute.Normalization

namespace sci.cuda

open Simt Simt.Thread Word int64.math

variable {V R S : Type}

/-- `p[row * cols + i]`. An index that overflows or is negative is not one of the array. -/
def element (p row : Nat) (cols i : Int) : Option Loc :=
  (index row cols i).bind fun k => if 0 ≤ k then some (.global (p + k.toNat)) else none

/-- An access, if there is a location. -/
def at_location (o : Option Loc) (access : Loc → Simt.Thread Loc V R) : Simt.Thread Loc V R :=
  match o with
  | some loc => access loc
  | none => .undefined

def load_element (p row : Nat) (cols i : Int) : Simt.Thread Loc V V :=
  at_location (element p row cols i) load

def store_element (p row : Nat) (cols i : Int) (v : V) : Simt.Thread Loc V Unit :=
  at_location (element p row cols i) fun loc => store loc v

/-- `p ? p[i] : v` -/
def load_param (p : Option Nat) (v : V) (i : Int) : Simt.Thread Loc V V :=
  match p with
  | none => pure v
  | some a => at_location (if 0 ≤ i then some (.global (a + i.toNat)) else none) load

/-- `for (int i = threadIdx.x; i < cols; i += blockDim.x)`. The sum is unsigned, and is converted back
to `int`. -/
def row_loop (cols : Int) (g : Simt.Launch) (tid : Nat) (body : Int → S → Simt.Thread Loc V S) (x : S) :
    Simt.Thread Loc V S :=
  loop (fun i => decide (i < cols)) (fun i => narrow (i + g.blockDim)) body (2 ^ 32) (tid : Int) x

/-- The shared memory that the threads access is in the bytes of the launch. An element has 4 bytes. -/
def InSharedBytes (bytes : Nat) (log : Multiset (Event Loc)) : Prop :=
  ∀ e ∈ log, ∀ b i, e.loc = .shared b i → i * 4 + 4 ≤ bytes

/-- The numbers of the global memory. -/
def globals (m : Loc → V) (a : Nat) : V := m (.global a)

variable {g : Simt.Launch} {p row cols c t : Nat} {m m' : Loc → V}

/-! ## Accesses -/

theorem element_eq (h : row * cols + c < 2 ^ 31) :
    element p row cols c = some (.global (p + (row * cols + c))) := by
  unfold element
  rw [index_natCast, if_pos h, Option.bind_some, if_pos (Int.natCast_nonneg _), Int.toNat_natCast]

theorem exec_load_element (h : row * cols + c < 2 ^ 31) (m : Loc → V) :
    Exec (load_element p row cols c) m [(.global (p + (row * cols + c)), false)]
      (done (m (.global (p + (row * cols + c))))) m := by
  unfold load_element
  rw [element_eq h]
  exact exec_load _ m

theorem exec_store_element (h : row * cols + c < 2 ^ 31) (v : V) (m : Loc → V) :
    Exec (store_element p row cols c v) m [(.global (p + (row * cols + c)), true)] (done ())
      (Function.update m (.global (p + (row * cols + c))) v) := by
  unfold store_element
  rw [element_eq h]
  exact exec_store _ v m

/-- The accesses of a parameter. -/
def paramAccesses (w : Option Nat) (c : Nat) : List (Loc × Bool) :=
  w.toList.map fun a => (.global (a + c), false)

theorem mem_paramAccesses {w : Option Nat} {loc : Loc} {isWrite : Bool}
    (h : (loc, isWrite) ∈ paramAccesses w c) :
    ∃ a, w = some a ∧ loc = .global (a + c) ∧ isWrite = false := by
  cases w with
  | none => cases h
  | some a => exact ⟨a, rfl, Prod.mk.inj (List.mem_singleton.mp h)⟩

theorem exec_load_param (w : Option Nat) (n : Nat) (v : V) (c : Nat) (m : Loc → V) :
    Exec (load_param w v c) m (paramAccesses w c)
      (done (paramNumbers ⟨w, n⟩ v (globals m) c)) m := by
  cases w with
  | none => exact Exec.refl _ _
  | some a =>
    unfold load_param at_location
    dsimp only
    rw [if_pos (Int.natCast_nonneg c), Int.toNat_natCast]
    exact exec_load _ m

/-! ## The loop -/

theorem rounds_row (hdim : g.blockDim = 256) (hcols : cols ≤ 2 ^ 31 - 256) (t : Nat) :
    rounds (fun i : Int => decide (i < cols)) (fun i => narrow (i + g.blockDim)) (2 ^ 32) (t : Int) =
      some ((strided t 256 cols).map fun k : Nat => (k : Int)) := by
  refine rounds_strided (fun k : Nat => (k : Int)) (by decide) (fun i => ?_) (fun i hi => ?_) (by omega)
  · exact decide_eq_decide.mpr Int.ofNat_lt
  · rw [hdim, narrow_of_range (by omega) (by omega)]
    push_cast
    rfl

/-- The counter of the first thread never gets to such a length. -/
theorem rounds_row_none (hdim : g.blockDim = 256) (hcols : 2 ^ 31 - 256 < cols) (hlt : cols < 2 ^ 31) :
    rounds (fun i : Int => decide (i < cols)) (fun i => narrow (i + g.blockDim)) (2 ^ 32)
      ((0 : Nat) : Int) = none := by
  refine rounds_eq_none (J := fun i => i % 256 = 0 ∧ -2 ^ 31 ≤ i ∧ i < 2 ^ 31) (fun i hi => ?_) ?_ _
  · have hrange := narrow_range (i + g.blockDim)
    have hmod : narrow (i + g.blockDim) % 256 = 0 := by
      unfold narrow
      rw [hdim, Int.bmod_def]
      split_ifs <;> omega
    refine ⟨decide_eq_true ?_, hmod, hrange⟩
    omega
  · decide

variable {body : Int → S → Simt.Thread Loc V S} {x : S}

/-- A loop that leaves the memory as it is. -/
theorem exec_row_loop {A : Nat → List (Loc × Bool)} {f : S → Nat → S} (hdim : g.blockDim = 256)
    (hcols : cols ≤ 2 ^ 31 - 256)
    (h : ∀ c < cols, ∀ x, Exec (body c x) m (A c) (done (f x c)) m) (t : Nat) (x : S) :
    Exec (row_loop cols g t body x) m ((strided t 256 cols).flatMap A)
      (done ((strided t 256 cols).foldl f x)) m :=
  exec_loop (rounds_row hdim hcols t) (Chain.map (chain_of_read (fun c hc x =>
    h c ((mem_strided (by decide)).mp hc).2.1 x) x))

/-- A loop that changes the memory. -/
theorem exists_row_loop {A : Nat → List (Loc × Bool)} {I : List Nat → (Loc → V) → Prop}
    (hdim : g.blockDim = 256) (hcols : cols ≤ 2 ^ 31 - 256) (h0 : I [] m)
    (h : ∀ (pre : List Nat) (c : Nat) (post : List Nat), strided t 256 cols = pre ++ c :: post →
      ∀ m, I pre m → ∃ m', Exec (body c x) m (A c) (done x) m' ∧ I (pre ++ [c]) m') :
    ∃ m', Exec (row_loop cols g t body x) m ((strided t 256 cols).flatMap A) (done x) m' ∧
      I (strided t 256 cols) m' := by
  obtain ⟨m', hchain, hI⟩ := exists_chain h0 h
  exact ⟨m', exec_loop (rounds_row hdim hcols t) hchain.map, hI⟩

/-! ## The row that a block writes -/

/-- Column `c` of the row. -/
def rowCell (out row cols c : Nat) : Loc := .global (out + (row * cols + c))

theorem rowCell_injective (out row cols : Nat) : Function.Injective (rowCell out row cols) := by
  intro c c' h
  have := Loc.global.inj h
  omega

variable {out : Nat} {f : Nat → V} {A : Nat → List (Loc × Bool)}
  {body : Int → Unit → Simt.Thread Loc V Unit}

/-- Each round writes its column. -/
theorem exists_row_writes (hdim : g.blockDim = 256) (hcols : cols ≤ 2 ^ 31 - 256) (ht : t < 256)
    {m1 : Loc → V} (hm1 : Simt.Stored (rowCell out row cols) (fun c => c < cols ∧ c % 256 < t) f m m1)
    (h : ∀ c < cols, ∀ (W : Nat → Prop) m2, ¬ W c → (∀ j, W j → j < cols) →
      Simt.Stored (rowCell out row cols) W f m m2 →
      Exec (body c ()) m2 (A c) (done ()) (Function.update m2 (rowCell out row cols c) (f c))) :
    ∃ m2, Exec (row_loop cols g t body ()) m1 ((strided t 256 cols).flatMap A) (done ()) m2 ∧
      Simt.Stored (rowCell out row cols) (fun c => c < cols ∧ c % 256 < t + 1) f m m2 := by
  have hmem : ∀ c, c ∈ strided t 256 cols ↔ c < cols ∧ c % 256 = t := fun c => mem_strided_of_lt ht
  obtain ⟨m2, hexec, hm2⟩ := exists_row_loop (A := A) (x := ()) (t := t)
    (I := fun pre m' => Simt.Stored (rowCell out row cols)
      (fun c => (c < cols ∧ c % 256 < t) ∨ c ∈ pre) f m m') hdim hcols
    (hm1.congr fun c => by simp) fun pre c post hsplit m2 hm2 => by
      have hc := (hmem c).mp (hsplit ▸ List.mem_append_right pre (List.mem_cons_self ..))
      have hnodup : (pre ++ c :: post).Nodup := hsplit ▸ nodup_strided (by decide)
      have hnew : ¬ ((c < cols ∧ c % 256 < t) ∨ c ∈ pre) := by
        rintro (hold | hold)
        · omega
        · exact List.disjoint_of_nodup_append hnodup hold (List.mem_cons_self ..)
      have hlt : ∀ j, (j < cols ∧ j % 256 < t) ∨ j ∈ pre → j < cols := by
        rintro j (hold | hold)
        · exact hold.1
        · exact ((hmem j).mp (hsplit ▸ List.mem_append_left _ hold)).1
      refine ⟨_, h c hc.1 _ m2 hnew hlt hm2, (hm2.update (rowCell_injective out row cols) c).congr
        fun j => ?_⟩
      rw [List.mem_append, List.mem_singleton, or_assoc]
  refine ⟨m2, hexec, hm2.congr fun c => ?_⟩
  rw [hmem]
  omega

variable {rows : Nat} {W : Nat → Prop} {m2 : Loc → V}

/-- A column of the input that is not yet written. -/
theorem stored_input (hrow : row < rows) (hsame : SameOrApart p out (rows * cols)) (hc : c < cols)
    (hnew : ¬ W c) (hlt : ∀ j, W j → j < cols) (h : Simt.Stored (rowCell out row cols) W f m m2) :
    m2 (.global (p + (row * cols + c))) = m (.global (p + (row * cols + c))) := by
  have hend := RowMajor.row_end_le cols hrow
  rcases hsame with rfl | hapart
  · exact h.cell_eq (rowCell_injective p row cols) hnew
  · unfold BlockMemory.Apart at hapart
    refine h.2 _ fun j hj heq => ?_
    have hj := hlt j hj
    have := Loc.global.inj heq
    omega

/-- A parameter is not written. -/
theorem stored_param {w : Option Nat} {n : Nat} (hrow : row < rows)
    (hw : ParamFits ⟨w, n⟩ out (rows * cols) cols) (hc : c < cols) (hlt : ∀ j, W j → j < cols)
    (h : Simt.Stored (rowCell out row cols) W f m m2) (v : V) :
    paramNumbers ⟨w, n⟩ v (globals m2) c = paramNumbers ⟨w, n⟩ v (globals m) c := by
  have hend := RowMajor.row_end_le cols hrow
  cases w with
  | none => rfl
  | some a =>
    obtain ⟨-, hapart⟩ := hw a rfl
    unfold BlockMemory.Apart at hapart
    refine h.2 (.global (a + c)) fun j hj heq => ?_
    have hj := hlt j hj
    have := Loc.global.inj heq
    omega

/-- Row `row` is the one of block `row`. -/
def rowHome (out rows cols : Nat) : Loc → Option Nat
  | .global a => if out ≤ a ∧ a < out + rows * cols then some ((a - out) / cols) else none
  | .shared b _ => some b

/-- In the epoch 0 the threads `first` store to the shared memory, and in the epoch 1 the first thread.
The row is written in the epoch 2. -/
def rowOwner (first : Nat → Nat) (out rows cols n : Nat) : Loc → Option Nat
  | .global a =>
    if n = 2 ∧ out ≤ a ∧ a < out + rows * cols then some ((a - out) % cols % 256) else none
  | .shared _ j => if n = 0 then some (first j) else if n = 1 then some 0 else none

variable {b : Nat} {first : Nat → Nat} {ev : Event Loc}

theorem owner_of_row (first : Nat → Nat) (out : Nat) (hb : b < rows) (hc : c < cols) :
    rowHome out rows cols (rowCell out b cols c) = some b ∧
      rowOwner first out rows cols 2 (rowCell out b cols c) = some (c % 256) := by
  have hend := RowMajor.row_end_le cols hb
  have hdiv : (b * cols + c) / cols = b := by
    rw [Nat.mul_comm, Nat.mul_add_div (by omega), Nat.div_eq_of_lt hc, Nat.add_zero]
  have hmod : (b * cols + c) % cols = c := by
    rw [Nat.mul_comm, Nat.mul_add_mod, Nat.mod_eq_of_lt hc]
  unfold rowCell
  constructor
  · rw [rowHome, if_pos (by omega), Nat.add_sub_cancel_left, hdiv]
  · rw [rowOwner, if_pos ⟨rfl, by omega, by omega⟩, Nat.add_sub_cancel_left, hmod]

theorem owned_of_row_write (hb : b < rows) (hc : c < cols) (hblock : ev.block = b)
    (hepoch : ev.epoch = 2) (htid : c % 256 = ev.tid) (hloc : ev.loc = rowCell out b cols c) :
    Owned (rowHome out rows cols) (rowOwner first out rows cols) ev := by
  obtain ⟨hhome, howner⟩ := owner_of_row first out hb hc
  unfold Owned
  rw [hloc, hblock, hepoch, hhome, howner, htid]
  exact ⟨Or.inl rfl, Or.inl rfl⟩

/-- A thread reads what it writes, or what nobody writes. -/
theorem owned_of_row_read (hb : b < rows) (hc : c < cols) (hsame : SameOrApart p out (rows * cols))
    (hblock : ev.block = b) (hepoch : ev.epoch = 0 ∨ ev.epoch = 2) (htid : c % 256 = ev.tid)
    (hloc : ev.loc = .global (p + (b * cols + c))) (hread : ev.isWrite = false) :
    Owned (rowHome out rows cols) (rowOwner first out rows cols) ev := by
  have hend := RowMajor.row_end_le cols hb
  rcases hsame with rfl | hapart
  · obtain ⟨hhome, howner⟩ := owner_of_row first p hb hc
    unfold rowCell at hhome howner
    unfold Owned
    rw [hloc, hblock, hhome]
    refine ⟨Or.inl rfl, ?_⟩
    rcases hepoch with hepoch | hepoch
    · rw [hepoch, rowOwner, if_neg (by omega)]
      exact Or.inr ⟨rfl, hread⟩
    · rw [hepoch, howner, htid]
      exact Or.inl rfl
  · unfold BlockMemory.Apart at hapart
    unfold Owned
    rw [hloc]
    exact ⟨Or.inr ⟨if_neg (by omega), hread⟩, Or.inr ⟨if_neg (by omega), hread⟩⟩

theorem owned_of_param_read {w : Option Nat} {n : Nat} (hw : ParamFits ⟨w, n⟩ out (rows * cols) cols)
    (hc : c < cols) (hmem : (ev.loc, ev.isWrite) ∈ paramAccesses w c) :
    Owned (rowHome out rows cols) (rowOwner first out rows cols) ev := by
  obtain ⟨a, ha, hloc, hread⟩ := mem_paramAccesses hmem
  obtain ⟨-, hapart⟩ := hw a ha
  unfold BlockMemory.Apart at hapart
  unfold Owned
  rw [hloc]
  exact ⟨Or.inr ⟨if_neg (by omega), hread⟩, Or.inr ⟨if_neg (by omega), hread⟩⟩

/-- An event that does not race, and is in the bytes of the launch. -/
def Allowed (first : Nat → Nat) (out rows cols bytes : Nat) (ev : Event Loc) : Prop :=
  Owned (rowHome out rows cols) (rowOwner first out rows cols) ev ∧
    ∀ b i, ev.loc = .shared b i → i * 4 + 4 ≤ bytes

variable {bytes : Nat}

theorem allowed_of_global {a : Nat} (hloc : ev.loc = .global a)
    (h : Owned (rowHome out rows cols) (rowOwner first out rows cols) ev) :
    Allowed first out rows cols bytes ev :=
  ⟨h, fun _ _ hshared => nomatch hloc.symm.trans hshared⟩

theorem allowed_of_shared {i : Nat} (hloc : ev.loc = .shared b i) (hblock : ev.block = b)
    (hbytes : i * 4 + 4 ≤ bytes)
    (howner : rowOwner first out rows cols ev.epoch (.shared b i) = some ev.tid ∨
      rowOwner first out rows cols ev.epoch (.shared b i) = none ∧ ev.isWrite = false) :
    Allowed first out rows cols bytes ev := by
  unfold Allowed Owned
  rw [hloc, hblock]
  refine ⟨⟨Or.inl rfl, howner⟩, fun b' i' heq => ?_⟩
  rwa [← (Loc.shared.inj heq).2]

/-- In the epoch 1 the first thread has the shared memory. -/
theorem allowed_of_first {i : Nat} (hblock : ev.block = b)
    (hepoch : ev.epoch = 1) (htid : ev.tid = 0) (hloc : ev.loc = .shared b i)
    (hbytes : i * 4 + 4 ≤ bytes) : Allowed first out rows cols bytes ev := by
  refine allowed_of_shared hloc hblock hbytes (Or.inl ?_)
  rw [hepoch, htid, rowOwner, if_neg (by decide), if_pos rfl]

/-- In the epoch 2 the shared memory is only read. -/
theorem allowed_of_shared_read {i : Nat} (hblock : ev.block = b)
    (hepoch : ev.epoch = 2) (hread : ev.isWrite = false) (hloc : ev.loc = .shared b i)
    (hbytes : i * 4 + 4 ≤ bytes) : Allowed first out rows cols bytes ev := by
  refine allowed_of_shared hloc hblock hbytes (Or.inr ⟨?_, hread⟩)
  rw [hepoch, rowOwner, if_neg (by decide), if_neg (by decide)]

/-- The columns of the row that the thread `t` reads. -/
def columnReads (p row cols t : Nat) : List (Loc × Bool) :=
  (strided t 256 cols).flatMap fun c => [(.global (p + (row * cols + c)), false)]

/-- The columns are read in the epoch 0, in which nothing is written to the row. -/
theorem allowed_of_columnReads {d : Nat} (hd : d ≤ 256) (hb : b < rows)
    (hsame : SameOrApart p out (rows * cols))
    (h : ev ∈ ∑ t ∈ Finset.range d, events b t 0 (columnReads p b cols t)) :
    Allowed first out rows cols bytes ev := by
  obtain ⟨hblock, htid, hepoch, hmem⟩ := mem_sum_events.mp h
  obtain ⟨c, hc, hmem⟩ := List.mem_flatMap.mp hmem
  obtain ⟨hloc, hread⟩ := Prod.mk.inj (List.mem_singleton.mp hmem)
  obtain ⟨hlt, hmod⟩ := (mem_strided_of_lt (by omega : ev.tid < 256)).mp hc
  exact allowed_of_global hloc
    (owned_of_row_read hb hlt hsame hblock (Or.inl hepoch) hmod hloc hread)

/-- The read of a column and the write to it in the epoch 2. -/
theorem allowed_of_column (hb : b < rows) (hc : c < cols) (hsame : SameOrApart p out (rows * cols))
    (hblock : ev.block = b) (hepoch : ev.epoch = 2) (htid : c % 256 = ev.tid)
    (h : (ev.loc, ev.isWrite) ∈
      [(Loc.global (p + (b * cols + c)), false), (rowCell out b cols c, true)]) :
    Allowed first out rows cols bytes ev := by
  rcases List.mem_cons.mp h with hread | hwrite
  · obtain ⟨hloc, hread⟩ := Prod.mk.inj hread
    exact allowed_of_global hloc (owned_of_row_read hb hc hsame hblock (Or.inr hepoch) htid hloc hread)
  · obtain ⟨hloc, -⟩ := Prod.mk.inj (List.mem_singleton.mp hwrite)
    exact allowed_of_global hloc (owned_of_row_write hb hc hblock hepoch htid hloc)

theorem allowed_of_param {w : Option Nat} {n : Nat} (hw : ParamFits ⟨w, n⟩ out (rows * cols) cols)
    (hc : c < cols) (hmem : (ev.loc, ev.isWrite) ∈ paramAccesses w c) :
    Allowed first out rows cols bytes ev := by
  obtain ⟨a, -, hloc, -⟩ := mem_paramAccesses hmem
  exact allowed_of_global hloc (owned_of_param_read hw hc hmem)

/-! ## The grid -/

/-- Each block writes its row from the memory before, in the bytes of the launch. -/
def WritesRows (g : Simt.Launch) (kernel : Nat → Nat → Simt.Thread Loc V Unit) (out rows cols bytes : Nat)
    (first : Nat → Nat) (value : (Nat → V) → Nat → Nat → V) : Prop :=
  ∀ b < g.gridDim, ∀ m : Loc → V, ∃ F m' n', BlockRun g b (kernel b) m 0 F (fun _ => done ()) m' n' ∧
    (∀ ev ∈ F, Allowed first out rows cols bytes ev) ∧
    (∀ c < cols, m' (rowCell out b cols c) = value (globals m) b c) ∧
    ∀ a, (∀ c < cols, a ≠ out + (b * cols + c)) → m' (.global a) = m (.global a)

theorem exists_ends_of_rows {kernel : Nat → Nat → Simt.Thread Loc V Unit}
    {value : (Nat → V) → Nat → Nat → V} (hdim : 0 < g.blockDim) (hgrid : g.gridDim = rows)
    (h : WritesRows g kernel out rows cols bytes first value) (m : Loc → V) {f : Nat → V}
    (hvalue : ∀ b < rows, ∀ c < cols,
      value (overwrite (globals m) out (b * cols) f) b c = f (b * cols + c)) :
    ∃ s, Ends g kernel m s ∧ InSharedBytes bytes s.log ∧
      globals s.mem = overwrite (globals m) out (rows * cols) f := by
  let I : Nat → (Loc → V) → Multiset (Event Loc) → Prop := fun b m1 F =>
    (∀ ev ∈ F, Allowed first out rows cols bytes ev) ∧ globals m1 = overwrite (globals m) out (b * cols) f
  have h0 : I 0 m 0 := by
    refine ⟨fun ev hev => absurd hev (Multiset.notMem_zero ev), ?_⟩
    rw [Nat.zero_mul, overwrite_zero]
  have hblock : ∀ b < g.gridDim, ∀ m1 F, I b m1 F → ∃ F' m' n',
      BlockRun g b (kernel b) m1 0 F' (fun _ => done ()) m' n' ∧ I (b + 1) m' (F + F') := by
    rintro b hb m1 F ⟨hallowed, hm1⟩
    obtain ⟨F', m', n', hrun, hallowed', hrow, hrest⟩ := h b hb m1
    refine ⟨F', m', n', hrun, fun ev hev => ?_, funext fun a => ?_⟩
    · rcases Multiset.mem_add.mp hev with hev | hev
      · exact hallowed ev hev
      · exact hallowed' ev hev
    · rw [Nat.succ_mul]
      by_cases ha : ∃ c < cols, a = out + (b * cols + c)
      · obtain ⟨c, hc, rfl⟩ := ha
        rw [overwrite_inside _ _ _ (by omega), ← hvalue b (hgrid ▸ hb) c hc, ← hm1]
        exact hrow c hc
      · push Not at ha
        have hkeep : globals m' a = globals m1 a := hrest a ha
        rw [hkeep, hm1]
        unfold overwrite
        have hsame : (out ≤ a ∧ a < out + b * cols) ↔ out ≤ a ∧ a < out + (b * cols + cols) := by
          constructor
          · omega
          · rintro ⟨hle, hlt⟩
            refine ⟨hle, ?_⟩
            by_contra hge
            exact ha (a - out - b * cols) (by omega) (by omega)
        rw [if_congr hsame rfl rfl]
  obtain ⟨s, hs, hallowed, hmem⟩ := exists_ends hdim h0 hblock fun m1 F hI =>
    noRace_of_owned fun ev hev => (hI.1 ev hev).1
  rw [hgrid] at hmem
  exact ⟨s, hs, fun ev hev => (hallowed ev hev).2, hmem⟩

end sci.cuda
