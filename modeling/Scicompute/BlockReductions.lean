-- Reductions of a block of threads: in rounds with halved offsets, by the exchanges of each warp and by
-- a tree over the cells of a shared memory, and by a loop of one thread over the cells.
import Scicompute.Folding
import Scicompute.Strides

namespace Simt

open Thread

variable {L V : Type} [DecidableEq L]

/-- `for (; c > 0; c >>= 1)` -/
def halving : Nat → Bool := fun c => decide (0 < c)

/-- The rounds of a loop that begins with a power of two. -/
theorem rounds_halving (k : Nat) {fuel : Nat} (hfuel : k + 1 < fuel) :
    rounds halving (· / 2) fuel (2 ^ k) = some ((List.range (k + 1)).map fun j => 2 ^ k / 2 ^ j) := by
  have htest : ∀ j < k + 1, halving (2 ^ k / 2 ^ j) = true := by
    intro j hj
    have hpos : 0 < 2 ^ k / 2 ^ j :=
      Nat.div_pos (Nat.pow_le_pow_right (by decide) (by omega)) (by positivity)
    exact decide_eq_true hpos
  have hnext : ∀ j < k + 1, 2 ^ k / 2 ^ j / 2 = 2 ^ k / 2 ^ (j + 1) := by
    intro j _
    rw [Nat.div_div_eq_div_mul, pow_succ]
  have hend : halving (2 ^ k / 2 ^ (k + 1)) = false := by
    have hzero : 2 ^ k / 2 ^ (k + 1) = 0 :=
      Nat.div_eq_of_lt (Nat.pow_lt_pow_right (by decide) (Nat.lt_succ_self k))
    unfold halving
    rw [hzero]
    rfl
  have hrounds : rounds halving (· / 2) fuel (2 ^ k / 2 ^ 0) =
      some ((List.range (k + 1)).map fun j => 2 ^ k / 2 ^ j) :=
    rounds_eq_some htest hnext hend hfuel
  rwa [pow_zero, Nat.div_one] at hrounds

/-- The counter of a round that has these rounds before it. -/
theorem counter_of_split {C : Type} {a : Nat → C} {k : Nat} {pre post : List C} {c : C}
    (h : (List.range k).map a = pre ++ c :: post) : pre.length < k ∧ c = a pre.length := by
  have hlen : pre.length < k := by
    have := congrArg List.length h
    simp only [List.length_map, List.length_range, List.length_append, List.length_cons] at this
    omega
  have hget := congrArg (·[pre.length]?) h
  simp [hlen] at hget
  exact ⟨hlen, hget.symm⟩

/-- One round of the reduction of a warp. -/
def Thread.shfl_round (op : V → V → V) (offset : Nat) (val : V) : Thread L V V := do
  let other ← shfl val offset
  return op val other

/-- `for (int offset = 32 / 2; offset > 0; offset >>= 1) val = op(val, __shfl_down_sync(.., val,
offset));` An `int` is halved at most 32 times. -/
def Thread.warp_reduce (op : V → V → V) (val : V) : Thread L V V :=
  loop halving (· / 2) (shfl_round op) 32 16 val

variable {g : Launch} {b : Nat} {op : V → V → V} [Std.Commutative op] [Std.Associative op] {e : V}

omit [DecidableEq L] in
/-- A round folds the second half of the values that matter into the first one. -/
theorem fold_shuffled (he : ∀ a, op e a = a) (v : Nat → V) {d : Nat} (hd : d + d ≤ 32) (w : Nat) :
    (Finset.range d).fold op e (fun l => op (v (w * 32 + l)) (shuffled v d (w * 32 + l))) =
      (Finset.range (d + d)).fold op e fun l => v (w * 32 + l) := by
  rw [← Folding.fold_range_halve he]
  apply Finset.fold_congr
  intro l hl
  have hlt := Finset.mem_range.mp hl
  unfold shuffled
  rw [if_pos (by omega), Nat.add_assoc, Nat.add_comm l d]

/-- The first thread of each warp gets the values of all its threads. -/
theorem exists_warp_reduce (he : ∀ a, op e a = a) (hb : b < g.gridDim) (hwarps : 32 ∣ g.blockDim)
    (n : Nat) (m : L → V) (v : Nat → V) :
    ∃ v' : Nat → V, (∀ w, v' (w * 32) = (Finset.range 32).fold op e fun l => v (w * 32 + l)) ∧
      ∀ k : Nat → V → Thread L V Unit, BlockRun g b (fun t => warp_reduce op (v t) >>= k t) m n 0
        (fun t => k t (v' t)) m n := by
  -- in the rounds that are done, the values of a warp are folded into its first threads
  let I : List Nat → (Nat → V) → (L → V) → Nat → Multiset (Event L) → Prop :=
    fun pre v' m' n' F => m' = m ∧ n' = n ∧ F = 0 ∧ ∀ w,
      (Finset.range (32 / 2 ^ pre.length)).fold op e (fun l => v' (w * 32 + l)) =
        (Finset.range 32).fold op e fun l => v (w * 32 + l)
  have hrounds : rounds halving (· / 2) 32 16 = some ((List.range 5).map fun j => 2 ^ 4 / 2 ^ j) :=
    rounds_halving 4 (by decide)
  have hround : ∀ pre c post, (List.range 5).map (fun j => 2 ^ 4 / 2 ^ j) = pre ++ c :: post →
      ∀ x m1 n1 F, I pre x m1 n1 F → ∃ F' x' m' n', I (pre ++ [c]) x' m' n' (F + F') ∧
        ∀ k : Nat → V → Thread L V Unit, BlockRun g b (fun t => shfl_round op c (x t) >>= k t)
          m1 n1 F' (fun t => k t (x' t)) m' n' := by
    rintro pre c post hl x _ _ _ ⟨rfl, rfl, rfl, hfold⟩
    obtain ⟨hlen, rfl⟩ := counter_of_split hl
    refine ⟨0, fun t => op (x t) (shuffled x (2 ^ 4 / 2 ^ pre.length) t), _, _,
      ⟨rfl, rfl, rfl, fun w => ?_⟩, fun k => blockRun_of_shfl hb hwarps _ _ x _ _⟩
    have hhalf : 2 ^ 4 / 2 ^ pre.length + 2 ^ 4 / 2 ^ pre.length = 32 / 2 ^ pre.length ∧
        32 / 2 ^ (pre ++ [2 ^ 4 / 2 ^ pre.length]).length = 2 ^ 4 / 2 ^ pre.length := by
      rw [List.length_append, List.length_singleton]
      interval_cases pre.length <;> decide
    rw [← hfold w, hhalf.2, ← hhalf.1]
    refine fold_shuffled he x ?_ w
    rw [hhalf.1]
    exact Nat.div_le_self 32 _
  have h0 : I [] v m n 0 := ⟨rfl, rfl, rfl, fun w => rfl⟩
  obtain ⟨F, v', m', n', ⟨rfl, rfl, rfl, hfold⟩, hrun⟩ := exists_blockRun_loop hrounds h0 hround
  refine ⟨v', fun w => ?_, hrun⟩
  have hlast := hfold w
  rw [← hlast, List.length_map, List.length_range]
  change _ = (Finset.range 1).fold op e fun l => v' (w * 32 + l)
  have hcomm : ∀ a b, op a b = op b a := Std.Commutative.comm
  rw [Finset.range_one, Finset.fold_singleton, hcomm, he, Nat.add_zero]

/-- `if (t % 32 == 0) cell[t / 32] = val;` -/
def Thread.lane_store (cell : Nat → L) (t : Nat) (val : V) : Thread L V Unit :=
  when (t % 32 = 0) do
    store (cell (t / 32)) val

/-- The accesses of the thread `t`. -/
def laneAccesses (cell : Nat → L) (t : Nat) : List (L × Bool) :=
  if t % 32 = 0 then [(cell (t / 32), true)] else []

omit [DecidableEq L] in
theorem mem_laneAccesses {cell : Nat → L} {t : Nat} {loc : L} {isWrite : Bool}
    (h : (loc, isWrite) ∈ laneAccesses cell t) :
    t / 32 * 32 = t ∧ loc = cell (t / 32) ∧ isWrite = true := by
  unfold laneAccesses at h
  split_ifs at h with hlane
  · exact ⟨Nat.div_mul_cancel (Nat.dvd_of_mod_eq_zero hlane), Prod.mk.inj (List.mem_singleton.mp h)⟩
  · cases h

omit [Std.Commutative op] [Std.Associative op] in
/-- The first lanes store the values of the warps. -/
theorem exists_lane_store {cell : Nat → L} (hcell : Function.Injective cell) (hb : b < g.gridDim)
    (n : Nat) (m : L → V) (v : Nat → V) (k : Nat → Thread L V Unit) :
    ∃ m', Stored cell (fun w => w * 32 < g.blockDim) (fun w => v (w * 32)) m m' ∧
      BlockRun g b (fun t => lane_store cell t (v t) >>= fun _ => k t) m n
        (∑ t ∈ Finset.range g.blockDim, events b t n (laneAccesses cell t)) k m' n := by
  have hthread : ∀ t < g.blockDim, ∀ m1,
      Stored cell (fun w => w * 32 < t) (fun w => v (w * 32)) m m1 →
      ∃ m2, Exec (lane_store cell t (v t) >>= fun _ => k t) m1 (laneAccesses cell t) (k t) m2 ∧
        Stored cell (fun w => w * 32 < t + 1) (fun w => v (w * 32)) m m2 := by
    intro t ht m1 hm1
    unfold lane_store laneAccesses when
    by_cases hlane : t % 32 = 0
    · rw [if_pos hlane, if_pos hlane]
      have hv : v t = v (t / 32 * 32) := by rw [Nat.div_mul_cancel (Nat.dvd_of_mod_eq_zero hlane)]
      rw [hv]
      exact ⟨_, Exec.write (Exec.refl _ _), (hm1.update hcell (t / 32)).congr fun j => by omega⟩
    · rw [if_neg hlane, if_neg hlane]
      exact ⟨m1, Exec.refl _ _, hm1.congr fun j => by omega⟩
  obtain ⟨m', hrun, hm'⟩ := exists_blockRun hb n (stored_nothing fun j => Nat.not_lt_zero _) hthread
  exact ⟨m', hm', hrun⟩

/-! ## Trees -/

/-- `if (t < s && guard) cell[t] = op(cell[t], cell[t + s]); __syncthreads();` -/
def Thread.tree_round (op : V → V → V) (guard : Nat → Bool) (cell : Nat → L) (t s : Nat) (_ : Unit) :
    Thread L V Unit := do
  when (t < s ∧ guard s = true) do
    let x ← load (cell t)
    let y ← load (cell (t + s))
    store (cell t) (op x y)
  barrier

/-- `for (s = half; s > 0; s >>= 1)` with these rounds. A 32-bit counter is halved at most 32 times. -/
def Thread.tree_reduce (op : V → V → V) (guard : Nat → Bool) (cell : Nat → L) (half t : Nat) :
    Thread L V Unit :=
  loop halving (· / 2) (tree_round op guard cell t) 33 half ()

/-- An access of a round of a tree whose first round is in the epoch `n`. -/
def TreeAccess (cell : Nat → L) (half n : Nat) (e : Event L) : Prop :=
  n ≤ e.epoch ∧ e.tid < half / 2 ^ (e.epoch - n) ∧
    (e.loc = cell e.tid ∨
      e.loc = cell (e.tid + half / 2 ^ (e.epoch - n)) ∧ e.isWrite = false)

variable {cell : Nat → L} {guard : Nat → Nat → Bool} {bound s n : Nat} {m : L → V}

/-- The accesses of the thread `t` in the round with `s`. -/
def treeAccesses (guard : Nat → Nat → Bool) (cell : Nat → L) (s t : Nat) : List (L × Bool) :=
  if t < s ∧ guard t s = true then [(cell t, false), (cell (t + s), false), (cell t, true)] else []

omit [Std.Commutative op] [Std.Associative op] in
/-- One round. The values of the second half are folded into those of the first one. -/
theorem exists_tree_round (op : V → V → V) (guard : Nat → Nat → Bool)
    (hcell : Function.Injective cell) (hb : b < g.gridDim) (s n : Nat) (m : L → V) :
    ∃ m', Stored cell (fun j => j < g.blockDim ∧ j < s ∧ guard j s = true)
        (fun j => op (m (cell j)) (m (cell (s + j)))) m m' ∧
      ∀ k : Nat → Unit → Thread L V Unit,
        BlockRun g b (fun t => tree_round op (guard t) cell t s () >>= k t) m n
          (∑ t ∈ Finset.range g.blockDim, events b t n (treeAccesses guard cell s t))
          (fun t => k t ()) m' (n + 1) := by
  have hthread : ∀ t < g.blockDim, ∀ m1, Stored cell (fun j => j < t ∧ j < s ∧ guard j s = true)
        (fun j => op (m (cell j)) (m (cell (s + j)))) m m1 →
      ∃ m', Exec (when (t < s ∧ guard t s = true) do
            let x ← load (cell t)
            let y ← load (cell (t + s))
            store (cell t) (op x y)) m1 (treeAccesses guard cell s t) (done ()) m' ∧
        Stored cell (fun j => j < t + 1 ∧ j < s ∧ guard j s = true)
          (fun j => op (m (cell j)) (m (cell (s + j)))) m m' := by
    intro t ht m1 hm1
    unfold treeAccesses when
    by_cases hin : t < s ∧ guard t s = true
    · rw [if_pos hin, if_pos hin]
      -- the cells of the later threads are as they were
      have hfirst : m1 (cell t) = m (cell t) := hm1.cell_eq hcell fun h => absurd h.1 (lt_irrefl t)
      have hsecond : m1 (cell (t + s)) = m (cell (s + t)) := by
        rw [Nat.add_comm s t]
        exact hm1.cell_eq hcell fun h => absurd h.2.1 (by omega)
      refine ⟨Function.update m1 (cell t) (op (m (cell t)) (m (cell (s + t)))), ?_, ?_⟩
      · rw [← hfirst, ← hsecond]
        exact Exec.read (Exec.read (Exec.write (Exec.refl _ _)))
      · refine (hm1.update hcell t).congr fun j => ?_
        constructor
        · rintro (⟨hj, hjs⟩ | rfl)
          · exact ⟨by omega, hjs⟩
          · exact ⟨Nat.lt_succ_self j, hin⟩
        · rintro ⟨hj, hjs⟩
          by_cases hjt : j = t
          · exact Or.inr hjt
          · exact Or.inl ⟨by omega, hjs⟩
    · rw [if_neg hin, if_neg hin]
      refine ⟨m1, Exec.refl _ _, hm1.congr fun j => ?_⟩
      refine and_congr_left fun hjs => ⟨fun hj => by omega, fun hj => ?_⟩
      by_contra hjt
      obtain rfl : j = t := by omega
      exact hin hjs
  obtain ⟨m', hm', hrun⟩ := exists_blockRun_seq hb n
    (stored_nothing fun j hj => absurd hj.1 (Nat.not_lt_zero j)) hthread
  refine ⟨m', hm', fun k => ?_⟩
  have hbind : (fun t => tree_round op (guard t) cell t s () >>= k t) = fun t =>
      (when (t < s ∧ guard t s = true) do
        let x ← load (cell t)
        let y ← load (cell (t + s))
        store (cell t) (op x y)) >>= fun _ => sync (k t ()) := by
    funext t
    rw [tree_round, bind_bind]
    rfl
  rw [hbind, ← add_zero (∑ t ∈ Finset.range g.blockDim, _)]
  exact (hrun _).trans (blockRun_of_sync hb n m' _)

omit [DecidableEq L] in
theorem treeAccess_of_mem {d r : Nat} {F : Event L}
    (h : F ∈ ∑ t ∈ Finset.range g.blockDim, events b t (n + r) (treeAccesses guard cell (d / 2 ^ r) t)) :
    F.block = b ∧ TreeAccess cell d n F := by
  obtain ⟨hb, -, hepoch, hmem⟩ := mem_sum_events.mp h
  unfold treeAccesses at hmem
  split_ifs at hmem with hin
  · have hr : F.epoch - n = r := by omega
    refine ⟨hb, by omega, ?_⟩
    rw [hr]
    refine ⟨hin.1, ?_⟩
    simp only [List.mem_cons, Prod.mk.injEq, List.not_mem_nil, or_false] at hmem
    rcases hmem with ⟨hloc, -⟩ | ⟨hloc, hread⟩ | ⟨hloc, -⟩
    · exact Or.inl hloc
    · exact Or.inr ⟨hloc, hread⟩
    · exact Or.inl hloc
  · cases hmem

omit [DecidableEq L] in
/-- After a round the first half has all values, where those that the guard leaves out are neutral. -/
theorem fold_of_tree_round (he : ∀ a, op e a = a) (hguard : ∀ t, guard t s = false → bound ≤ t + s)
    (hs : s ≤ g.blockDim) {m' : L → V}
    (hm' : Stored cell (fun j => j < g.blockDim ∧ j < s ∧ guard j s = true)
      (fun j => op (m (cell j)) (m (cell (s + j)))) m m') (hcell : Function.Injective cell)
    (hbound : ∀ j, bound ≤ j → j < s + s → m (cell j) = e) :
    (Finset.range s).fold op e (fun j => m' (cell j)) =
      (Finset.range (s + s)).fold op e fun j => m (cell j) := by
  have hcomm : ∀ a b, op a b = op b a := Std.Commutative.comm
  rw [← Folding.fold_range_halve he]
  apply Finset.fold_congr
  intro j hj
  have hlt := Finset.mem_range.mp hj
  by_cases hin : guard j s = true
  · exact hm'.1 j ⟨by omega, hlt, hin⟩
  · have hneutral : m (cell (s + j)) = e := by
      have := hguard j (Bool.eq_false_iff.mpr hin)
      exact hbound (s + j) (by omega) (by omega)
    rw [hneutral, hcomm, he]
    exact hm'.cell_eq hcell fun h => hin h.2.2

/-- The first cell gets the values of all cells. -/
theorem exists_tree_reduce (he : ∀ a, op e a = a) (hcell : Function.Injective cell)
    (hb : b < g.gridDim) {d : Nat} (hd : 2 ^ d ≤ g.blockDim) (hd' : d < 32)
    (hguard : ∀ t s, guard t s = false → bound ≤ t + s)
    (hbound : ∀ j, bound ≤ j → j < 2 ^ (d + 1) → m (cell j) = e) (n : Nat) :
    ∃ F m', (∀ ev ∈ F, ev.block = b ∧ TreeAccess cell (2 ^ d) n ev) ∧
      m' (cell 0) = (Finset.range (2 ^ (d + 1))).fold op e (fun j => m (cell j)) ∧
      (∀ loc, (∀ j < 2 ^ d, loc ≠ cell j) → m' loc = m loc) ∧
      ∀ k : Nat → Unit → Thread L V Unit,
        BlockRun g b (fun t => tree_reduce op (guard t) cell (2 ^ d) t >>= k t) m n F
          (fun t => k t ()) m' (n + (d + 1)) := by
  have hcomm : ∀ a b, op a b = op b a := Std.Commutative.comm
  -- in the rounds that are done, the values are folded into the first cells
  let I : List Nat → (Nat → Unit) → (L → V) → Nat → Multiset (Event L) → Prop :=
    fun pre _ m' n' F => n' = n + pre.length ∧
      (∀ ev ∈ F, ev.block = b ∧ TreeAccess cell (2 ^ d) n ev) ∧
      (Finset.range (2 ^ (d + 1 - pre.length))).fold op e (fun j => m' (cell j)) =
        (Finset.range (2 ^ (d + 1))).fold op e (fun j => m (cell j)) ∧
      (∀ j, bound ≤ j → j < 2 ^ (d + 1 - pre.length) → m' (cell j) = e) ∧
      ∀ loc, (∀ j < 2 ^ d, loc ≠ cell j) → m' loc = m loc
  have hround : ∀ pre c post, (List.range (d + 1)).map (fun j => 2 ^ d / 2 ^ j) = pre ++ c :: post →
      ∀ x m1 n1 F, I pre x m1 n1 F → ∃ F' x' m' n', I (pre ++ [c]) x' m' n' (F + F') ∧
        ∀ k : Nat → Unit → Thread L V Unit,
          BlockRun g b (fun t => tree_round op (guard t) cell t c (x t) >>= k t) m1 n1 F'
            (fun t => k t (x' t)) m' n' := by
    rintro pre c post hl x m1 _ F ⟨rfl, hF, hfold, hneutral, hrest⟩
    obtain ⟨hlen, rfl⟩ := counter_of_split hl
    have hpow : 2 ^ d / 2 ^ pre.length = 2 ^ (d - pre.length) := Nat.pow_div (by omega) (by decide)
    have hhalf : 2 ^ (d - pre.length) + 2 ^ (d - pre.length) = 2 ^ (d + 1 - pre.length) := by
      rw [← Nat.two_mul, ← Nat.pow_succ', Nat.succ_sub (by omega)]
    have hle : 2 ^ (d - pre.length) ≤ 2 ^ d := Nat.pow_le_pow_right (by decide) (by omega)
    have hnext : d + 1 - (pre ++ [2 ^ d / 2 ^ pre.length]).length = d - pre.length := by
      rw [List.length_append, List.length_singleton]
      omega
    obtain ⟨m2, hm2, hrun⟩ := exists_tree_round op guard hcell hb (2 ^ d / 2 ^ pre.length)
      (n + pre.length) m1
    have hsum := fold_of_tree_round he (fun t => hguard t _) (hpow ▸ hle.trans hd) hm2 hcell
      fun j hj hlt => hneutral j hj (by rwa [hpow, hhalf] at hlt)
    refine ⟨_, fun _ => (), m2, n + pre.length + 1, ⟨?_, fun ev hev => ?_, ?_, fun j hj hlt => ?_,
      fun loc hloc => ?_⟩, hrun⟩
    · rw [List.length_append, List.length_singleton, Nat.add_assoc]
    · rcases Multiset.mem_add.mp hev with hev | hev
      · exact hF ev hev
      · exact treeAccess_of_mem hev
    · rw [hnext, ← hpow, hsum, hpow, hhalf, hfold]
    · rw [hnext] at hlt
      by_cases hin : j < g.blockDim ∧ j < 2 ^ d / 2 ^ pre.length ∧ guard j (2 ^ d / 2 ^ pre.length) = true
      · rw [hm2.1 j hin, hpow]
        dsimp only
        rw [hneutral j hj (by omega), hneutral _ (by omega) (by omega), he]
      · rw [hm2.cell_eq hcell hin, hneutral j hj (by omega)]
    · rw [hm2.2 loc fun j hj => hloc j (by omega), hrest loc hloc]
  have h0 : I [] (fun _ => ()) m n 0 :=
    ⟨rfl, fun ev hev => absurd hev (Multiset.notMem_zero ev), rfl, hbound, fun _ _ => rfl⟩
  obtain ⟨F, x', m', n', ⟨rfl, hF, hfold, -, hrest⟩, hrun⟩ :=
    exists_blockRun_loop (rounds_halving d (by omega : d + 1 < 33)) h0 hround
  rw [List.length_map, List.length_range] at hfold hrun
  refine ⟨F, m', hF, ?_, hrest, hrun⟩
  rw [Nat.sub_self, pow_zero, Finset.range_one, Finset.fold_singleton, hcomm, he] at hfold
  exact hfold

/-! ## One thread -/

/-- `for (int i = first; i < n; ++i) val = op(val, cell[i]);` -/
def Thread.serial_reduce (op : V → V → V) (cell : Nat → L) (first n : Nat) (val : V) : Thread L V V :=
  loop (fun i => decide (i < n)) (· + 1)
    (fun i val => do
      let x ← load (cell i)
      return op val x)
    (2 ^ 32) first val

omit [Std.Commutative op] [Std.Associative op] in
theorem exec_serial_reduce (op : V → V → V) (cell : Nat → L) (first : Nat) {k : Nat} (hk : k < 2 ^ 32)
    (val : V) (m : L → V) :
    Exec (serial_reduce op cell first k val) m ((strided first 1 k).map fun i => (cell i, false))
      (done ((strided first 1 k).foldl (fun val i => op val (m (cell i))) val)) m := by
  have hrounds : rounds (fun i => decide (i < k)) (· + 1) (2 ^ 32) (id first) =
      some ((strided first 1 k).map id) :=
    rounds_strided id Nat.one_pos (fun _ => rfl) (fun _ _ => rfl) hk
  rw [List.map_id] at hrounds
  have hflat : ((strided first 1 k).map fun i => (cell i, false)) =
      (strided first 1 k).flatMap fun i => [(cell i, false)] := (List.flatMap_pure_eq_map _ _).symm
  have hround : ∀ i ∈ strided first 1 k, ∀ val : V, Exec (do
        let x ← load (cell i)
        return op val x) m [(cell i, false)] (done (op val (m (cell i)))) m :=
    fun i _ val => Exec.read (Exec.refl _ _)
  rw [hflat]
  exact exec_loop hrounds (chain_of_read hround val)

omit [DecidableEq L] in
/-- A loop from the first cell. -/
theorem foldl_strided_zero (op : V → V → V) [Std.Commutative op] [Std.Associative op] (e : V)
    (f : Nat → V) (k : Nat) :
    (strided 0 1 k).foldl (fun x i => op x (f i)) e = (Finset.range k).fold op e f := by
  rw [← Folding.foldl_range, strided]
  simp

/-- The sum of the cells. -/
theorem exec_serial_sum {M : Type} [AddCommMonoid M] (cell : Nat → L) {k : Nat} (hk : k < 2 ^ 32)
    (m : L → M) : Exec (serial_reduce (· + ·) cell 0 k 0) m
      ((strided 0 1 k).map fun i => (cell i, false)) (done (∑ i ∈ Finset.range k, m (cell i))) m := by
  have hexec := exec_serial_reduce (V := M) (· + ·) cell 0 hk 0 m
  rwa [foldl_strided_zero (V := M) (· + ·) 0, ← Finset.sum_eq_fold] at hexec

omit [DecidableEq L] in
/-- A loop from the second cell, which begins with the first one. -/
theorem foldl_strided_one (he : ∀ a, op e a = a) (f : Nat → V) {k : Nat} (hk : 0 < k) :
    (strided 1 1 k).foldl (fun x i => op x (f i)) (f 0) = (Finset.range k).fold op e f := by
  obtain ⟨k, rfl⟩ := Nat.exists_eq_succ_of_ne_zero (Nat.ne_of_gt hk)
  have hlist : strided 1 1 (k + 1) = (List.range k).map Nat.succ := by
    unfold strided
    have hcount : (k + 1 - 1 + 1 - 1) / 1 = k := by omega
    rw [hcount]
    exact List.map_congr_left fun i _ => by omega
  rw [← Folding.foldl_range, Nat.succ_eq_add_one, List.range_succ_eq_map, List.foldl_cons, he, hlist]

omit [DecidableEq L] in
/-- The values of threads that go through all numbers with their count as the stride. -/
theorem fold_strided (he : ∀ a, op e a = a) (v : Nat → V) {d : Nat} (hd : 0 < d) (k : Nat) :
    ((Finset.range d).fold op e fun t => (strided t d k).foldl (fun x c => op x (v c)) e) =
      (Finset.range k).fold op e v := by
  have hthread : ∀ t, (strided t d k).foldl (fun x c => op x (v c)) e =
      ((strided t d k : Multiset Nat).map v).fold op e := by
    intro t
    rw [Multiset.map_coe, Multiset.coe_fold_l, List.foldl_map]
  rw [Finset.fold_congr fun t _ => hthread t, ← Folding.fold_sum he, ← Folding.map_sum_range,
    sum_strided hd]
  rfl

end Simt
