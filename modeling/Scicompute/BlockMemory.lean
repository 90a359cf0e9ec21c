-- Memory as a cell at each address: blocks of cells, copies and fills of blocks, and
-- loops in which every round writes a block of its own.
import Mathlib

namespace BlockMemory

variable {β : Type*}

/-- The cells of a block. -/
def load (m : Nat → β) (addr n : Nat) : List β := (List.range n).map fun k => m (addr + k)

/-- A copy between blocks that do not overlap. -/
def copy (m : Nat → β) (dst src n : Nat) : Nat → β :=
  fun a => if dst ≤ a ∧ a < dst + n then m (src + (a - dst)) else m a

def fill (m : Nat → β) (dst n : Nat) (b : β) : Nat → β :=
  fun a => if dst ≤ a ∧ a < dst + n then b else m a

/-- A block gets the cells of a list. -/
def store (m : Nat → β) (dst : Nat) (cells : List β) : Nat → β :=
  fun a => if dst ≤ a then cells.getD (a - dst) (m a) else m a

/-- The blocks have no address in common. -/
def Apart (addr n addr' n' : Nat) : Prop := addr + n ≤ addr' ∨ addr' + n' ≤ addr

instance (addr n addr' n' : Nat) : Decidable (Apart addr n addr' n') :=
  inferInstanceAs (Decidable (_ ∨ _))

theorem Apart.symm {addr n addr' n' : Nat} (h : Apart addr n addr' n') : Apart addr' n' addr n :=
  Or.symm h

theorem Apart.mono {addr n addr' n' a k : Nat} (h : Apart addr n addr' n') (hlow : addr ≤ a)
    (hhigh : a + k ≤ addr + n) : Apart a k addr' n' := by
  unfold Apart at *
  omega

theorem load_congr {m m' : Nat → β} {addr n : Nat} (h : ∀ k < n, m (addr + k) = m' (addr + k)) :
    load m addr n = load m' addr n :=
  List.map_congr_left fun k hk => h k (List.mem_range.mp hk)

theorem load_copy_of_within (m : Nat → β) (dst src : Nat) {n k len : Nat} (h : k + len ≤ n) :
    load (copy m dst src n) (dst + k) len = load m (src + k) len := by
  apply List.map_congr_left
  intro j hj
  have hlt := List.mem_range.mp hj
  unfold copy
  rw [if_pos (by omega)]
  congr 1
  omega

theorem load_copy_of_apart (m : Nat → β) (src : Nat) {dst n addr len : Nat}
    (h : Apart addr len dst n) : load (copy m dst src n) addr len = load m addr len := by
  apply load_congr
  intro j hj
  unfold Apart at h
  unfold copy
  rw [if_neg (by omega)]

theorem store_load (m m' : Nat → β) (dst src n : Nat) :
    store m dst (load m' src n) =
      fun a => if dst ≤ a ∧ a < dst + n then m' (src + (a - dst)) else m a := by
  funext a
  unfold store load
  rw [List.getD_eq_getElem?_getD, List.getElem?_map]
  by_cases hlow : dst ≤ a
  · rw [if_pos hlow]
    by_cases hhigh : a < dst + n
    · rw [if_pos ⟨hlow, hhigh⟩, List.getElem?_range (by omega)]
      rfl
    · rw [if_neg (fun h => hhigh h.2), List.getElem?_eq_none (by rw [List.length_range]; omega)]
      rfl
  · rw [if_neg hlow, if_neg (fun h => hlow h.1)]

/-- The cells of a list are loaded back. -/
theorem load_store_of_le (m : Nat → β) (addr : Nat) {cells : List β} {n : Nat}
    (h : n ≤ cells.length) : load (store m addr cells) addr n = cells.take n := by
  apply List.ext_getElem
  · simp [load, h]
  · intro k hk hk'
    have hlt : k < cells.length := by
      rw [List.length_take] at hk'
      omega
    simp [load, store, hlt]

theorem store_of_outside (m : Nat → β) {addr a : Nat} {cells : List β}
    (h : ¬ (addr ≤ a ∧ a < addr + cells.length)) : store m addr cells a = m a := by
  unfold store
  split_ifs with hlow
  · exact List.getD_eq_default _ _ (by omega)
  · rfl

/-- A copy stores what it loads. -/
theorem copy_eq_store (m : Nat → β) (dst src n : Nat) :
    copy m dst src n = store m dst (load m src n) := (store_load m m dst src n).symm

theorem fill_of_outside (m : Nat → β) (b : β) {dst n a : Nat} (h : ¬ (dst ≤ a ∧ a < dst + n)) :
    fill m dst n b a = m a := if_neg h

theorem load_fill_of_apart (m : Nat → β) (b : β) {dst n addr len : Nat}
    (h : Apart addr len dst n) : load (fill m dst n b) addr len = load m addr len := by
  apply load_congr
  intro j hj
  unfold Apart at h
  exact fill_of_outside m b (by omega)

/-- Blocks at different addresses can have different cells. -/
theorem exists_load_ne {b c : β} (hbc : b ≠ c) {addr addr' n : Nat} (hne : addr ≠ addr')
    (hn : 0 < n) : ∃ m : Nat → β, load m addr n ≠ load m addr' n := by
  refine ⟨fun a => if a = addr then b else c, fun h => hbc ?_⟩
  have hfirst := List.map_inj_left.mp h 0 (List.mem_range.mpr hn)
  simpa [Ne.symm hne] using hfirst

/-! ## Loops -/

/-- Round `i` of a loop writes block `B i` only. If it finds the other cells as they were, it leaves
`val i` there. Then the loop leaves these in the blocks, and the rest as it was. -/
theorem foldl_range_blocks {step : (Nat → β) → Nat → Nat → β} {B : Nat → Nat → Prop}
    {val : Nat → Nat → β} {m : Nat → β} {n : Nat} (hB : ∀ i < n, ∀ j < i, ∀ c, B j c → ¬ B i c)
    (hframe : ∀ m, ∀ i < n, ∀ c, ¬ B i c → step m i c = m c)
    (hval : ∀ i < n, ∀ m', (∀ c, (∀ j < i, ¬ B j c) → m' c = m c) →
      ∀ c, B i c → step m' i c = val i c) :
    (∀ i < n, ∀ c, B i c → (List.range n).foldl step m c = val i c) ∧
      ∀ c, (∀ i < n, ¬ B i c) → (List.range n).foldl step m c = m c := by
  induction n with
  | zero => simp
  | succ n ih =>
    obtain ⟨hdone, hrest⟩ := ih (fun i hi => hB i (by omega))
      (fun m i hi => hframe m i (by omega)) (fun i hi => hval i (by omega))
    rw [List.range_succ, List.foldl_concat]
    constructor
    · intro i hi c hc
      by_cases hin : i = n
      · subst hin
        exact hval i (by omega) _ hrest c hc
      · rw [hframe _ n (by omega) c (hB n (by omega) i (by omega) c hc)]
        exact hdone i (by omega) c hc
    · intro c hc
      rw [hframe _ n (by omega) c (hc n (by omega))]
      exact hrest c fun i hi => hc i (by omega)

/-- Round `i` writes the cell `p i` only. -/
theorem foldl_range_update {p : Nat → Nat} {f : (Nat → β) → Nat → β} {val : Nat → β}
    {m : Nat → β} {n : Nat} (hp : ∀ i < n, ∀ j < i, p j ≠ p i)
    (hval : ∀ i < n, ∀ m', (∀ c, (∀ j < i, c ≠ p j) → m' c = m c) → f m' i = val i) :
    (∀ i < n, (List.range n).foldl (fun m i => Function.update m (p i) (f m i)) m (p i) = val i) ∧
      ∀ c, (∀ i < n, c ≠ p i) →
        (List.range n).foldl (fun m i => Function.update m (p i) (f m i)) m c = m c := by
  have hwrite : ∀ i < n, ∀ m', (∀ c, (∀ j < i, ¬ c = p j) → m' c = m c) →
      ∀ c, c = p i → Function.update m' (p i) (f m' i) c = val i := by
    rintro i hi m' hm' c rfl
    rw [Function.update_self]
    exact hval i hi m' hm'
  obtain ⟨hdone, hrest⟩ := foldl_range_blocks
    (fun i hi j hj c hc hc' => hp i hi j hj (hc.symm.trans hc'))
    (fun m i _ c hc => Function.update_of_ne hc _ _) hwrite
  exact ⟨fun i hi => hdone i hi _ rfl, hrest⟩

/-- The loop also sums up what it writes. -/
theorem foldl_range_update_sum {R : Type*} [AddCommMonoid R] {p : Nat → Nat}
    {f : (Nat → R) → Nat → R} {val : Nat → R} {m : Nat → R} {n : Nat}
    (hp : ∀ i < n, ∀ j < i, p j ≠ p i)
    (hval : ∀ i < n, ∀ m', (∀ c, (∀ j < i, c ≠ p j) → m' c = m c) → f m' i = val i) :
    (List.range n).foldl (fun (s : (Nat → R) × R) i =>
        (Function.update s.1 (p i) (f s.1 i), s.2 + Function.update s.1 (p i) (f s.1 i) (p i)))
      (m, 0) =
    ((List.range n).foldl (fun m i => Function.update m (p i) (f m i)) m,
      ∑ i ∈ Finset.range n, val i) := by
  induction n with
  | zero => rfl
  | succ n ih =>
    have hp' : ∀ i < n, ∀ j < i, p j ≠ p i := fun i hi => hp i (by omega)
    have hval' : ∀ i < n, ∀ m', (∀ c, (∀ j < i, c ≠ p j) → m' c = m c) → f m' i = val i :=
      fun i hi => hval i (by omega)
    have hrest := (foldl_range_update hp' hval').2
    rw [List.range_succ, List.foldl_concat, List.foldl_concat, ih hp' hval',
      Finset.sum_range_succ, Function.update_self, hval n (by omega) _ hrest]

/-- A loop whose rounds are checked first, whatever the memory is. -/
theorem foldlM_checked {P : Nat → Prop} [DecidablePred P] (step : (Nat → β) → Nat → Nat → β)
    (l : List Nat) (m : Nat → β) :
    l.foldlM (fun m i => if P i then some (step m i) else none) m =
      if ∀ i ∈ l, P i then some (l.foldl step m) else none := by
  induction l generalizing m with
  | nil => rfl
  | cons i l ih =>
    by_cases hi : P i
    · simp [hi, ih]
    · simp [hi]

end BlockMemory
