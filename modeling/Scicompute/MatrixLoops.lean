-- The loops `for (int r = 0; r < rows; ++r)` and `for (int c = 0; c < cols; ++c)` of the
-- functions on rows (src/math/softmax.cpp, normalization.cpp), whose indices are numbers of
-- type `int`. An index that overflows has no result.
import Scicompute.CheckedLoop
import Scicompute.RowMajor
import Scicompute.SignedWord

open Word

namespace sci.int64.math

variable {S : Type*}

/-- `r * cols + c` -/
def index (r cols c : Int) : Option Int := (mul32? r cols).bind fun off => add32? off c

def forRows (rows : Int) (body : Nat → S → Option S) (s : S) : Option S :=
  (List.range rows.toNat).foldlM (fun s r => body r s) s

/-- The loop over the columns from `first` on. The body has `c` and `r * cols + c`. -/
def forCols (r : Nat) (cols : Int) (first : Nat) (body : Nat → Int → S → Option S) (s : S) :
    Option S :=
  (List.range' first (cols.toNat - first)).foldlM
    (fun s (c : Nat) => (index r cols c).bind fun i => body c i s) s

/-- The indices that the two loops go through. -/
def visited (rows cols : Int) : Option (List Int) :=
  forRows rows (fun r l => forCols r cols 0 (fun _ i l => some (l ++ [i])) l) []

variable {r rows cols first : Nat}

/-! ## Indices -/

theorem mul32?_natCast (r cols : Nat) :
    mul32? r cols = if r * cols < 2 ^ 31 then some ((r * cols : Nat) : Int) else none := by
  have hcast : (r : Int) * cols = ((r * cols : Nat) : Int) := by push_cast; rfl
  unfold mul32?
  rw [hcast]
  split_ifs <;> first | rfl | omega

theorem index_natCast (r cols c : Nat) :
    index r cols c = if r * cols + c < 2 ^ 31 then some ((r * cols + c : Nat) : Int) else none := by
  unfold index
  rw [mul32?_natCast]
  generalize r * cols = p
  by_cases hp : p < 2 ^ 31
  · rw [if_pos hp, Option.bind_some]
    unfold add32?
    push_cast
    split_ifs <;> first | rfl | omega
  · rw [if_neg hp, if_neg (by omega)]
    rfl

/-! ## Loops over the columns -/

/-- A row whose indices do not overflow. -/
theorem forCols_eq (body : Nat → Int → S → Option S) (s : S) (h : r * cols + cols ≤ 2 ^ 31) :
    forCols r cols first body s = (List.range' first (cols - first)).foldlM
      (fun s c => body c ((r * cols + c : Nat) : Int) s) s := by
  unfold forCols
  rw [Int.toNat_natCast]
  apply CheckedLoop.foldlM_congr
  intro s c hc
  have hlt := List.mem_range'_1.mp hc
  rw [index_natCast, if_pos (by omega), Option.bind_some]

/-- When the body always has a result, only the indices matter. -/
theorem isSome_forCols_iff {body : Nat → Int → S → Option S} {P : Nat → Int → Prop}
    (hbody : ∀ c i s, (body c i s).isSome ↔ P c i) (s : S) :
    (forCols r cols first body s).isSome ↔ ∀ c, first ≤ c → c < cols →
      r * cols + c < 2 ^ 31 ∧ P c ((r * cols + c : Nat) : Int) := by
  unfold forCols
  rw [CheckedLoop.isSome_foldlM_iff
    (P := fun c : Nat => r * cols + c < 2 ^ 31 ∧ P c ((r * cols + c : Nat) : Int))]
  · rw [Int.toNat_natCast]
    simp only [List.mem_range'_1]
    refine forall_congr' fun c => ⟨fun h hfirst hc => h ⟨hfirst, by omega⟩, fun h hc => ?_⟩
    exact h hc.1 (by omega)
  · intro s c
    rw [index_natCast]
    split_ifs with hlt
    · rw [Option.bind_some, hbody]
      exact (and_iff_right hlt).symm
    · exact iff_of_false (by simp) fun h => hlt h.1

/-- What each round keeps. -/
theorem forCols_induction {cols : Int} {body : Nat → Int → S → Option S} {I : S → Prop} {s t : S}
    (h0 : I s) (hstep : ∀ c : Nat, first ≤ c → (c : Int) < cols → ∀ i s t,
      I s → body c i s = some t → I t)
    (ht : forCols r cols first body s = some t) : I t := by
  unfold forCols at ht
  have hloop : ∀ l : List Nat, (∀ c ∈ l, first ≤ c ∧ (c : Int) < cols) → ∀ s, I s →
      l.foldlM (fun s (c : Nat) => (index r cols c).bind fun i => body c i s) s = some t → I t := by
    intro l
    induction l with
    | nil =>
      intro _ s hs ht
      cases ht
      exact hs
    | cons c l ih =>
      intro hl s hs ht
      rw [List.forall_mem_cons] at hl
      rw [List.foldlM_cons] at ht
      obtain ⟨u, hu, ht⟩ := Option.bind_eq_some_iff.mp ht
      obtain ⟨i, -, hu⟩ := Option.bind_eq_some_iff.mp hu
      exact ih hl.2 u (hstep c hl.1.1 hl.1.2 i s u hs hu) ht
  refine hloop _ (fun c hc => ?_) s h0 ht
  have := List.mem_range'_1.mp hc
  omega

/-- No column is left. -/
theorem forCols_of_nonpos {cols : Int} (h : cols ≤ 0) (body : Nat → Int → S → Option S) (s : S) :
    forCols r cols first body s = some s := by
  unfold forCols
  rw [Int.toNat_of_nonpos h, Nat.zero_sub]
  rfl

/-! ## Both loops -/

theorem forRows_succ (rows : Nat) (body : Nat → S → Option S) (s : S) :
    forRows (rows + 1 : Nat) body s = (forRows rows body s).bind fun s => body rows s := by
  unfold forRows
  rw [Int.toNat_natCast, Int.toNat_natCast, List.range_succ, List.foldlM_append]
  simp

theorem forRows_of_nonpos {rows : Int} (h : rows ≤ 0) (body : Nat → S → Option S) (s : S) :
    forRows rows body s = some s := by
  unfold forRows
  rw [Int.toNat_of_nonpos h]
  rfl

/-- What each round keeps, from a round to the next. -/
theorem forRows_induction {rows : Int} {body : Nat → S → Option S} {I : Nat → S → Prop} {s t : S}
    (h0 : I 0 s)
    (hstep : ∀ r : Nat, (r : Int) < rows → ∀ s t, I r s → body r s = some t → I (r + 1) t)
    (ht : forRows rows body s = some t) : I rows.toNat t := by
  have hloop : ∀ n : Nat, n ≤ rows.toNat → ∀ t,
      (List.range n).foldlM (fun s r => body r s) s = some t → I n t := by
    intro n
    induction n with
    | zero =>
      intro _ t ht
      cases ht
      exact h0
    | succ n ih =>
      intro hn t ht
      rw [List.range_succ, List.foldlM_append] at ht
      obtain ⟨u, hu, ht⟩ := Option.bind_eq_some_iff.mp ht
      rw [List.foldlM_cons] at ht
      obtain ⟨_, hv, hvt⟩ := Option.bind_eq_some_iff.mp ht
      cases hvt
      exact hstep n (by omega) u t (ih (by omega) u hu) hv
  exact hloop rows.toNat le_rfl t ht

/-- Every round has a result that keeps what the next one needs. -/
theorem exists_forRows {rows : Nat} {body : Nat → S → Option S} {I : Nat → S → Prop} {s : S}
    (h0 : I 0 s) (hstep : ∀ r < rows, ∀ s, I r s → ∃ t, body r s = some t ∧ I (r + 1) t) :
    ∃ t, forRows rows body s = some t ∧ I rows t := by
  induction rows with
  | zero => exact ⟨s, rfl, h0⟩
  | succ rows ih =>
    obtain ⟨u, hu, hI⟩ := ih fun r hr => hstep r (by omega)
    obtain ⟨t, ht, hI⟩ := hstep rows (by omega) u hI
    exact ⟨t, by rw [forRows_succ, hu, Option.bind_some, ht], hI⟩

theorem isSome_forRows_iff {rows : Int} {body : Nat → S → Option S} {P : Nat → Prop}
    (hbody : ∀ r s, (body r s).isSome ↔ P r) (s : S) :
    (forRows rows body s).isSome ↔ ∀ r : Nat, (r : Int) < rows → P r := by
  unfold forRows
  rw [CheckedLoop.isSome_foldlM_iff fun s r => hbody r s]
  simp only [List.mem_range, Int.lt_toNat]

/-- The largest index is the last one. -/
theorem indices_fit_iff (hrows : 0 < rows) (hcols : 0 < cols) :
    (∀ r < rows, ∀ c < cols, r * cols + c < 2 ^ 31) ↔ rows * cols ≤ 2 ^ 31 := by
  have hlast : (rows - 1) * cols + cols = rows * cols := by
    rw [← Nat.succ_mul, Nat.succ_eq_add_one, Nat.sub_add_cancel hrows]
  constructor
  · intro h
    have := h (rows - 1) (by omega) (cols - 1) (by omega)
    omega
  · intro h r hr c hc
    have := RowMajor.row_end_le cols hr
    omega

/-- One row after the other. -/
theorem visited_eq (h : rows * cols ≤ 2 ^ 31) :
    visited rows cols = some ((List.range (rows * cols)).map Nat.cast) := by
  unfold visited
  induction rows with
  | zero => simp [forRows]
  | succ rows ih =>
    rw [Nat.succ_mul] at h ⊢
    rw [forRows_succ, ih (by omega), Option.bind_some, forCols_eq _ _ h,
      CheckedLoop.foldlM_eq_some _ fun l c _ => rfl, List.foldl_append_eq_append, List.range_add,
      List.map_append, Nat.sub_zero, ← List.range_eq_range', List.map_map]
    rw [← List.flatMap_def, ← List.map_eq_flatMap]
    rfl

/-- An index that overflows is met. -/
theorem visited_isSome_iff (hrows : 0 < rows) (hcols : 0 < cols) :
    (visited rows cols).isSome ↔ rows * cols ≤ 2 ^ 31 := by
  unfold visited
  rw [isSome_forRows_iff (P := fun r => ∀ c, 0 ≤ c → c < cols → r * cols + c < 2 ^ 31 ∧ True),
    ← indices_fit_iff hrows hcols]
  · simp
  · intro r l
    exact isSome_forCols_iff (P := fun _ _ => True) (fun c i l => by simp) l

end sci.int64.math
