-- Arrays of several dimensions in row-major order: the stride of a dimension is the
-- product of the later ones, and an index lies at the sum of its coordinates times
-- their strides. Two stride vectors put every index at one place exactly when they
-- agree on the dimensions above 1.
import Mathlib

namespace RowMajor

def strides : List Nat → List Nat
  | [] => []
  | _ :: dims => dims.prod :: strides dims

def offset (index strides : List Nat) : Nat := (List.zipWith (· * ·) index strides).sum

/-- Every coordinate is below its dimension. -/
def Within (index dims : List Nat) : Prop := List.Forall₂ (· < ·) index dims

instance (index dims : List Nat) : Decidable (Within index dims) :=
  inferInstanceAs (Decidable (List.Forall₂ (· < ·) index dims))

@[simp] theorem length_strides (dims : List Nat) : (strides dims).length = dims.length := by
  induction dims with
  | nil => rfl
  | cons d dims ih => simp [strides, ih]

/-- The stride of a dimension is the product of the later ones. -/
theorem getD_strides {dims : List Nat} {k : Nat} (hk : k < dims.length) :
    (strides dims).getD k 0 = (dims.drop (k + 1)).prod := by
  induction dims generalizing k with
  | nil => simp at hk
  | cons d dims ih =>
    cases k with
    | zero => rfl
    | succ k => exact ih (by simpa using hk)

/-- A stride is the next one times the dimension that it belongs to. -/
theorem getD_strides_succ {dims : List Nat} {k : Nat} (hk : k + 1 < dims.length) :
    (strides dims).getD k 0 = (strides dims).getD (k + 1) 0 * dims.getD (k + 1) 0 := by
  rw [getD_strides (by omega), getD_strides hk, List.drop_eq_getElem_cons hk, List.prod_cons,
    List.getD_eq_getElem _ _ hk, Nat.mul_comm]

theorem getD_strides_le {dims : List Nat} (hpos : ∀ d ∈ dims, 0 < d) {k : Nat}
    (hk : k < dims.length) : (strides dims).getD k 0 ≤ dims.prod := by
  rw [getD_strides hk]
  apply Nat.le_of_dvd (List.prod_pos hpos)
  rw [← List.take_append_drop (k + 1) dims, List.prod_append, List.take_append_drop]
  exact Nat.dvd_mul_left _ _

@[simp] theorem offset_nil (strides : List Nat) : offset [] strides = 0 := rfl

@[simp] theorem offset_cons (i s : Nat) (index strides : List Nat) :
    offset (i :: index) (s :: strides) = i * s + offset index strides := rfl

@[simp] theorem within_cons {i d : Nat} {index dims : List Nat} :
    Within (i :: index) (d :: dims) ↔ i < d ∧ Within index dims := List.forall₂_cons

/-- A row ends before the next one. -/
theorem row_end_le {r rows : Nat} (cols : Nat) (hr : r < rows) :
    r * cols + cols ≤ rows * cols := by
  rw [← Nat.succ_mul]
  exact Nat.mul_le_mul_right _ hr

/-- The first index. -/
theorem within_zeros {dims : List Nat} (hpos : ∀ d ∈ dims, 0 < d) :
    Within (List.replicate dims.length 0) dims := by
  induction dims with
  | nil => exact .nil
  | cons d dims ih =>
    exact .cons (hpos d (by simp)) (ih fun x hx => hpos x (List.mem_cons_of_mem d hx))

theorem offset_zeros (n : Nat) (strides : List Nat) :
    offset (List.replicate n 0) strides = 0 := by
  induction n generalizing strides with
  | zero => rfl
  | succ n ih =>
    cases strides with
    | nil => rfl
    | cons s strides => simp [List.replicate_succ, ih]

/-- No dimension is 0 where there is an index. -/
theorem Within.pos {index dims : List Nat} (h : Within index dims) : ∀ d ∈ dims, 0 < d := by
  induction h with
  | nil => simp
  | cons hlt _ ih =>
    intro d hd
    rcases List.mem_cons.mp hd with rfl | hd
    · omega
    · exact ih d hd

theorem Within.offset_lt {index dims : List Nat} (h : Within index dims) :
    offset index (strides dims) < dims.prod := by
  induction h with
  | nil => simp
  | @cons i d index dims hlt _ ih =>
    unfold strides
    rw [offset_cons, List.prod_cons]
    calc i * dims.prod + offset index (strides dims)
        < i * dims.prod + dims.prod := Nat.add_lt_add_left ih _
      _ = (i + 1) * dims.prod := by ring
      _ ≤ d * dims.prod := Nat.mul_le_mul_right _ hlt

/-- One coordinate moves, and the place moves by its stride. -/
theorem offset_modify {index strides : List Nat} {d : Nat} (n : Nat) (hd : d < index.length)
    (hlen : index.length = strides.length) :
    offset (index.modify d (· + n)) strides = offset index strides + n * strides.getD d 0 := by
  induction index generalizing strides d with
  | nil => simp at hd
  | cons i index ih =>
    cases strides with
    | nil => simp at hlen
    | cons s strides =>
      cases d with
      | zero =>
        simp only [List.modify_zero_cons, offset_cons, List.getD_cons_zero]
        ring
      | succ d =>
        simp only [List.modify_succ_cons, offset_cons, List.getD_cons_succ]
        rw [ih (by simpa using hd) (by simpa using hlen)]
        ring

/-! ## Stride vectors that agree -/

/-- The vectors agree on every dimension above 1. -/
def Agree : List Nat → List Nat → List Nat → Prop
  | d :: dims, s :: u, t :: v => (1 < d → s = t) ∧ Agree dims u v
  | _, _, _ => True

@[simp] theorem agree_cons {d s t : Nat} {dims u v : List Nat} :
    Agree (d :: dims) (s :: u) (t :: v) ↔ (1 < d → s = t) ∧ Agree dims u v := Iff.rfl

theorem agree_refl (dims u : List Nat) : Agree dims u u := by
  induction dims generalizing u with
  | nil => trivial
  | cons d dims ih =>
    cases u with
    | nil => trivial
    | cons s u => exact ⟨fun _ => rfl, ih u⟩

theorem Agree.offset_eq {dims u v index : List Nat} (h : Agree dims u v)
    (hu : u.length = dims.length) (hv : v.length = dims.length) (hi : Within index dims) :
    offset index u = offset index v := by
  induction hi generalizing u v with
  | nil => rfl
  | @cons i d index dims hlt _ ih =>
    obtain ⟨s, u, rfl⟩ := List.exists_cons_of_length_eq_add_one hu
    obtain ⟨t, v, rfl⟩ := List.exists_cons_of_length_eq_add_one hv
    obtain ⟨hst, hrest⟩ := h
    rw [offset_cons, offset_cons, ih hrest (by simpa using hu) (by simpa using hv)]
    by_cases hd : 1 < d
    · rw [hst hd]
    · -- the only coordinate is 0
      have : i = 0 := by omega
      subst this
      simp

/-- Two stride vectors put every index at the same place exactly when they agree. -/
theorem offset_eq_iff {dims u v : List Nat} (hpos : ∀ d ∈ dims, 0 < d)
    (hu : u.length = dims.length) (hv : v.length = dims.length) :
    (∀ index, Within index dims → offset index u = offset index v) ↔ Agree dims u v := by
  refine ⟨fun h => ?_, fun h index hi => h.offset_eq hu hv hi⟩
  induction dims generalizing u v with
  | nil => trivial
  | cons d dims ih =>
    obtain ⟨s, u, rfl⟩ := List.exists_cons_of_length_eq_add_one hu
    obtain ⟨t, v, rfl⟩ := List.exists_cons_of_length_eq_add_one hv
    have hd : 0 < d := hpos d (by simp)
    have hrest : ∀ x ∈ dims, 0 < x := fun x hx => hpos x (List.mem_cons_of_mem d hx)
    constructor
    · intro hlt
      have hone := h (1 :: List.replicate dims.length 0)
        (within_cons.mpr ⟨hlt, within_zeros hrest⟩)
      simpa [offset_zeros] using hone
    · refine ih hrest (by simpa using hu) (by simpa using hv) ?_
      intro index hi
      simpa using h (0 :: index) (within_cons.mpr ⟨hd, hi⟩)

theorem agree_append {A C u u' v v' : List Nat} (hu : u.length = A.length)
    (hv : v.length = A.length) :
    Agree (A ++ C) (u ++ u') (v ++ v') ↔ Agree A u v ∧ Agree C u' v' := by
  induction A generalizing u v with
  | nil =>
    rw [List.length_eq_zero_iff.mp hu, List.length_eq_zero_iff.mp hv]
    simp [Agree]
  | cons d A ih =>
    obtain ⟨s, u, rfl⟩ := List.exists_cons_of_length_eq_add_one hu
    obtain ⟨t, v, rfl⟩ := List.exists_cons_of_length_eq_add_one hv
    simp only [List.cons_append, agree_cons]
    rw [ih (by simpa using hu) (by simpa using hv), and_assoc]

/-- Multiples of a positive vector agree when they are the same, or no dimension is above 1. -/
theorem agree_map_mul_iff {dims u : List Nat} (c c' : Nat) (hlen : u.length = dims.length)
    (hpos : ∀ s ∈ u, 0 < s) :
    Agree dims (u.map (· * c)) (u.map (· * c')) ↔ c = c' ∨ ∀ d ∈ dims, d ≤ 1 := by
  induction dims generalizing u with
  | nil => simp [Agree]
  | cons d dims ih =>
    obtain ⟨s, u, rfl⟩ := List.exists_cons_of_length_eq_add_one hlen
    have hs : 0 < s := hpos s (by simp)
    simp only [List.map_cons, agree_cons, Nat.mul_left_cancel_iff hs, List.mem_cons,
      forall_eq_or_imp]
    rw [ih (by simpa using hlen) fun x hx => hpos x (List.mem_cons_of_mem s hx)]
    by_cases hc : c = c'
    · simp [hc]
    · simp only [hc, imp_false, not_lt, false_or]

/-! ## The strides of appended shapes -/

theorem strides_append (A C : List Nat) :
    strides (A ++ C) = (strides A).map (· * C.prod) ++ strides C := by
  induction A with
  | nil => rfl
  | cons d A ih => simp [strides, ih]

theorem strides_pos {dims : List Nat} (hpos : ∀ d ∈ dims, 0 < d) : ∀ s ∈ strides dims, 0 < s := by
  induction dims with
  | nil => simp [strides]
  | cons d dims ih =>
    have hrest : ∀ x ∈ dims, 0 < x := fun x hx => hpos x (List.mem_cons_of_mem d hx)
    intro s hs
    rcases List.mem_cons.mp hs with rfl | hs
    · exact List.prod_pos hrest
    · exact ih hrest s hs

theorem prod_eq_one_iff (dims : List Nat) : dims.prod = 1 ↔ ∀ d ∈ dims, d = 1 := by
  induction dims with
  | nil => simp
  | cons d dims ih => simp [ih]

/-! ## One dimension that gets another size -/

theorem prod_set_eq_iff {dims : List Nat} {d : Nat} (n : Nat) (hpos : ∀ x ∈ dims, 0 < x)
    (hd : d < dims.length) : (dims.set d n).prod = dims.prod ↔ n = dims.getD d 0 := by
  induction dims generalizing d with
  | nil => simp at hd
  | cons x dims ih =>
    have hrest : ∀ y ∈ dims, 0 < y := fun y hy => hpos y (List.mem_cons_of_mem x hy)
    cases d with
    | zero =>
      rw [List.set_cons_zero, List.prod_cons, List.prod_cons, List.getD_cons_zero]
      exact Nat.mul_left_inj (List.prod_pos hrest).ne'
    | succ d =>
      rw [List.set_cons_succ, List.prod_cons, List.prod_cons, List.getD_cons_succ,
        Nat.mul_right_inj (hpos x (by simp)).ne', ih hrest (by simpa using hd)]

/-- The strides of the new shape are those of the old one exactly when the size is the same or
the dimensions before are 1. -/
theorem agree_set_iff {dims : List Nat} {d : Nat} (n : Nat) (hpos : ∀ x ∈ dims, 0 < x)
    (hd : d < dims.length) :
    Agree (dims.set d n) (strides (dims.set d n)) (strides dims) ↔
      (∀ j < d, dims.getD j 0 = 1) ∨ n = dims.getD d 0 := by
  induction dims generalizing d with
  | nil => simp at hd
  | cons x dims ih =>
    have hx : 0 < x := hpos x (by simp)
    have hrest : ∀ y ∈ dims, 0 < y := fun y hy => hpos y (List.mem_cons_of_mem x hy)
    cases d with
    | zero => simp [strides, agree_refl]
    | succ d =>
      have hd' : d < dims.length := by simpa using hd
      have hsplit : (∀ j < d + 1, (x :: dims).getD j 0 = 1) ↔
          x = 1 ∧ ∀ j < d, dims.getD j 0 = 1 := by
        constructor
        · intro h
          exact ⟨h 0 (by omega), fun j hj => h (j + 1) (by omega)⟩
        · rintro ⟨hx1, h⟩ j hj
          cases j with
          | zero => exact hx1
          | succ j => exact h j (by omega)
      rw [List.set_cons_succ, strides, strides, agree_cons, prod_set_eq_iff n hrest hd',
        ih hrest hd', hsplit, List.getD_cons_succ]
      by_cases hx1 : x = 1
      · simp [hx1]
      · have : 1 < x := by omega
        simp only [this, hx1, true_implies, false_and, false_or]
        exact ⟨fun h => h.1, fun h => ⟨h, Or.inr h⟩⟩

/-! ## Two dimensions that change places -/

/-- Entries `i` and `j` change places. -/
def swap (l : List Nat) (i j : Nat) : List Nat := (l.set i (l.getD j 0)).set j (l.getD i 0)

@[simp] theorem length_swap (l : List Nat) (i j : Nat) : (swap l i j).length = l.length := by
  simp [swap]

theorem swap_self (l : List Nat) (i : Nat) : swap l i i = l := by
  unfold swap
  rw [List.set_set]
  by_cases hi : i < l.length
  · rw [List.getD_eq_getElem _ _ hi, List.set_getElem_self]
  · exact List.set_eq_of_length_le (by omega)

theorem swap_comm (l : List Nat) (i j : Nat) : swap l i j = swap l j i := by
  by_cases h : i = j
  · rw [h]
  · exact List.set_comm _ _ h

/-- A list with the entries `x` and `y` at the places `i < j`. -/
theorem exists_parts {l : List Nat} {i j : Nat} (hij : i < j) (hj : j < l.length) :
    ∃ A x B y C, l = A ++ x :: (B ++ y :: C) ∧ A.length = i ∧ B.length = j - i - 1 := by
  refine ⟨l.take i, l[i], (l.take j).drop (i + 1), l[j], l.drop (j + 1), ?_, ?_, ?_⟩
  · have hfirst : l.take j = l.take i ++ l[i] :: (l.take j).drop (i + 1) := by
      have hlen : i < (l.take j).length := by simp; omega
      calc l.take j = (l.take j).take i ++ (l.take j).drop i := (List.take_append_drop _ _).symm
        _ = l.take i ++ l[i] :: (l.take j).drop (i + 1) := by
          rw [List.take_take, Nat.min_eq_left (by omega), List.drop_eq_getElem_cons hlen]
          simp
    calc l = l.take j ++ l.drop j := (List.take_append_drop _ _).symm
      _ = _ := by
        rw [List.drop_eq_getElem_cons hj]
        nth_rewrite 1 [hfirst]
        simp
  · simp
    omega
  · simp
    omega

theorem swap_parts (A B C : List Nat) (x y : Nat) :
    swap (A ++ x :: (B ++ y :: C)) A.length (A.length + 1 + B.length) =
      A ++ y :: (B ++ x :: C) := by
  have hx : (A ++ x :: (B ++ y :: C)).getD A.length 0 = x := by simp
  have hy : (A ++ x :: (B ++ y :: C)).getD (A.length + 1 + B.length) 0 = y := by
    rw [List.getD_append_right _ _ _ _ (by omega),
      show A.length + 1 + B.length - A.length = B.length + 1 by omega, List.getD_cons_succ]
    simp
  unfold swap
  rw [hx, hy, List.set_append_right _ _ (by omega), Nat.sub_self, List.set_cons_zero,
    List.set_append_right _ _ (by omega),
    show A.length + 1 + B.length - A.length = B.length + 1 by omega, List.set_cons_succ,
    List.set_append_right _ _ (by omega), Nat.sub_self, List.set_cons_zero]

theorem swap_swap {l : List Nat} {i j : Nat} (hij : i < j) (hj : j < l.length) :
    swap (swap l i j) i j = l := by
  obtain ⟨A, x, B, y, C, rfl, rfl, hB⟩ := exists_parts hij hj
  obtain rfl : j = A.length + 1 + B.length := by omega
  rw [swap_parts, swap_parts]

theorem prod_swap {l : List Nat} {i j : Nat} (hi : i < l.length) (hj : j < l.length) :
    (swap l i j).prod = l.prod := by
  wlog hij : i < j generalizing i j
  · by_cases heq : i = j
    · rw [heq, swap_self]
    · rw [swap_comm]
      exact this hj hi (by omega)
  obtain ⟨A, x, B, y, C, rfl, rfl, hB⟩ := exists_parts hij hj
  obtain rfl : j = A.length + 1 + B.length := by omega
  rw [swap_parts]
  simp only [List.prod_append, List.prod_cons]
  ring

theorem offset_append {index strides : List Nat} (index' strides' : List Nat)
    (hlen : index.length = strides.length) :
    offset (index ++ index') (strides ++ strides') =
      offset index strides + offset index' strides' := by
  unfold offset
  rw [List.zipWith_append hlen, List.sum_append]

/-- Coordinates that change places with their strides give the same place. -/
theorem offset_swap {index strides : List Nat} {i j : Nat} (hij : i < j) (hj : j < index.length)
    (hlen : index.length = strides.length) :
    offset (swap index i j) (swap strides i j) = offset index strides := by
  obtain ⟨A, x, B, y, C, rfl, rfl, hB⟩ := exists_parts hij hj
  obtain ⟨A', x', B', y', C', rfl, hA', hB'⟩ := exists_parts hij (hlen ▸ hj)
  obtain rfl : j = A.length + 1 + B.length := by omega
  have hswap' := swap_parts A' B' C' x' y'
  rw [hA', show A.length + 1 + B'.length = A.length + 1 + B.length by omega] at hswap'
  have hBlen : B.length = B'.length := by omega
  rw [swap_parts, hswap', offset_append _ _ hA'.symm, offset_append _ _ hA'.symm, offset_cons,
    offset_cons, offset_append _ _ hBlen, offset_append _ _ hBlen, offset_cons, offset_cons]
  ring

theorem Within.getD {index dims : List Nat} (h : Within index dims) {k : Nat}
    (hk : k < dims.length) : index.getD k 0 < dims.getD k 0 := by
  induction h generalizing k with
  | nil => simp at hk
  | cons hlt _ ih =>
    cases k with
    | zero => exact hlt
    | succ k => exact ih (by simpa using hk)

theorem Within.set {index dims : List Nat} (h : Within index dims) (k : Nat) {i d : Nat}
    (hi : i < d) : Within (index.set k i) (dims.set k d) := by
  induction h generalizing k with
  | nil => exact .nil
  | cons hlt hrest ih =>
    cases k with
    | zero => exact .cons hi hrest
    | succ k => exact .cons hlt (ih k)

theorem Within.swap {index dims : List Nat} (h : Within index dims) {i j : Nat}
    (hi : i < dims.length) (hj : j < dims.length) :
    Within (swap index i j) (swap dims i j) :=
  (h.set i (h.getD hj)).set j (h.getD hi)

/-- A second change of the places undoes the first. -/
theorem swap_swap_cancel {l : List Nat} {i j : Nat} (hi : i < l.length) (hj : j < l.length) :
    swap (swap l i j) i j = l := by
  rcases lt_trichotomy i j with hij | rfl | hij
  · exact swap_swap hij hj
  · rw [swap_self, swap_self]
  · rw [swap_comm, swap_comm l, swap_swap hij hi]

/-- Strides that change places are as coordinates that do. -/
theorem offset_swap_strides {index strides : List Nat} {i j : Nat} (hi : i < index.length)
    (hj : j < index.length) (hlen : index.length = strides.length) :
    offset index (swap strides i j) = offset (swap index i j) strides := by
  wlog hij : i < j generalizing i j
  · by_cases heq : i = j
    · rw [heq, swap_self, swap_self]
    · rw [swap_comm, swap_comm index]
      exact this hj hi (by omega)
  rw [← offset_swap hij (by simpa using hj) (by simpa using hlen), swap_swap hij (hlen ▸ hj)]

theorem Within.swap_back {index dims : List Nat} {i j : Nat} (hi : i < dims.length)
    (hj : j < dims.length) (h : Within index (RowMajor.swap dims i j)) :
    Within (RowMajor.swap index i j) dims := by
  have hback := h.swap (i := i) (j := j) (by simpa using hi) (by simpa using hj)
  rwa [swap_swap_cancel hi hj] at hback

/-- The places stay inside the array when two dimensions change places. -/
theorem Within.offset_swap_lt {index dims : List Nat} {i j : Nat} (hi : i < dims.length)
    (hj : j < dims.length) (h : Within index (RowMajor.swap dims i j)) :
    offset index (RowMajor.swap (strides dims) i j) < dims.prod := by
  have hlen : index.length = dims.length := by simpa using List.Forall₂.length_eq h
  rw [offset_swap_strides (hlen ▸ hi) (hlen ▸ hj) (by simpa using hlen)]
  exact (h.swap_back hi hj).offset_lt

theorem strides_parts (A B C : List Nat) (x y : Nat) :
    strides (A ++ x :: (B ++ y :: C)) =
      (strides A).map (· * (x * (B.prod * (y * C.prod)))) ++
        (B.prod * (y * C.prod)) ::
          ((strides B).map (· * (y * C.prod)) ++ C.prod :: strides C) := by
  rw [strides_append, strides, strides_append, strides]
  simp

/-- When two dimensions change places together with their strides, the order stays row-major
exactly if no dimension above 1 passes another one. -/
theorem agree_swap_iff {A B C : List Nat} {x y : Nat}
    (hpos : ∀ d ∈ A ++ x :: (B ++ y :: C), 0 < d) :
    Agree (A ++ y :: (B ++ x :: C))
      (swap (strides (A ++ x :: (B ++ y :: C))) A.length (A.length + 1 + B.length))
      (strides (A ++ y :: (B ++ x :: C))) ↔
    (x = 1 ∧ y = 1) ∨ ((x = 1 ∨ y = 1) ∧ ∀ z ∈ B, z = 1) := by
  have hx : 0 < x := hpos x (by simp)
  have hy : 0 < y := hpos y (by simp)
  have hB : ∀ z ∈ B, 0 < z := fun z hz => hpos z (by simp [hz])
  have hC : 0 < C.prod := List.prod_pos fun z hz => hpos z (by simp [hz])
  have hswap : swap (strides (A ++ x :: (B ++ y :: C))) A.length (A.length + 1 + B.length) =
      (strides A).map (· * (x * (B.prod * (y * C.prod)))) ++
        C.prod :: ((strides B).map (· * (y * C.prod)) ++ (B.prod * (y * C.prod)) :: strides C) := by
    rw [strides_parts]
    have h := swap_parts ((strides A).map (· * (x * (B.prod * (y * C.prod)))))
      ((strides B).map (· * (y * C.prod))) (strides C) (B.prod * (y * C.prod)) C.prod
    simpa using h
  have hsame : x * (B.prod * (y * C.prod)) = y * (B.prod * (x * C.prod)) := by ring
  rw [hswap, strides_parts, hsame, agree_append (by simp) (by simp), agree_cons,
    agree_append (by simp) (by simp), agree_cons,
    agree_map_mul_iff _ _ (by simp) (strides_pos hB)]
  have hA : Agree A ((strides A).map (· * (y * (B.prod * (x * C.prod)))))
      ((strides A).map (· * (y * (B.prod * (x * C.prod))))) := agree_refl _ _
  have hlast : Agree C (strides C) (strides C) := agree_refl _ _
  -- a place at an end keeps its stride if what lies behind it is as large as before
  have hend : ∀ w, B.prod * (w * C.prod) = C.prod ↔ w = 1 ∧ ∀ z ∈ B, z = 1 := by
    intro w
    rw [← prod_eq_one_iff, ← mul_assoc]
    constructor
    · intro h
      have hone : B.prod * w = 1 := Nat.eq_of_mul_eq_mul_right hC (by omega)
      exact ⟨Nat.eq_one_of_mul_eq_one_left hone, Nat.eq_one_of_mul_eq_one_right hone⟩
    · rintro ⟨rfl, h⟩
      simp [h]
  have hfirst : C.prod = B.prod * (x * C.prod) ↔ x = 1 ∧ ∀ z ∈ B, z = 1 := by
    rw [eq_comm, hend]
  have hbetween : y * C.prod = x * C.prod ↔ y = x := Nat.mul_left_inj hC.ne'
  have hB1 : (∀ z ∈ B, z ≤ 1) ↔ ∀ z ∈ B, z = 1 := by
    constructor
    · intro h z hz
      have := h z hz
      have := hB z hz
      omega
    · intro h z hz
      rw [h z hz]
  simp only [hA, hlast, true_and, and_true, hfirst, hbetween, hend, hB1]
  by_cases hx1 : x = 1
  · subst hx1
    by_cases hy1 : y = 1
    · simp [hy1]
    · have : 1 < y := by omega
      simp [hy1, this]
  · have : 1 < x := by omega
    by_cases hy1 : y = 1
    · simp [hx1, hy1, this, Ne.symm hx1]
    · have : 1 < y := by omega
      simp [hx1, hy1, this]

end RowMajor
