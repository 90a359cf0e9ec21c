-- `sci::TensorShape` as the code keeps it (include/core/types.hpp, 125-210): an array of
-- eight slots beside `ndims_`, which no constructor holds to eight. An access outside of the
-- array is undefined, and gives `none` here.
import Scicompute.SignedWord

open Word

namespace sci.int64

def kMaxDim : Nat := 8

/-- `std::array<index_t, kMaxDim>` -/
abbrev Slots := Fin kMaxDim → Int

namespace Slots

def get (a : Slots) (i : Nat) : Option Int := if h : i < kMaxDim then some (a ⟨i, h⟩) else none

def set (a : Slots) (i : Nat) (d : Int) : Option Slots :=
  if h : i < kMaxDim then some (Function.update a ⟨i, h⟩ d) else none

/-- An `index_t` that is negative becomes a `size_t` behind the last slot. -/
def at_index (a : Slots) (i : Int) : Option Int := if 0 ≤ i then a.get i.toNat else none

end Slots

structure TensorShape where
  dims_ : Slots
  ndims_ : Int
  deriving DecidableEq

namespace TensorShape

/-! ## Constructors -/

/-- The constructor from an `initializer_list`, which drops what does not fit. -/
def of_initializer_list (dims : List Int) : TensorShape where
  dims_ := (dims.foldl (fun (s : Nat × Slots) d =>
    if h : s.1 < kMaxDim then (s.1 + 1, Function.update s.2 ⟨s.1, h⟩ d) else s) (0, fun _ => 0)).2
  ndims_ := dims.length

/-- The loop `dims_[i] = dims[i]` of the other two constructors. -/
def copy_dims (dims : Nat → Option Int) (n : Nat) : Option Slots :=
  (List.range n).foldlM (fun a i => (dims i).bind (a.set i)) fun _ => 0

def of_vector (dims : List Int) : Option TensorShape :=
  (copy_dims (dims[·]?) dims.length).map (⟨·, dims.length⟩)

def of_array (dims : Slots) (ndims : Int) : Option TensorShape :=
  (copy_dims dims.get ndims.toNat).map (⟨·, ndims⟩)

/-! ## Loops over the slots -/

def num_elements (s : TensorShape) : Option Int :=
  if s.ndims_ = 0 then some 0
  else (List.range s.ndims_.toNat).foldlM (fun n i => (s.dims_.get i).map (imul n)) 1

/-- An argument of `count` from the end of the shape. -/
def wrap (s : TensorShape) (i : Int) : Int := if i < 0 then s.ndims_ + i else i

def count (s : TensorShape) (start «end» : Int) : Option Int :=
  (List.range (s.wrap «end» - s.wrap start).toNat).foldlM
    (fun n (k : Nat) => (s.dims_.at_index (s.wrap start + k)).map (imul n)) 1

/-- The loop of `strides()`, for the entries `i - 1` down to 0. -/
def strides_loop (s : TensorShape) : Nat → List Int → Option (List Int)
  | 0, l => some l
  | i + 1, l =>
    (s.dims_.get (i + 1)).bind fun d => strides_loop s i (l.set i (imul (l.getD (i + 1) 0) d))

def strides (s : TensorShape) : Option (List Int) :=
  s.strides_loop (s.ndims_ - 1).toNat (List.replicate s.ndims_.toNat 1)

def dims (s : TensorShape) : Option (List Int) := (List.range s.ndims_.toNat).mapM s.dims_.get

def equal_loop (s other : TensorShape) : List Nat → Option Bool
  | [] => some true
  | i :: is =>
    (s.dims_.get i).bind fun d => (other.dims_.get i).bind fun e =>
      if d ≠ e then some false else equal_loop s other is

/-- `operator==` -/
def equal (s other : TensorShape) : Option Bool :=
  if s.ndims_ ≠ other.ndims_ then some false
  else s.equal_loop other (List.range s.ndims_.toNat)

/-! ## Accesses -/

end TensorShape

theorem Slots.get_isSome (a : Slots) (i : Nat) : (a.get i).isSome ↔ i < kMaxDim := by
  unfold get
  split_ifs with h <;> simp [h]

/-- A loop that reads one slot in each round gets to its end when all the slots exist. -/
theorem foldlM_isSome {α β : Type} (g : α → Option Int) (f : β → α → Int → β) (l : List α) (b : β) :
    (l.foldlM (fun b i => (g i).map (f b i)) b).isSome ↔ ∀ i ∈ l, (g i).isSome := by
  induction l generalizing b with
  | nil => simp
  | cons i l ih =>
    rw [List.foldlM_cons, List.forall_mem_cons]
    cases hi : g i with
    | none => simp
    | some d => simpa using ih (f b i d)

theorem mapM_eq_some {α β : Type} (g : α → Option β) (l : List α) (bs : List β) :
    l.mapM g = some bs ↔ l.map g = bs.map some := by
  induction l generalizing bs with
  | nil => cases bs <;> simp
  | cons i l ih =>
    rw [List.mapM_cons, List.map_cons]
    cases hi : g i with
    | none => cases bs <;> simp
    | some d =>
      cases bs with
      | nil => cases l.mapM g <;> simp
      | cons b bs =>
        have hrest := ih bs
        cases hl : l.mapM g with
        | none =>
          rw [hl] at hrest
          simp only [reduceCtorEq, false_iff] at hrest
          simp [hrest]
        | some cs =>
          rw [hl, Option.some.injEq] at hrest
          simp [← hrest]

theorem mapM_isSome {α β : Type} {g : α → Option β} {l : List α} (h : (l.mapM g).isSome) :
    ∀ i ∈ l, (g i).isSome := by
  obtain ⟨bs, hbs⟩ := Option.isSome_iff_exists.mp h
  rw [mapM_eq_some] at hbs
  intro i hi
  have hmem : g i ∈ bs.map some := hbs ▸ List.mem_map_of_mem hi
  obtain ⟨b, -, hb⟩ := List.mem_map.mp hmem
  rw [← hb]
  rfl

namespace TensorShape

/-! ## The slots that a constructor fills -/

theorem copy_dims_of_le {f : Nat → Option Int} {g : Nat → Int} {n : Nat} (hn : n ≤ kMaxDim)
    (hf : ∀ i < n, f i = some (g i)) :
    copy_dims f n = some fun i : Fin kMaxDim => if i.val < n then g i else 0 := by
  unfold copy_dims
  induction n with
  | zero => simp
  | succ n ih =>
    have hslot : n < kMaxDim := hn
    rw [List.range_succ, List.foldlM_append, ih (by omega) fun i hi => hf i (by omega)]
    simp only [Option.bind_eq_bind, Option.bind_some, List.foldlM_cons, List.foldlM_nil, hf n (by omega),
      Slots.set, dif_pos hslot, Option.pure_def, Option.some.injEq]
    funext i
    by_cases hi : i = ⟨n, hslot⟩
    · subst hi
      simp
    · have hne : i.val ≠ n := fun h => hi (Fin.ext h)
      rw [Function.update_of_ne hi]
      by_cases hlt : i.val < n
      · simp [hlt, Nat.lt_succ_of_lt hlt]
      · have hge : ¬ i.val < n + 1 := by omega
        simp [hlt, hge]

/-- The ninth round writes behind the last slot. -/
theorem copy_dims_of_lt (f : Nat → Option Int) {n : Nat} (hn : kMaxDim < n) :
    copy_dims f n = none := by
  unfold copy_dims
  induction n with
  | zero => exact absurd hn (Nat.not_lt_zero _)
  | succ n ih =>
    rw [List.range_succ, List.foldlM_append]
    by_cases hlast : n = kMaxDim
    · subst hlast
      have hround : ∀ a : Slots, ((f kMaxDim).bind (a.set kMaxDim)) = none := by
        intro a
        cases f kMaxDim <;> simp [Slots.set]
      cases (List.range kMaxDim).foldlM (fun (a : Slots) i => (f i).bind (a.set i))
          (fun _ => 0) with
      | none => rfl
      | some a => simp [hround]
    · rw [ih (by omega)]
      rfl

theorem foldl_initializer_list (ds : List Int) {i : Nat} (a : Slots)
    (hle : i + ds.length ≤ kMaxDim) :
    (ds.foldl (fun (s : Nat × Slots) d =>
      if h : s.1 < kMaxDim then (s.1 + 1, Function.update s.2 ⟨s.1, h⟩ d) else s) (i, a)).2 =
    fun j : Fin kMaxDim => if i ≤ j.val ∧ j.val < i + ds.length then ds.getD (j - i) 0 else a j := by
  induction ds generalizing i a with
  | nil =>
    funext j
    simp
  | cons d ds ih =>
    rw [List.length_cons] at hle
    have hi : i < kMaxDim := by omega
    rw [List.foldl_cons, dif_pos hi, ih _ (by omega)]
    funext j
    by_cases hj : j.val = i
    · have hfirst : j = ⟨i, hi⟩ := Fin.ext hj
      subst hfirst
      simp
    · have hother : j ≠ ⟨i, hi⟩ := fun h => hj (congrArg Fin.val h)
      rw [Function.update_of_ne hother]
      by_cases hin : i ≤ j.val ∧ j.val < i + (d :: ds).length
      · obtain ⟨k, hk⟩ : ∃ k, j.val = i + 1 + k := ⟨j.val - (i + 1), by omega⟩
        have hrest : i + 1 ≤ j.val ∧ j.val < i + 1 + ds.length := by
          rw [List.length_cons] at hin
          omega
        rw [if_pos hrest, if_pos hin, hk, show i + 1 + k - (i + 1) = k by omega,
          show i + 1 + k - i = k + 1 by omega, List.getD_cons_succ]
      · have hrest : ¬ (i + 1 ≤ j.val ∧ j.val < i + 1 + ds.length) := by
          rw [List.length_cons] at hin
          omega
        rw [if_neg hrest, if_neg hin]

/-- The shape holds the dimensions in its first slots. -/
structure Holds (s : TensorShape) (ds : List Int) : Prop where
  ndims_ : s.ndims_ = ds.length
  length_le : ds.length ≤ kMaxDim
  get : ∀ i < ds.length, s.dims_.get i = ds[i]?

theorem holds_of_slots {dims_ : Slots} {ds : List Int} (hle : ds.length ≤ kMaxDim)
    (hslots : ∀ i : Fin kMaxDim, i.val < ds.length → dims_ i = ds.getD i 0) :
    Holds ⟨dims_, ds.length⟩ ds := by
  refine ⟨rfl, hle, ?_⟩
  intro i hi
  have hslot : i < kMaxDim := by omega
  change Slots.get dims_ i = _
  unfold Slots.get
  rw [dif_pos hslot, hslots ⟨i, hslot⟩ hi, List.getElem?_eq_getElem hi, List.getD_eq_getElem _ _ hi]

theorem Holds.dims {s : TensorShape} {ds : List Int} (h : s.Holds ds) : s.dims = some ds := by
  unfold TensorShape.dims
  rw [mapM_eq_some, h.ndims_, Int.toNat_natCast]
  apply List.ext_getElem
  · simp
  · intro i hi hi'
    have hlt : i < ds.length := by simpa using hi'
    simp [h.get i hlt, hlt]

theorem dims_of_lt {s : TensorShape} (h : kMaxDim < s.ndims_.toNat) : s.dims = none := by
  by_contra hne
  have hread := mapM_isSome (Option.isSome_iff_ne_none.mpr hne) kMaxDim (List.mem_range.mpr h)
  rw [Slots.get_isSome] at hread
  exact Nat.lt_irrefl _ hread

/-! ## Loops that stay in the slots -/

theorem strides_loop_isSome (s : TensorShape) {i : Nat} (hi : i < kMaxDim) (l : List Int) :
    (s.strides_loop i l).isSome := by
  induction i generalizing l with
  | zero => rfl
  | succ i ih =>
    unfold strides_loop
    obtain ⟨d, hd⟩ := Option.isSome_iff_exists.mp ((s.dims_.get_isSome (i + 1)).mpr hi)
    rw [hd]
    exact ih (by omega) _

theorem equal_loop_isSome (s other : TensorShape) {is : List Nat} (his : ∀ i ∈ is, i < kMaxDim) :
    (s.equal_loop other is).isSome := by
  induction is with
  | nil => rfl
  | cons i is ih =>
    rw [List.forall_mem_cons] at his
    unfold equal_loop
    obtain ⟨d, hd⟩ := Option.isSome_iff_exists.mp ((s.dims_.get_isSome i).mpr his.1)
    obtain ⟨e, he⟩ := Option.isSome_iff_exists.mp ((other.dims_.get_isSome i).mpr his.1)
    rw [hd, he, Option.bind_some, Option.bind_some]
    split_ifs
    · rfl
    · exact ih his.2

/-- The range that `count` goes through is empty, or in the slots. -/
def CountsInside (ndims start «end» : Int) : Prop :=
  let wrap := fun i : Int => if i < 0 then ndims + i else i
  wrap start < wrap «end» → 0 ≤ wrap start ∧ wrap «end» ≤ kMaxDim

instance (ndims start «end» : Int) : Decidable (CountsInside ndims start «end») :=
  inferInstanceAs (Decidable (_ → _))

theorem at_index_isSome (a : Slots) (i : Int) : (a.at_index i).isSome ↔ 0 ≤ i ∧ i < kMaxDim := by
  unfold Slots.at_index
  split_ifs with hi
  · rw [Slots.get_isSome]
    omega
  · simp [hi]

theorem count_isSome_iff (s : TensorShape) (start «end» : Int) :
    (s.count start «end»).isSome ↔ CountsInside s.ndims_ start «end» := by
  unfold count
  rw [foldlM_isSome]
  simp only [List.mem_range, at_index_isSome]
  change _ ↔ (s.wrap start < s.wrap «end» → 0 ≤ s.wrap start ∧ s.wrap «end» ≤ kMaxDim)
  constructor
  · intro h hlt
    -- the first round and the last one
    have hfirst := h 0 (by omega)
    have hlast := h (s.wrap «end» - s.wrap start - 1).toNat (by omega)
    omega
  · intro h k hk
    have := h (by omega)
    omega

/-- No loop leaves the slots, with the arguments of `count` and the other side of `==` given. -/
structure LoopsInside (s other : TensorShape) (start «end» : Int) : Prop where
  num_elements : s.num_elements.isSome
  count : (s.count start «end»).isSome
  strides : s.strides.isSome
  dims : s.dims.isSome
  equal : (s.equal other).isSome

theorem Holds.loopsInside {s : TensorShape} {ds : List Int} (h : s.Holds ds) (other : TensorShape)
    {start «end» : Int} (hcount : CountsInside ds.length start «end») :
    s.LoopsInside other start «end» := by
  have hle := h.length_le
  have hsize : s.ndims_.toNat = ds.length := by rw [h.ndims_, Int.toNat_natCast]
  refine ⟨?_, ?_, ?_, ?_, ?_⟩
  · unfold TensorShape.num_elements
    split_ifs
    · rfl
    · rw [foldlM_isSome]
      intro i hi
      rw [List.mem_range] at hi
      exact (s.dims_.get_isSome i).mpr (by omega)
  · rw [count_isSome_iff, h.ndims_]
    exact hcount
  · refine s.strides_loop_isSome ?_ _
    unfold kMaxDim at hle ⊢
    omega
  · rw [h.dims]
    rfl
  · unfold TensorShape.equal
    split_ifs
    · rfl
    · refine equal_loop_isSome s other ?_
      intro i hi
      rw [List.mem_range] at hi
      omega

/-! ## The three constructors -/

/-- The array of the third constructor begins with the dimensions that are given, and has `rest`
in its other slots. -/
inductive Constructor
  | initializer_list
  | vector
  | array (rest : Slots)

def construct : Constructor → List Int → Option TensorShape
  | .initializer_list, ds => some (of_initializer_list ds)
  | .vector, ds => of_vector ds
  | .array rest, ds => of_array (fun i => ds.getD i (rest i)) ds.length

theorem holds_of_initializer_list {ds : List Int} (hle : ds.length ≤ kMaxDim) :
    (of_initializer_list ds).Holds ds := by
  refine holds_of_slots hle ?_
  intro i hi
  rw [foldl_initializer_list ds _ (by omega)]
  simp [hi]

theorem holds_of_copy_dims {f : Nat → Option Int} {ds : List Int} (hle : ds.length ≤ kMaxDim)
    (hf : ∀ i < ds.length, f i = ds[i]?) :
    ∃ s : TensorShape, (copy_dims f ds.length).map (⟨·, ds.length⟩) = some s ∧ s.Holds ds := by
  have hcopy := copy_dims_of_le (f := f) (g := fun i => ds.getD i 0) hle fun i hi => by
    rw [hf i hi, List.getElem?_eq_getElem hi, List.getD_eq_getElem _ _ hi]
  refine ⟨_, by rw [hcopy]; rfl, holds_of_slots hle ?_⟩
  intro i hi
  exact if_pos hi

theorem exists_holds (c : Constructor) {ds : List Int} (hle : ds.length ≤ kMaxDim) :
    ∃ s, construct c ds = some s ∧ s.Holds ds := by
  cases c with
  | initializer_list => exact ⟨_, rfl, holds_of_initializer_list hle⟩
  | vector => exact holds_of_copy_dims hle fun i _ => rfl
  | array rest =>
    refine holds_of_copy_dims hle ?_
    intro i hi
    have hslot : i < kMaxDim := by omega
    simp [Slots.get, hslot, hi]

/-- With a ninth dimension a constructor writes behind the slots, or makes a shape that has
fewer slots than dimensions. -/
theorem dims_of_construct_of_lt {c : Constructor} {ds : List Int} {s : TensorShape}
    (hlt : kMaxDim < ds.length) (hs : construct c ds = some s) : s.dims = none := by
  cases c with
  | initializer_list =>
    cases hs
    exact dims_of_lt (by simpa [of_initializer_list] using hlt)
  | vector => simp [construct, of_vector, copy_dims_of_lt _ hlt] at hs
  | array rest => simp [construct, of_array, copy_dims_of_lt _ hlt] at hs

/-- A constructor makes the shape that it is asked for, and no loop leaves its slots, exactly when
there are at most eight dimensions and `count` is asked for slots that exist. -/
theorem shapes_stay_in_their_slots_iff (c : Constructor) (ds : List Int) (other : TensorShape)
    (start «end» : Int) :
    (∃ s, construct c ds = some s ∧ s.dims = some ds ∧ s.LoopsInside other start «end») ↔
      ds.length ≤ kMaxDim ∧ CountsInside ds.length start «end» := by
  constructor
  · rintro ⟨s, hs, hdims, hloops⟩
    by_cases hle : ds.length ≤ kMaxDim
    · obtain ⟨s', hs', hholds⟩ := exists_holds c hle
      rw [hs, Option.some.injEq] at hs'
      subst hs'
      have hcount := (count_isSome_iff s start «end»).mp hloops.count
      rw [hholds.ndims_] at hcount
      exact ⟨hle, hcount⟩
    · rw [dims_of_construct_of_lt (by omega) hs] at hdims
      cases hdims
  · rintro ⟨hle, hcount⟩
    obtain ⟨s, hs, hholds⟩ := exists_holds c hle
    exact ⟨s, hs, hholds.dims, hholds.loopsInside other hcount⟩

/-- Nine dimensions: the vector is written behind the slots, and `num_elements` of the
initializer list reads there. -/
theorem a_ninth_dimension_has_no_slot :
    construct .vector (List.replicate 9 1) = none ∧
    ∃ s, construct .initializer_list (List.replicate 9 1) = some s ∧ s.num_elements = none := by
  refine ⟨by decide, _, rfl, by decide⟩

end TensorShape

end sci.int64
