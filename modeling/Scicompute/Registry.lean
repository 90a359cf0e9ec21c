-- Items that are registered under the numbers 1, 2, 3 and so on, and removed by their
-- numbers. The position of an item tells its number as long as no item with a smaller
-- number was removed, and not longer.
import Mathlib

/-- `live` lists the items that are registered and not removed, with their numbers. -/
structure Registry (C : Type*) where
  added : Nat
  live : List (Nat × C)
  sorted : (live.map Prod.fst).Pairwise (· < ·)
  range : ∀ n ∈ live.map Prod.fst, 1 ≤ n ∧ n ≤ added

namespace Registry

variable {C : Type*}

def empty : Registry C := ⟨0, [], by simp, by simp⟩

/-- The item gets the next number. -/
def add (r : Registry C) (c : C) : Registry C where
  added := r.added + 1
  live := r.live ++ [(r.added + 1, c)]
  sorted := by
    rw [List.map_append, List.pairwise_append]
    refine ⟨r.sorted, by simp, ?_⟩
    intro n hn k hk
    have := (r.range n hn).2
    have : k = r.added + 1 := by simpa using hk
    omega
  range := by
    intro n hn
    rw [List.map_append, List.mem_append] at hn
    rcases hn with hn | hn
    · have := r.range n hn
      omega
    · have : n = r.added + 1 := by simpa using hn
      omega

def holds (r : Registry C) (n : Nat) : Bool := decide (n ∈ r.live.map Prod.fst)

def remove (r : Registry C) (n : Nat) : Registry C where
  added := r.added
  live := r.live.filter (·.1 ≠ n)
  sorted := r.sorted.sublist (List.filter_sublist.map _)
  range := fun k hk => r.range k ((List.filter_sublist.map _).subset hk)

/-- Every number up to `n` is registered still. -/
def UpTo (r : Registry C) (n : Nat) : Prop := ∀ k, 1 ≤ k → k ≤ n → k ∈ r.live.map Prod.fst

instance (r : Registry C) (n : Nat) : Decidable (r.UpTo n) :=
  decidable_of_iff (∀ k ≤ n, 1 ≤ k → k ∈ r.live.map Prod.fst)
    ⟨fun h k h1 h2 => h k h2 h1, fun h k h1 h2 => h k h2 h1⟩

/-! ## Increasing lists of numbers -/

/-- An increasing list that has the numbers after `a`, and none before, begins with them. -/
theorem take_eq_range' {l : List Nat} {a n : Nat} (hsorted : l.Pairwise (· < ·))
    (hlow : ∀ k ∈ l, a < k) (hall : ∀ k, a < k → k ≤ a + n → k ∈ l) :
    l.take n = List.range' (a + 1) n := by
  induction n generalizing l a with
  | zero => rfl
  | succ n ih =>
    cases l with
    | nil => exact absurd (hall (a + 1) (by omega) (by omega)) (by simp)
    | cons x l =>
      rw [List.pairwise_cons] at hsorted
      have hx : x = a + 1 := by
        have := hlow x (List.mem_cons_self ..)
        rcases List.mem_cons.mp (hall (a + 1) (by omega) (by omega)) with h | h
        · exact h.symm
        · have := hsorted.1 _ h
          omega
      subst hx
      rw [List.take_succ_cons, List.range'_succ, ih hsorted.2 hsorted.1]
      intro k hk hk'
      rcases List.mem_cons.mp (hall k (by omega) (by omega)) with h | h
      · omega
      · exact h

/-- In an increasing list the later numbers are at least as far apart as their positions. -/
theorem le_getElem_of_sorted {l : List Nat} {a : Nat} (hsorted : l.Pairwise (· < ·))
    (hlow : ∀ k ∈ l, a < k) {i : Nat} (hi : i < l.length) : a + i + 1 ≤ l[i] := by
  induction l generalizing a i with
  | nil => cases hi
  | cons x l ih =>
    rw [List.pairwise_cons] at hsorted
    have hx := hlow x (List.mem_cons_self ..)
    cases i with
    | zero => exact hx
    | succ i =>
      have := ih hsorted.2 hsorted.1 (Nat.lt_of_succ_lt_succ hi)
      rw [List.getElem_cons_succ]
      omega

/-- A number that stands at its own position has all the smaller ones before it. -/
theorem mem_of_getElem_eq {l : List Nat} {a i : Nat} (hsorted : l.Pairwise (· < ·))
    (hlow : ∀ k ∈ l, a < k) (hi : i < l.length) (hn : l[i] = a + i + 1) :
    ∀ k, a < k → k ≤ a + i + 1 → k ∈ l := by
  induction l generalizing a i with
  | nil => cases hi
  | cons x l ih =>
    rw [List.pairwise_cons] at hsorted
    have hx := hlow x (List.mem_cons_self ..)
    intro k hk hk'
    cases i with
    | zero =>
      rw [List.getElem_cons_zero] at hn
      exact List.mem_cons.mpr (Or.inl (by omega))
    | succ i =>
      rw [List.getElem_cons_succ] at hn
      have hi' : i < l.length := Nat.lt_of_succ_lt_succ hi
      have hfar := le_getElem_of_sorted hsorted.2 hsorted.1 hi'
      rcases Nat.lt_or_ge (a + 1) k with hlt | hge
      · apply List.mem_cons_of_mem
        refine ih hsorted.2 (fun m hm => ?_) hi' (by omega) k hlt (by omega)
        have := hsorted.1 m hm
        omega
      · exact List.mem_cons.mpr (Or.inl (by omega))

theorem filter_ne_of_not_mem {l : List (Nat × C)} {n : Nat} (h : n ∉ l.map Prod.fst) :
    l.filter (·.1 ≠ n) = l := by
  rw [List.filter_eq_self]
  intro x hx
  rw [decide_eq_true_eq]
  rintro rfl
  exact h (List.mem_map_of_mem hx)

/-- What erasing at a position removes, in a list whose keys are not repeated. -/
theorem eraseIdx_eq_filter_iff {l : List (Nat × C)} (hnodup : (l.map Prod.fst).Nodup) {i n : Nat}
    (hi : i < l.length) : l.eraseIdx i = l.filter (·.1 ≠ n) ↔ (l[i]).1 = n := by
  induction l generalizing i with
  | nil => cases hi
  | cons x l ih =>
    rw [List.map_cons, List.nodup_cons] at hnodup
    cases i with
    | zero =>
      rw [List.eraseIdx_cons_zero, List.getElem_cons_zero, List.filter_cons]
      constructor
      · intro h
        by_contra hne
        rw [if_pos (by simpa using hne)] at h
        have hmem : x ∈ l := by
          rw [h]
          exact List.mem_cons_self ..
        exact hnodup.1 (List.mem_map_of_mem hmem)
      · intro h
        rw [if_neg (by simpa using h), filter_ne_of_not_mem (h ▸ hnodup.1)]
    | succ i =>
      have hi' : i < l.length := Nat.lt_of_succ_lt_succ hi
      rw [List.eraseIdx_cons_succ, List.getElem_cons_succ, List.filter_cons]
      by_cases hx : x.1 = n
      · rw [if_neg (by simpa using hx)]
        constructor
        · intro h
          -- the head stays in one list and not in the other
          have hmem : x ∈ l.filter (·.1 ≠ n) := h ▸ List.mem_cons_self ..
          exact absurd (List.mem_filter.mp hmem).2 (by simpa using hx)
        · intro h
          have hmem : (l[i]).1 ∈ l.map Prod.fst := List.mem_map_of_mem (List.getElem_mem hi')
          rw [h, ← hx] at hmem
          exact absurd hmem hnodup.1
      · rw [if_pos (by simpa using hx), List.cons.injEq, ← ih hnodup.2 hi']
        simp

/-! ## Positions and numbers -/

variable {r : Registry C}

theorem nodup (r : Registry C) : (r.live.map Prod.fst).Nodup :=
  r.sorted.imp Nat.ne_of_lt

theorem pos_of_mem (r : Registry C) : ∀ k ∈ r.live.map Prod.fst, 0 < k :=
  fun k hk => (r.range k hk).1

theorem remove_of_not_mem {n : Nat} (h : n ∉ r.live.map Prod.fst) : r.remove n = r := by
  cases r
  simp only [remove, mk.injEq, true_and]
  exact filter_ne_of_not_mem h

/-- The item with the number `n` is at position `n - 1` when all before it are registered still. -/
theorem getElem_of_upTo {n : Nat} (hn : 1 ≤ n) (h : r.UpTo n) :
    ∃ hi : n - 1 < r.live.length, (r.live[n - 1]).1 = n := by
  have htake : (r.live.map Prod.fst).take n = List.range' 1 n :=
    take_eq_range' r.sorted r.pos_of_mem (fun k hk hk' => h k hk (by omega))
  have hlen := congrArg List.length htake
  rw [List.length_take, List.length_map, List.length_range'] at hlen
  have hi : n - 1 < r.live.length := by omega
  refine ⟨hi, ?_⟩
  have hget := congrArg (·[n - 1]?) htake
  simp only [List.getElem?_take, List.getElem?_map, List.getElem?_range' (show n - 1 < n by omega)]
    at hget
  rw [if_pos (by omega), List.getElem?_eq_getElem hi] at hget
  simp only [Option.map_some, Option.some.injEq] at hget
  omega

theorem upTo_of_getElem {n : Nat} (hn : 1 ≤ n) (hi : n - 1 < r.live.length)
    (h : (r.live[n - 1]).1 = n) : r.UpTo n := by
  intro k hk hk'
  apply mem_of_getElem_eq (a := 0) (i := n - 1) r.sorted r.pos_of_mem (by simpa using hi)
  · rw [List.getElem_map, h]
    omega
  · omega
  · omega

/-- Erasing at position `n - 1` removes the item with the number `n` exactly when all before it are
registered still. -/
theorem eraseIdx_eq_remove_iff {n : Nat} (hn : 1 ≤ n) (hi : n - 1 < r.live.length) :
    r.live.eraseIdx (n - 1) = (r.remove n).live ↔ r.UpTo n := by
  rw [remove, eraseIdx_eq_filter_iff r.nodup hi]
  constructor
  · exact upTo_of_getElem hn hi
  · intro h
    exact (getElem_of_upTo hn h).2

/-! ## Items by their numbers -/

def find (r : Registry C) (n : Nat) : Option C := (r.live.find? (·.1 = n)).map Prod.snd

theorem find_eq_some_iff {n : Nat} {c : C} : r.find n = some c ↔ (n, c) ∈ r.live := by
  unfold find
  rw [Option.map_eq_some_iff]
  constructor
  · rintro ⟨⟨k, c'⟩, hfind, rfl⟩
    have hkey := List.find?_some hfind
    obtain rfl : k = n := by simpa using hkey
    exact List.mem_of_find?_eq_some hfind
  · intro hmem
    -- there is one item with the number `n`
    cases hfind : r.live.find? (·.1 = n) with
    | none =>
      exact absurd (decide_eq_true rfl) (List.find?_eq_none.mp hfind _ hmem)
    | some x =>
      have hkey := List.find?_some hfind
      have hx := List.mem_of_find?_eq_some hfind
      refine ⟨x, rfl, ?_⟩
      have heq := List.inj_on_of_nodup_map r.nodup hx hmem (by simpa using hkey)
      rw [heq]

theorem mem_add {n : Nat} {c c' : C} :
    (n, c') ∈ (r.add c).live ↔ (n = r.added + 1 ∧ c' = c) ∨ (n, c') ∈ r.live := by
  simp [add, or_comm]

theorem mem_remove {n k : Nat} {c : C} :
    (k, c) ∈ (r.remove n).live ↔ k ≠ n ∧ (k, c) ∈ r.live := by
  simp [remove, and_comm]

end Registry
