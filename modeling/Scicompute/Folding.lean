-- Commutative and associative operations on many values: in two parts, by halves, and on the values
-- of many multisets.
import Mathlib

namespace Folding

variable {V : Type*} {op : V → V → V} [Std.Commutative op] [Std.Associative op] {e : V}

/-- Two parts of a range. -/
theorem fold_range_add (he : ∀ a, op e a = a) (f : Nat → V) (n m : Nat) :
    (Finset.range (n + m)).fold op e f =
      op ((Finset.range n).fold op e f) ((Finset.range m).fold op e fun i => f (n + i)) := by
  have hcomm : ∀ a b, op a b = op b a := Std.Commutative.comm
  have hassoc : ∀ a b c, op (op a b) c = op a (op b c) := Std.Associative.assoc
  induction m with
  | zero => rw [Finset.range_zero, Finset.fold_empty, Nat.add_zero, hcomm, he]
  | succ m ih =>
    rw [← Nat.add_assoc, Finset.range_add_one, Finset.range_add_one,
      Finset.fold_insert Finset.notMem_range_self, Finset.fold_insert Finset.notMem_range_self, ih,
      ← hassoc, hcomm (f (n + m)), hassoc]

/-- The second half is folded into the first one. -/
theorem fold_range_halve (he : ∀ a, op e a = a) (f : Nat → V) (d : Nat) :
    (Finset.range d).fold op e (fun i => op (f i) (f (d + i))) =
      (Finset.range (d + d)).fold op e f := by
  have hsplit : (Finset.range d).fold op (op e e) (fun i => op (f i) (f (d + i))) =
      op ((Finset.range d).fold op e f) ((Finset.range d).fold op e fun i => f (d + i)) :=
    Finset.fold_op_distrib
  rw [he e] at hsplit
  rw [hsplit, fold_range_add he]

/-- The values of the elements of many multisets. -/
theorem map_sum_range {A B : Type*} (f : A → B) (s : Nat → Multiset A) (n : Nat) :
    (∑ t ∈ Finset.range n, s t).map f = ∑ t ∈ Finset.range n, (s t).map f :=
  map_sum (Multiset.mapAddMonoidHom f) s (Finset.range n)

/-- The values of many multisets. -/
theorem fold_sum (he : ∀ a, op e a = a) (s : Nat → Multiset V) (n : Nat) :
    (∑ t ∈ Finset.range n, s t).fold op e = (Finset.range n).fold op e fun t => (s t).fold op e := by
  induction n with
  | zero => simp
  | succ n ih =>
    have hadd := Multiset.fold_add op e e (∑ t ∈ Finset.range n, s t) (s n)
    rw [he e] at hadd
    rw [Finset.sum_range_succ, hadd, ih, Finset.range_add_one,
      Finset.fold_insert Finset.notMem_range_self]
    exact Std.Commutative.comm _ _

/-- Blocks of `d` values. -/
theorem fold_range_blocks (he : ∀ a, op e a = a) (f : Nat → V) (d n : Nat) :
    ((Finset.range n).fold op e fun b => (Finset.range d).fold op e fun u => f (b * d + u)) =
      (Finset.range (n * d)).fold op e f := by
  have hcomm : ∀ a b, op a b = op b a := Std.Commutative.comm
  induction n with
  | zero => rw [Nat.zero_mul, Finset.range_zero, Finset.fold_empty, Finset.fold_empty]
  | succ n ih =>
    rw [Finset.range_add_one, Finset.fold_insert Finset.notMem_range_self, ih, Nat.succ_mul,
      fold_range_add he, hcomm]

/-- The values one after the other. -/
theorem foldl_range (op : V → V → V) [Std.Commutative op] [Std.Associative op] (e : V) (f : Nat → V)
    (n : Nat) : (List.range n).foldl (fun x i => op x (f i)) e = (Finset.range n).fold op e f := by
  rw [← List.foldl_map, ← Multiset.coe_fold_l, ← Multiset.map_coe]
  rfl

/-- Two loops in one. -/
theorem foldl_pair {A B C : Type*} (f : A → C → A) (h : B → C → B) (l : List C) (a : A) (b : B) :
    l.foldl (fun s c => (f s.1 c, h s.2 c)) (a, b) = (l.foldl f a, l.foldl h b) := by
  induction l generalizing a b with
  | nil => rfl
  | cons c l ih => exact ih (f a c) (h b c)

end Folding
