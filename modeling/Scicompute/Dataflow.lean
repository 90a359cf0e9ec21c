-- Values that are computed along a directed graph: the value of a vertex is a function of the
-- values of its predecessors. Whatever the order in which the vertices are taken, as long as each
-- one comes after its predecessors, the values are the same.
import Scicompute.DepthFirst

namespace Dataflow

open DepthFirst

variable {V R : Type*} [DecidableEq V] {pred : V → List V} {f : V → List R → R}

/-- The values after the vertices of a list are computed one after the other. -/
def evaluate (pred : V → List V) (f : V → List R → R) (init : V → R) (order : List V) : V → R :=
  order.foldl (fun r v => Function.update r v (f v ((pred v).map r))) init

/-- The last vertex of the order is computed from the values of the others. -/
theorem evaluate_reverse_cons (init : V → R) (v : V) (l : List V) :
    evaluate pred f init (v :: l).reverse =
      Function.update (evaluate pred f init l.reverse) v
        (f v ((pred v).map (evaluate pred f init l.reverse))) := by
  rw [evaluate, List.reverse_cons, List.foldl_append]
  rfl

/-- What is computed first is the first vertex of the list; it is the last one of the order. -/
theorem evaluate_cons_of_ne (init : V → R) {v x : V} (h : x ≠ v) (l : List V) :
    evaluate pred f init (v :: l).reverse x = evaluate pred f init l.reverse x := by
  rw [evaluate_reverse_cons, Function.update_of_ne h]

theorem evaluate_cons_of_mem (init : V → R) {v x : V} {l : List V} (hv : v ∉ l) (hx : x ∈ l) :
    evaluate pred f init (v :: l).reverse x = evaluate pred f init l.reverse x := by
  apply evaluate_cons_of_ne
  rintro rfl
  exact hv hx

/-- Each vertex has the value that its predecessors give it in the end. -/
theorem evaluate_of_mem (init : V → R) {l : List V} (h : Ordered pred l) {x : V} (hx : x ∈ l) :
    evaluate pred f init l.reverse x = f x ((pred x).map (evaluate pred f init l.reverse)) := by
  induction l with
  | nil => cases hx
  | cons v l ih =>
    obtain ⟨hv, hpred, hl⟩ := h
    have hkeep : ∀ w ∈ l, evaluate pred f init (v :: l).reverse w =
        evaluate pred f init l.reverse w := fun w hw => evaluate_cons_of_mem init hv hw
    rcases List.mem_cons.mp hx with rfl | hx
    · rw [List.map_congr_left fun w hw => hkeep w (hpred w hw), evaluate_reverse_cons,
        Function.update_self]
    · rw [List.map_congr_left fun w hw => hkeep w (hl.mem_succ hx hw), hkeep x hx, ih hl hx]

/-- Two orders give a vertex that is in both of them the same value. -/
theorem evaluate_eq (init init' : V → R) {l l' : List V} (h : Ordered pred l)
    (h' : Ordered pred l') {x : V} (hx : x ∈ l) (hx' : x ∈ l') :
    evaluate pred f init l.reverse x = evaluate pred f init' l'.reverse x := by
  induction l generalizing x with
  | nil => cases hx
  | cons v l ih =>
    obtain ⟨hv, hpred, hl⟩ := h
    rcases List.mem_cons.mp hx with rfl | hx
    · have hsame : ∀ w ∈ pred x, evaluate pred f init l.reverse w =
          evaluate pred f init' l'.reverse w :=
        fun w hw => ih hl (hpred w hw) (h'.mem_succ hx' hw)
      rw [evaluate_reverse_cons, Function.update_self, evaluate_of_mem init' h' hx',
        List.map_congr_left hsame]
    · rw [evaluate_cons_of_mem init hv hx, ih hl hx hx']

/-! ## Orders backwards -/

omit [DecidableEq V] in
theorem ordered_of_split {l : List V} (hnodup : l.Nodup)
    (h : ∀ a v b, l = a ++ v :: b → ∀ w ∈ pred v, w ∈ b) : Ordered pred l := by
  induction l with
  | nil => trivial
  | cons v l ih =>
    obtain ⟨hv, hl⟩ := List.nodup_cons.mp hnodup
    refine ⟨hv, h [] v l rfl, ih hl ?_⟩
    intro a u b hsplit
    exact h (v :: a) u b (by rw [hsplit, List.cons_append])

omit [DecidableEq V] in
theorem ordered_suffix {a b : List V} (h : Ordered pred (a ++ b)) : Ordered pred b := by
  induction a with
  | nil => exact h
  | cons v a ih => exact ih h.2.2

omit [DecidableEq V] in
/-- An order in which each vertex stands before its successors is, backwards, one in which each
vertex stands before its predecessors. -/
theorem ordered_reverse {succ : V → List V} (htrans : ∀ v w, w ∈ pred v ↔ v ∈ succ w) {l : List V}
    (h : Ordered succ l) (hclosed : ∀ v ∈ l, ∀ w ∈ pred v, w ∈ l) : Ordered pred l.reverse := by
  apply ordered_of_split (List.nodup_reverse.mpr h.nodup)
  intro a v b hsplit w hw
  have hl : l = b.reverse ++ v :: a.reverse := by
    rw [← List.reverse_reverse l, hsplit]
    simp
  rw [hl] at h hclosed
  have hvw : v ∈ succ w := (htrans v w).mp hw
  obtain ⟨hv, hsucc, ha⟩ := ordered_suffix h
  rcases List.mem_append.mp (hclosed v (by simp) w hw) with hb | hb
  · exact List.mem_reverse.mp hb
  · -- after `v`, its predecessor would have it behind itself
    rcases List.mem_cons.mp hb with rfl | hb
    · exact absurd (hsucc w hvw) hv
    · exact absurd (ha.mem_succ hb hvw) hv

end Dataflow
