-- The edges of a task graph. The two adjacency maps record the same pairs, one of them backwards,
-- and `num_edges` counts the sources and not the pairs.
import Scicompute.TaskGraph
import Scicompute.Transition

open Transition

namespace sci

open sci.Task (Id)

/-! ## The pairs of a map -/

namespace Adjacency

/-- The pairs that a map records, parallel ones as often as they were added. -/
def pairs (m : Adjacency) : Multiset (Id × Id) :=
  m.keys.val.bind fun a => (m.tos a : Multiset Id).map (a, ·)

variable {m n : Adjacency} {a b : Id}

theorem count_pairs (m : Adjacency) (a b : Id) : m.pairs.count (a, b) = (m.tos a).count b := by
  have hone : ∀ c, ((m.tos c : Multiset Id).map (c, ·)).count (a, b) =
      if c = a then (m.tos a).count b else 0 := by
    intro c
    split_ifs with hc
    · subst hc
      rw [Multiset.count_map_eq_count' _ _ (Prod.mk_right_injective c), Multiset.coe_count]
    · rw [Multiset.count_eq_zero, Multiset.mem_map]
      rintro ⟨d, -, hd⟩
      exact hc (congrArg Prod.fst hd)
  rw [pairs, Multiset.count_bind]
  simp only [hone]
  rw [Finset.sum_map_val, Finset.sum_ite_eq']
  split_ifs with ha
  · rfl
  · rw [m.tos_eq_nil a ha, List.count_nil]

theorem Transposes.pairs (h : m.Transposes n) : n.pairs = m.pairs.map Prod.swap := by
  ext ⟨b, a⟩
  have hswap : (m.pairs.map Prod.swap).count (Prod.swap (a, b)) = m.pairs.count (a, b) :=
    Multiset.count_map_eq_count' _ _ Prod.swap_injective _
  rw [Prod.swap_prod_mk] at hswap
  rw [hswap, count_pairs, count_pairs, h a b]

@[simp] theorem pairs_empty : empty.pairs = 0 := rfl

theorem pairs_push_back (m : Adjacency) (a b : Id) :
    (m.push_back a b).pairs = (a, b) ::ₘ m.pairs := by
  ext ⟨x, y⟩
  rw [Multiset.count_cons, count_pairs, count_pairs]
  simp only [push_back, Prod.mk.injEq]
  by_cases hx : x = a
  · subst hx
    by_cases hy : y = b
    · simp [hy]
    · simp [hy, Ne.symm hy]
  · simp [hx]

/-- What `remove_task` leaves of a map. -/
theorem pairs_remove (m : Adjacency) (id : Id) :
    ((m.erase id).remove id).pairs = m.pairs.filter fun e => e.1 ≠ id ∧ e.2 ≠ id := by
  ext ⟨x, y⟩
  rw [count_pairs, Multiset.count_filter, count_pairs]
  simp only [remove, erase]
  by_cases hx : x = id
  · simp [hx]
  · rw [Function.update_of_ne hx]
    by_cases hy : y = id
    · rw [if_neg (fun h => h.2 hy), List.count_eq_zero]
      simp [hy]
    · rw [if_pos ⟨hx, hy⟩, List.count_filter (by simpa using hy)]

end Adjacency

/-! ## Calls -/

inductive TaskGraphCall
  | add_task (id : Id)
  | add_edge (src dst : Id)
  | add_edges (src : Id) (tos : List Id)
  | remove_task (id : Id)
  | clear

namespace TaskGraph

/-- A call whose assertions hold. -/
def call (g : TaskGraph) : TaskGraphCall → Option TaskGraph
  | .add_task id => some (g.add_task id)
  | .add_edge src dst =>
    if g.has_task src ∧ g.has_task dst then some (g.add_edge src dst) else none
  | .add_edges src tos =>
    if ∀ dst ∈ tos, g.has_task src ∧ g.has_task dst then some (g.add_edges src tos) else none
  | .remove_task id => some (g.remove_task id)
  | .clear => some g.clear

/-- The number of the keys of `edges_`. -/
def num_edges (g : TaskGraph) : Nat := g.edges_.keys.card

/-- The pairs that `foreach_edge` visits, in an order of iteration over `edges_`. -/
def foreach_edge (g : TaskGraph) (order : List Id) : List (Id × Id) :=
  order.flatMap fun src => (g.edges_.tos src).map (src, ·)

/-- The edges that were added and not removed, after a call. -/
def recorded (edges : Multiset (Id × Id)) : TaskGraphCall → Multiset (Id × Id)
  | .add_task _ => edges
  | .add_edge src dst => (src, dst) ::ₘ edges
  | .add_edges src tos => (tos : Multiset Id).map (src, ·) + edges
  | .remove_task id => edges.filter fun e => e.1 ≠ id ∧ e.2 ≠ id
  | .clear => 0

variable {g g' : TaskGraph} {c : TaskGraphCall} {calls : List TaskGraphCall}

/-! ## Every call keeps the edges in order -/

theorem built_call (h : g.Built) (hc : g.call c = some g') : g'.Built := by
  cases c with
  | add_task id =>
    cases hc
    exact h.add_task id
  | add_edge src dst =>
    simp only [call] at hc
    split_ifs at hc
    cases hc
    exact h.add_edge src dst
  | add_edges src tos =>
    simp only [call] at hc
    split_ifs at hc
    cases hc
    exact h.add_edges src tos
  | remove_task id =>
    cases hc
    exact h.remove_task id
  | clear =>
    cases hc
    exact h.clear

theorem add_edges_tasks_ (g : TaskGraph) (src : Id) (tos : List Id) :
    (g.add_edges src tos).tasks_ = g.tasks_ := by
  induction tos generalizing g with
  | nil => rfl
  | cons dst tos ih => exact ih (g.add_edge src dst)

theorem pairs_add_edges (g : TaskGraph) (src : Id) (tos : List Id) :
    (g.add_edges src tos).edges_.pairs =
      (tos : Multiset Id).map (src, ·) + g.edges_.pairs := by
  induction tos generalizing g with
  | nil => simp [add_edges]
  | cons dst tos ih =>
    have hrest := ih (g.add_edge src dst)
    rw [add_edge, Adjacency.pairs_push_back] at hrest
    rw [← Multiset.cons_coe, Multiset.map_cons, Multiset.cons_add, ← Multiset.add_cons]
    exact hrest

/-- A call changes the pairs of `edges_` as it says. -/
theorem pairs_call (hc : g.call c = some g') : g'.edges_.pairs = recorded g.edges_.pairs c := by
  cases c with
  | add_task id =>
    cases hc
    rfl
  | add_edge src dst =>
    simp only [call] at hc
    split_ifs at hc
    cases hc
    exact g.edges_.pairs_push_back src dst
  | add_edges src tos =>
    simp only [call] at hc
    split_ifs at hc
    cases hc
    exact g.pairs_add_edges src tos
  | remove_task id =>
    cases hc
    exact g.edges_.pairs_remove id
  | clear =>
    cases hc
    rfl

/-- The ends of the edges are tasks. -/
def EndsInTasks (g : TaskGraph) : Prop := ∀ e ∈ g.edges_.pairs, e.1 ∈ g.tasks_ ∧ e.2 ∈ g.tasks_

theorem EndsInTasks.call (h : g.EndsInTasks) (hc : g.call c = some g') : g'.EndsInTasks := by
  intro e he
  rw [pairs_call hc] at he
  cases c with
  | add_task id =>
    cases hc
    obtain ⟨h1, h2⟩ := h e he
    exact ⟨Finset.mem_insert_of_mem h1, Finset.mem_insert_of_mem h2⟩
  | add_edge src dst =>
    simp only [TaskGraph.call] at hc
    split_ifs at hc with hends
    cases hc
    rcases Multiset.mem_cons.mp he with rfl | he
    · exact ⟨of_decide_eq_true hends.1, of_decide_eq_true hends.2⟩
    · exact h e he
  | add_edges src tos =>
    simp only [TaskGraph.call] at hc
    split_ifs at hc with hends
    cases hc
    rw [add_edges_tasks_]
    rcases Multiset.mem_add.mp he with he | he
    · obtain ⟨dst, hdst, rfl⟩ := Multiset.mem_map.mp he
      obtain ⟨h1, h2⟩ := hends dst hdst
      exact ⟨of_decide_eq_true h1, of_decide_eq_true h2⟩
    · exact h e he
  | remove_task id =>
    cases hc
    obtain ⟨hmem, h1, h2⟩ := Multiset.mem_filter.mp he
    obtain ⟨h3, h4⟩ := h e hmem
    exact ⟨Finset.mem_erase.mpr ⟨h1, h3⟩, Finset.mem_erase.mpr ⟨h2, h4⟩⟩
  | clear =>
    cases hc
    exact absurd he (Multiset.notMem_zero e)

theorem built_of_run (hr : run call empty calls = some g) : g.Built :=
  invariant_of_run (fun _ _ _ h hc => built_call h hc) Built.empty hr

/-- In every graph that the calls build, `rev_edges_` records the pairs of `edges_` backwards, the
ends of the edges are tasks, and `remove_task` leaves the edges that do not touch the task. -/
theorem edges_are_transposed_and_between_tasks (hr : run call empty calls = some g) :
    g.rev_edges_.pairs = g.edges_.pairs.map Prod.swap ∧
    (∀ e ∈ g.edges_.pairs, e.1 ∈ g.tasks_ ∧ e.2 ∈ g.tasks_) ∧
    ∀ id, (g.remove_task id).edges_.pairs =
      g.edges_.pairs.filter fun e => e.1 ≠ id ∧ e.2 ≠ id := by
  refine ⟨(built_of_run hr).transposes.pairs, ?_, g.edges_.pairs_remove⟩
  have hempty : EndsInTasks empty := fun e he => absurd he (Multiset.notMem_zero e)
  exact invariant_of_run (fun _ _ _ h hc => EndsInTasks.call h hc) hempty hr

/-- Parallel edges, a self-loop, a task that is removed and one that never was there. -/
def severalEdges : List TaskGraphCall :=
  [.add_task 1, .add_task 2, .add_task 3, .add_edge 1 2, .add_edges 1 [2, 3], .add_edge 2 2,
    .remove_task 3, .remove_task 7]

theorem several_edges_are_transposed : ∃ g, run call empty severalEdges = some g ∧
    g.rev_edges_.pairs = g.edges_.pairs.map Prod.swap := by
  have hsome : (run call empty severalEdges).isSome = true := by decide
  obtain ⟨g, hg⟩ := Option.isSome_iff_exists.mp hsome
  exact ⟨g, hg, (edges_are_transposed_and_between_tasks hg).1⟩

/-! ## The number of edges -/

theorem coe_foreach_edge {order : List Id} (h : (order : Multiset Id) = g.edges_.keys.val) :
    (g.foreach_edge order : Multiset (Id × Id)) = g.edges_.pairs := by
  rw [Adjacency.pairs, ← h]
  exact (Multiset.coe_bind order fun src => (g.edges_.tos src).map (src, ·)).symm

theorem pairs_of_run (hr : run call empty calls = some g) :
    g.edges_.pairs = calls.foldl recorded 0 := by
  have hgeneral : ∀ (g' : TaskGraph) (calls : List TaskGraphCall), run call g' calls = some g →
      g.edges_.pairs = calls.foldl recorded g'.edges_.pairs := by
    intro g' calls hr
    induction calls generalizing g' with
    | nil =>
      cases hr
      rfl
    | cons c calls ih =>
      obtain ⟨u, hu, hrest⟩ := (run_cons ..).mp hr
      rw [List.foldl_cons, ← pairs_call hu]
      exact ih u hrest
  exact hgeneral empty calls hr

/-- The edges beyond the first one of each source are as many as the sources that have none left. -/
def SurplusIsBalanced (g : TaskGraph) : Prop :=
  ∑ src ∈ g.edges_.keys, ((g.edges_.tos src).length - 1) =
    (g.edges_.keys.filter fun src => g.edges_.tos src = []).card

instance (g : TaskGraph) : Decidable g.SurplusIsBalanced := inferInstanceAs (Decidable (_ = _))

theorem card_pairs (m : Adjacency) : m.pairs.card = ∑ src ∈ m.keys, (m.tos src).length := by
  simp [Adjacency.pairs, Multiset.card_bind]

/-- A source has as many edges as are beyond its first one, and its first one. -/
theorem card_pairs_add_empty (m : Adjacency) :
    m.pairs.card + (m.keys.filter fun src => m.tos src = []).card =
      ∑ src ∈ m.keys, ((m.tos src).length - 1) + m.keys.card := by
  rw [card_pairs, Finset.card_filter, ← Finset.sum_add_distrib, Finset.card_eq_sum_ones,
    ← Finset.sum_add_distrib]
  apply Finset.sum_congr rfl
  intro src _
  cases m.tos src with
  | nil => simp
  | cons dst tos => simp

/-- `num_edges` is the number of the pairs that `foreach_edge` visits, which are the edges that were
added and not removed, if and only if the surplus of some sources is balanced by others. -/
theorem num_edges_counts_the_edges_iff (hr : run call empty calls = some g) {order : List Id}
    (horder : (order : Multiset Id) = g.edges_.keys.val) :
    (g.num_edges = (g.foreach_edge order).length ∧
      (g.foreach_edge order : Multiset (Id × Id)) = calls.foldl recorded 0) ↔
    g.SurplusIsBalanced := by
  have hvisited := coe_foreach_edge horder
  have hlength : (g.foreach_edge order).length = g.edges_.pairs.card := by
    rw [← hvisited, Multiset.coe_card]
  have hsum := card_pairs_add_empty g.edges_
  have hrecorded : (g.foreach_edge order : Multiset (Id × Id)) = calls.foldl recorded 0 := by
    rw [hvisited, pairs_of_run hr]
  simp only [hrecorded, and_true, hlength, num_edges, SurplusIsBalanced]
  omega

/-- One source has two edges, and another one has lost its only one. -/
def balancedEdges : List TaskGraphCall :=
  [.add_task 1, .add_task 2, .add_task 3, .add_edges 1 [2, 2], .add_edge 2 3, .remove_task 3]

theorem balanced_edges_are_counted : ∃ g, run call empty balancedEdges = some g ∧
    g.num_edges = (g.foreach_edge [1, 2]).length := by
  obtain ⟨g, hg, horder, hbalanced⟩ : ∃ g, run call empty balancedEdges = some g ∧
      (([1, 2] : List Id) : Multiset Id) = g.edges_.keys.val ∧ g.SurplusIsBalanced :=
    exists_of_any (by decide)
  exact ⟨g, hg, ((num_edges_counts_the_edges_iff hg horder).mpr hbalanced).1⟩

/-- A fan-out of two edges is counted as one. -/
theorem two_edges_are_counted_as_one : ∃ g,
    run call empty [.add_task 1, .add_task 2, .add_task 3, .add_edge 1 2, .add_edge 1 3] = some g ∧
    (([1] : List Id) : Multiset Id) = g.edges_.keys.val ∧
    g.foreach_edge [1] = [(1, 2), (1, 3)] ∧ g.num_edges = 1 :=
  exists_of_any (by decide)

end TaskGraph

end sci
