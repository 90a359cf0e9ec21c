-- `topological_sort`, `is_dag` and `is_valid` (src/scheduler/task_graph.cpp, 101-211).
-- The two recursions are the search of `DepthFirst`: they are refused exactly when
-- the edges have a cycle, and otherwise the reversed finishing order is the result.
import Scicompute.TaskGraph

open DepthFirst
open sci.Task (Id)

namespace sci

namespace TaskGraph

variable {g : TaskGraph} {order : List Id}

/-! ## The two recursions -/

/-- What `topological_sort` keeps of the state of a search. -/
def lists (s : State Id) : Finset Id × Finset Id × List Id := (s.visited, s.path, s.post.reverse)

theorem topological_sort_dfs_eq (g : TaskGraph) (fuel : Nat) (v : Id) (s : State Id) :
    topological_sort.dfs g fuel v (lists s) =
      (search g.get_dependents fuel v s).map (Prod.map id lists) := by
  refine search_map lists (fun t v => (t.1, t.2.1.erase v, t.2.2 ++ [v])) (fun _ _ => rfl) ?_ ?_
    fuel v s
  · intro fuel v s
    change topological_sort.dfs g (fuel + 1) v (s.visited, s.path, s.post.reverse) = _
    rw [topological_sort.dfs]
    split_ifs
    · rfl
    · rfl
    · change _ = Option.map _ (all _ _ (insert v s.visited, insert v s.path, s.post.reverse))
      rcases all (topological_sort.dfs g fuel) (g.get_dependents v)
        (insert v s.visited, insert v s.path, s.post.reverse) with _ | ⟨_ | _, t⟩
      · rfl
      · rfl
      · rfl
  · intro s v
    simp [lists, State.leave]

theorem topological_sort_eq (g : TaskGraph) (order : List Id) :
    g.topological_sort order =
      (all g.roots order ⟨∅, ∅, []⟩).map fun r => if r.1 then r.2.post else [] := by
  have hall := all_map (f := g.roots)
    (g := fun id s => if id ∈ s.1 then some (true, s) else topological_sort.dfs g g.depth id s)
    lists
    (fun v s => by
      simp only [roots]
      by_cases hv : v ∈ s.visited
      · rw [if_pos hv, if_pos (show v ∈ (lists s).1 from hv)]
        rfl
      · rw [if_neg hv, if_neg (show v ∉ (lists s).1 from hv)]
        exact g.topological_sort_dfs_eq g.depth v s) order ⟨∅, ∅, []⟩
  change all _ order (∅, ∅, []) = _ at hall
  rw [topological_sort, hall, Option.map_map]
  congr 1
  funext r
  rcases r with ⟨sorted, s⟩
  cases sorted with
  | false => rfl
  | true => exact List.reverse_reverse s.post

/-- The loop over the tasks is refused only at a cycle. -/
theorem roots_refused {t : State Id} (h : all g.roots order ⟨∅, ∅, []⟩ = some (false, t)) :
    ¬ Acyclic g.get_dependents := by
  obtain ⟨v, -, s, w, hext, hw⟩ :=
    all_refused (fun _ _ _ hs hr => (roots_extends hs hr).1) (finished_empty _) h
  rw [roots] at hw
  split_ifs at hw
  · cases hw
  · apply search_refused hext.finished ?_ hw
    intro u hu
    rw [hext.path] at hu
    cases hu

/-! ## Edges that join tasks -/

/-- The ends of every edge are tasks. -/
def Joined (g : TaskGraph) : Prop := ∀ a, ∀ b ∈ g.get_dependents a, a ∈ g.tasks_ ∧ b ∈ g.tasks_

/-- The loop over the tasks ends, and visits nothing else. -/
theorem roots_visits (hjoin : g.Joined) (h : g.Iterates order) :
    ∃ r, all g.roots order ⟨∅, ∅, []⟩ = some r ∧ r.2.visited ⊆ g.tasks_ := by
  apply roots_isSome h (fun v _ w hw => (hjoin v w hw).2) (Finset.Subset.refl _)
  exact Nat.lt_succ_of_le (Finset.card_le_card Finset.subset_union_left)

/-- A loop that is not refused finishes the tasks, each one after its dependents. -/
theorem roots_post (hjoin : g.Joined) (h : g.Iterates order) {t : State Id}
    (ht : all g.roots order ⟨∅, ∅, []⟩ = some (true, t)) :
    Ordered g.get_dependents t.post ∧ ∀ id, id ∈ t.post ↔ id ∈ g.tasks_ := by
  obtain ⟨hext, hall⟩ := roots_finished ht
  refine ⟨hext.finished.ordered, ?_⟩
  intro id
  constructor
  · intro hid
    obtain ⟨r, hr, hsub⟩ := roots_visits hjoin h
    rw [ht, Option.some.injEq] at hr
    rw [← hr] at hsub
    exact hsub ((hext.finished.mem_post id).mp hid).1
  · intro hid
    exact hall id ((h.mem id).mpr hid)

/-- The loop is refused when the edges have a cycle, and only then. -/
theorem roots_sorted_iff (hjoin : g.Joined) (h : g.Iterates order) {sorted : Bool} {t : State Id}
    (ht : all g.roots order ⟨∅, ∅, []⟩ = some (sorted, t)) :
    sorted = true ↔ Acyclic g.get_dependents := by
  cases sorted with
  | false => simp [roots_refused ht]
  | true =>
    simp only [true_iff]
    obtain ⟨hord, hmem⟩ := roots_post hjoin h ht
    obtain ⟨rank, hrank⟩ := hord.rank
    apply acyclic_of_rank rank
    intro v w hw
    exact ((hrank v ((hmem v).mpr (hjoin v w hw).1)).2 w hw).2

theorem is_dag_iff (hjoin : g.Joined) (h : g.Iterates order) :
    g.is_dag order = some true ↔ Acyclic g.get_dependents := by
  obtain ⟨⟨sorted, t⟩, hr, -⟩ := roots_visits hjoin h
  rw [is_dag_eq, hr, ← roots_sorted_iff hjoin h hr]
  exact Option.some_inj

theorem topological_sort_of_acyclic (hjoin : g.Joined) (h : g.Iterates order)
    (ha : Acyclic g.get_dependents) : ∃ result, g.topological_sort order = some result ∧
      Ordered g.get_dependents result ∧ ∀ id, id ∈ result ↔ id ∈ g.tasks_ := by
  obtain ⟨⟨sorted, t⟩, hr, -⟩ := roots_visits hjoin h
  have hsorted := (roots_sorted_iff hjoin h hr).mpr ha
  subst hsorted
  refine ⟨t.post, ?_, roots_post hjoin h hr⟩
  rw [topological_sort_eq, hr]
  rfl

theorem topological_sort_of_cycle (hjoin : g.Joined) (h : g.Iterates order)
    (ha : ¬ Acyclic g.get_dependents) : g.topological_sort order = some [] := by
  obtain ⟨⟨sorted, t⟩, hr, -⟩ := roots_visits hjoin h
  have hsorted := mt (roots_sorted_iff hjoin h hr).mp ha
  rw [topological_sort_eq, hr]
  simp [hsorted]

/-! ## Graphs whose edges are added between tasks -/

/-- The graphs that are built with the assertions of `add_edge` met. -/
inductive Checked : TaskGraph → Prop
  | empty : Checked empty
  | add_task {g : TaskGraph} (id : Id) : Checked g → Checked (g.add_task id)
  | remove_task {g : TaskGraph} (id : Id) : Checked g → Checked (g.remove_task id)
  | add_edge {g : TaskGraph} {src dst : Id} : Checked g → g.has_task src = true →
      g.has_task dst = true → Checked (g.add_edge src dst)
  | clear {g : TaskGraph} : Checked g → Checked g.clear

/-- Every key of `edges_` is a task, and so is every member of a vector. -/
structure Ends (g : TaskGraph) : Prop where
  keys : g.edges_.keys ⊆ g.tasks_
  tos : ∀ a, ∀ b ∈ g.edges_.tos a, b ∈ g.tasks_

theorem Ends.joined (h : g.Ends) : g.Joined := by
  intro a b hb
  rw [get_dependents_eq] at hb
  refine ⟨h.keys ?_, h.tos a b hb⟩
  by_contra hk
  rw [g.edges_.tos_eq_nil a hk] at hb
  cases hb

theorem Ends.add_edge (h : g.Ends) {src dst : Id} (hs : src ∈ g.tasks_) (hd : dst ∈ g.tasks_) :
    (g.add_edge src dst).Ends := by
  refine ⟨Finset.insert_subset hs h.keys, ?_⟩
  intro a b hb
  change b ∈ Function.update g.edges_.tos src (g.edges_.tos src ++ [dst]) a at hb
  by_cases ha : a = src
  · subst ha
    rw [Function.update_self] at hb
    rcases List.mem_append.mp hb with hb | hb
    · exact h.tos a b hb
    · exact List.mem_singleton.mp hb ▸ hd
  · rw [Function.update_of_ne ha] at hb
    exact h.tos a b hb

/-- No edge of a removed task is left. -/
theorem Ends.remove_task (h : g.Ends) (id : Id) : (g.remove_task id).Ends := by
  refine ⟨Finset.erase_subset_erase id h.keys, ?_⟩
  intro a b hb
  change b ∈ (Function.update g.edges_.tos id [] a).filter (· ≠ id) at hb
  rw [List.mem_filter, decide_eq_true_iff] at hb
  refine Finset.mem_erase.mpr ⟨hb.2, ?_⟩
  by_cases ha : a = id
  · rw [ha, Function.update_self] at hb
    cases hb.1
  · rw [Function.update_of_ne ha] at hb
    exact h.tos a b hb.1

theorem Checked.ends (h : g.Checked) : g.Ends := by
  induction h with
  | empty => exact ⟨Finset.Subset.refl _, fun a b hb => by cases hb⟩
  | add_task id _ ih =>
    exact ⟨ih.keys.trans (Finset.subset_insert _ _),
      fun a b hb => Finset.mem_insert_of_mem (ih.tos a b hb)⟩
  | remove_task id _ ih => exact ih.remove_task id
  | add_edge _ hs hd ih => exact ih.add_edge (of_decide_eq_true hs) (of_decide_eq_true hd)
  | clear _ _ => exact ⟨Finset.Subset.refl _, fun a b hb => by cases hb⟩

/-! ## `topological_sort` -/

/-- An acyclic graph is sorted, each edge forwards; a cyclic one gives the empty list. -/
theorem topological_sort_sorts_acyclic_graphs_only (g : TaskGraph) (order : List Id)
    (hjoin : g.Joined) (h : g.Iterates order) :
    (Acyclic g.get_dependents → ∃ result, g.topological_sort order = some result ∧
      result.Nodup ∧ (∀ id, id ∈ result ↔ id ∈ g.tasks_) ∧
      ∀ a, ∀ b ∈ g.get_dependents a, result.idxOf a < result.idxOf b) ∧
    (¬ Acyclic g.get_dependents → g.topological_sort order = some []) := by
  refine ⟨?_, topological_sort_of_cycle hjoin h⟩
  intro ha
  obtain ⟨result, hr, hord, hmem⟩ := topological_sort_of_acyclic hjoin h ha
  refine ⟨result, hr, hord.nodup, hmem, ?_⟩
  intro a b hb
  exact hord.idxOf_lt ((hmem a).mpr (hjoin a b hb).1) hb

/-- Two edges that meet in one task. -/
def join : TaskGraph :=
  ((((empty.add_task 1).add_task 2).add_task 3).add_edge 1 3).add_edge 2 3

theorem checked_join : join.Checked :=
  (((((Checked.empty.add_task 1).add_task 2).add_task 3).add_edge (by decide) (by decide)).add_edge
    (by decide) (by decide))

theorem topological_sort_join : join.topological_sort [3, 1, 2] = some [2, 1, 3] ∧
    (Acyclic join.get_dependents → ∃ result, join.topological_sort [3, 1, 2] = some result ∧
      result.Nodup ∧ (∀ id, id ∈ result ↔ id ∈ join.tasks_) ∧
      ∀ a, ∀ b ∈ join.get_dependents a, result.idxOf a < result.idxOf b) ∧
    (¬ Acyclic join.get_dependents → join.topological_sort [3, 1, 2] = some []) :=
  ⟨by decide, topological_sort_sorts_acyclic_graphs_only join [3, 1, 2] checked_join.ends.joined
    (by decide)⟩

/-! ## `is_valid` -/

/-- The check of the ends in `is_valid` passes. -/
theorem is_valid_eq_is_dag (h : g.Ends) (order : List Id) : g.is_valid order = g.is_dag order := by
  have hends : ∀ id ∈ g.edges_.keys,
      g.has_task id ∧ ∀ dst ∈ g.edges_.tos id, g.has_task dst := fun id hid =>
    ⟨decide_eq_true (h.keys hid), fun dst hdst => decide_eq_true (h.tos id dst hdst)⟩
  rw [is_valid, decide_eq_true hends]
  simp

/-- `topological_sort` lists all the tasks or none. -/
theorem length_topological_sort_iff (hjoin : g.Joined) (h : g.Iterates order) :
    (∃ result, g.topological_sort order = some result ∧ result.length = g.num_tasks) ↔
      Acyclic g.get_dependents := by
  constructor
  · rintro ⟨result, hr, hlen⟩
    by_contra ha
    rw [topological_sort_of_cycle hjoin h ha, Option.some.injEq] at hr
    -- a graph without tasks has no cycle
    rw [← hr, num_tasks, List.length_nil, eq_comm, Finset.card_eq_zero] at hlen
    apply ha
    apply acyclic_of_rank (fun _ => 0)
    intro v w hw
    have hv := (hjoin v w hw).1
    rw [hlen] at hv
    cases hv
  · intro ha
    obtain ⟨result, hr, hord, hmem⟩ := topological_sort_of_acyclic hjoin h ha
    refine ⟨result, hr, ?_⟩
    rw [num_tasks, ← List.toFinset_card_of_nodup hord.nodup]
    congr 1
    ext id
    rw [List.mem_toFinset, hmem]

/-! ## `is_dag` and `is_valid` agree with the edges, and with `topological_sort` -/

/-- The three functions answer alike, whatever the orders of iteration. -/
theorem is_dag_and_is_valid_tell_the_cycles (g : TaskGraph) (order order' : List Id)
    (hg : g.Checked) (h : g.Iterates order) (h' : g.Iterates order') :
    (g.is_dag order).isSome ∧ (g.is_valid order).isSome ∧ (g.topological_sort order').isSome ∧
    (g.is_dag order = some true ↔ Acyclic g.get_dependents) ∧
    (g.is_valid order = some true ↔ Acyclic g.get_dependents ∧
      ∀ a, ∀ b ∈ g.get_dependents a, a ∈ g.tasks_ ∧ b ∈ g.tasks_) ∧
    (g.is_dag order = some true ↔
      ∃ result, g.topological_sort order' = some result ∧ result.length = g.num_tasks) := by
  have hjoin : g.Joined := hg.ends.joined
  refine ⟨is_dag_isSome h, is_valid_isSome h, ?_, is_dag_iff hjoin h, ?_, ?_⟩
  · obtain ⟨r, hr, -⟩ := roots_visits hjoin h'
    rw [topological_sort_eq, hr]
    rfl
  · rw [is_valid_eq_is_dag hg.ends, is_dag_iff hjoin h]
    exact ⟨fun ha => ⟨ha, hjoin⟩, And.left⟩
  · rw [is_dag_iff hjoin h, length_topological_sort_iff hjoin h']

theorem is_dag_join : (join.is_dag [3, 1, 2]).isSome ∧ (join.is_valid [3, 1, 2]).isSome ∧
    (join.topological_sort [2, 3, 1]).isSome ∧
    (join.is_dag [3, 1, 2] = some true ↔ Acyclic join.get_dependents) ∧
    (join.is_valid [3, 1, 2] = some true ↔ Acyclic join.get_dependents ∧
      ∀ a, ∀ b ∈ join.get_dependents a, a ∈ join.tasks_ ∧ b ∈ join.tasks_) ∧
    (join.is_dag [3, 1, 2] = some true ↔
      ∃ result, join.topological_sort [2, 3, 1] = some result ∧ result.length = join.num_tasks) :=
  is_dag_and_is_valid_tell_the_cycles join [3, 1, 2] [2, 3, 1] checked_join (by decide) (by decide)

end TaskGraph

end sci
