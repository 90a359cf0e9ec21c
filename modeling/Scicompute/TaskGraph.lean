-- `sci::TaskGraph` (include/scheduler/task_graph.hpp, src/scheduler/task_graph.cpp):
-- a graph of tasks with two adjacency maps. An unordered map is the set of its
-- keys and their values; a loop over one takes the order of the iteration as an argument.
import Scicompute.DepthFirst

open DepthFirst

namespace sci

/-- `uint64_t`, only compared here. -/
abbrev Task.Id := Nat

inductive Task.Status
  | kPending
  | kReady
  | kRunning
  | kCompleted
  | kFailed
  | kCancelled
  deriving DecidableEq

open sci.Task (Id)

/-! ## Adjacency maps -/

/-- `std::unordered_map<Task::Id, std::vector<Task::Id>>` -/
@[ext]
structure Adjacency where
  keys : Finset Id
  tos : Id → List Id
  tos_eq_nil : ∀ id, id ∉ keys → tos id = []

namespace Adjacency

def empty : Adjacency := ⟨∅, fun _ => [], fun _ _ => rfl⟩

def find (m : Adjacency) (id : Id) : Option (List Id) :=
  if id ∈ m.keys then some (m.tos id) else none

/-- `m[id].push_back(x)` -/
def push_back (m : Adjacency) (id x : Id) : Adjacency where
  keys := insert id m.keys
  tos := Function.update m.tos id (m.tos id ++ [x])
  tos_eq_nil := by
    intro a ha
    rw [Finset.mem_insert, not_or] at ha
    rw [Function.update_of_ne ha.1]
    exact m.tos_eq_nil a ha.2

def erase (m : Adjacency) (id : Id) : Adjacency where
  keys := m.keys.erase id
  tos := Function.update m.tos id []
  tos_eq_nil := by
    intro a ha
    by_cases h : a = id
    · rw [h, Function.update_self]
    · rw [Function.update_of_ne h]
      exact m.tos_eq_nil a (fun hm => ha (Finset.mem_erase.mpr ⟨h, hm⟩))

/-- The loop of `remove_task` over the vectors of a map. -/
def remove (m : Adjacency) (id : Id) : Adjacency where
  keys := m.keys
  tos a := (m.tos a).filter (· ≠ id)
  tos_eq_nil := by
    intro a ha
    rw [m.tos_eq_nil a ha]
    rfl

theorem find_getD (m : Adjacency) (id : Id) : (m.find id).getD [] = m.tos id := by
  rw [find]
  split_ifs with h
  · rfl
  · rw [m.tos_eq_nil id h]
    rfl

/-- One map lists the pairs of the other one backwards. -/
def Transposes (m n : Adjacency) : Prop := ∀ a b, (m.tos a).count b = (n.tos b).count a

theorem Transposes.push_back {m n : Adjacency} (h : m.Transposes n) (a b : Id) :
    (m.push_back a b).Transposes (n.push_back b a) := by
  have hone : ∀ (m : Adjacency) (a b x y : Id), ((m.push_back a b).tos x).count y =
      (m.tos x).count y + if x = a ∧ y = b then 1 else 0 := by
    intro m a b x y
    simp only [Adjacency.push_back]
    by_cases hx : x = a
    · subst hx
      by_cases hy : y = b
      · simp [hy]
      · simp [hy, Ne.symm hy]
    · simp [hx]
  intro x y
  rw [hone, hone, h x y]
  simp only [and_comm]

theorem Transposes.remove {m n : Adjacency} (h : m.Transposes n) (id : Id) :
    ((m.erase id).remove id).Transposes ((n.erase id).remove id) := by
  have hone : ∀ (m : Adjacency) (x y : Id), (((m.erase id).remove id).tos x).count y =
      if x = id ∨ y = id then 0 else (m.tos x).count y := by
    intro m x y
    simp only [Adjacency.remove, erase]
    by_cases hx : x = id
    · simp [hx]
    · rw [Function.update_of_ne hx]
      by_cases hy : y = id
      · rw [if_pos (Or.inr hy), List.count_eq_zero]
        simp [hy]
      · rw [if_neg (not_or.mpr ⟨hx, hy⟩), List.count_filter (by simpa using hy)]
  intro x y
  rw [hone, hone, h x y]
  simp only [or_comm]

end Adjacency

/-! ## The graph -/

/-- The keys of `tasks_` and the edges. The task of an id is the same in every graph. -/
@[ext]
structure TaskGraph where
  tasks_ : Finset Id
  edges_ : Adjacency
  rev_edges_ : Adjacency

namespace TaskGraph

def empty : TaskGraph := ⟨∅, .empty, .empty⟩

def add_task (g : TaskGraph) (id : Id) : TaskGraph := { g with tasks_ := insert id g.tasks_ }

def has_task (g : TaskGraph) (id : Id) : Bool := decide (id ∈ g.tasks_)

def remove_task (g : TaskGraph) (id : Id) : TaskGraph where
  tasks_ := g.tasks_.erase id
  edges_ := (g.edges_.erase id).remove id
  rev_edges_ := (g.rev_edges_.erase id).remove id

/-- The assertions of `add_edge` are off in a release build. -/
def add_edge (g : TaskGraph) (src dst : Id) : TaskGraph :=
  { g with
    edges_ := g.edges_.push_back src dst
    rev_edges_ := g.rev_edges_.push_back dst src }

def add_edges (g : TaskGraph) (src : Id) (tos : List Id) : TaskGraph :=
  tos.foldl (fun g dst => g.add_edge src dst) g

def clear (_g : TaskGraph) : TaskGraph := empty

def get_dependencies (g : TaskGraph) (id : Id) : List Id := (g.rev_edges_.find id).getD []

def get_dependents (g : TaskGraph) (id : Id) : List Id := (g.edges_.find id).getD []

def num_tasks (g : TaskGraph) : Nat := g.tasks_.card

/-- More than the depth of a search: the tasks, and the ends of the edges. -/
def depth (g : TaskGraph) : Nat :=
  (g.tasks_ ∪ g.edges_.keys.biUnion fun id => (g.edges_.tos id).toFinset).card + 1

/-- The recursion of `topological_sort`, on `visited`, `in_stack` and `result`. -/
def topological_sort.dfs (g : TaskGraph) : Nat → Id → Finset Id × Finset Id × List Id →
    Option (Bool × Finset Id × Finset Id × List Id)
  | 0, _, _ => none
  | fuel + 1, id, (visited, in_stack, result) =>
    if id ∈ in_stack then some (false, visited, in_stack, result)
    else if id ∈ visited then some (true, visited, in_stack, result)
    else
      match all (dfs g fuel) (g.get_dependents id)
          (insert id visited, insert id in_stack, result) with
      | some (true, visited, in_stack, result) =>
        some (true, visited, in_stack.erase id, result ++ [id])
      | r => r

/-- `none` stands for a recursion that is deeper than `depth`. -/
def topological_sort (g : TaskGraph) (order : List Id) : Option (List Id) :=
  (all (fun id s => if id ∈ s.1 then some (true, s) else topological_sort.dfs g g.depth id s)
    order (∅, ∅, [])).map fun (sorted, _, _, result) => if sorted then result.reverse else []

/-- The recursion of `is_dag`, on `visited` and `rec_stack`. -/
def is_dag.dfs (g : TaskGraph) :
    Nat → Id → Finset Id × Finset Id → Option (Bool × Finset Id × Finset Id)
  | 0, _, _ => none
  | fuel + 1, id, (visited, rec_stack) =>
    if id ∈ rec_stack then some (false, visited, rec_stack)
    else if id ∈ visited then some (true, visited, rec_stack)
    else
      match all (dfs g fuel) (g.get_dependents id) (insert id visited, insert id rec_stack) with
      | some (true, visited, rec_stack) => some (true, visited, rec_stack.erase id)
      | r => r

def is_dag (g : TaskGraph) (order : List Id) : Option Bool :=
  (all (fun id s => if id ∈ s.1 then some (true, s) else is_dag.dfs g g.depth id s) order
    (∅, ∅)).map Prod.fst

def is_valid (g : TaskGraph) (order : List Id) : Option Bool :=
  (g.is_dag order).map fun dag =>
    dag && decide (∀ id ∈ g.edges_.keys, g.has_task id ∧ ∀ dst ∈ g.edges_.tos id, g.has_task dst)

/-- An order of iteration over `tasks_`. -/
def Iterates (g : TaskGraph) (order : List Id) : Prop := (order : Multiset Id) = g.tasks_.val

instance (g : TaskGraph) (order : List Id) : Decidable (g.Iterates order) :=
  inferInstanceAs (Decidable (_ = _))

/-- The graphs that the public operations build. -/
inductive Built : TaskGraph → Prop
  | empty : Built empty
  | add_task {g : TaskGraph} (id : Id) : Built g → Built (g.add_task id)
  | remove_task {g : TaskGraph} (id : Id) : Built g → Built (g.remove_task id)
  | add_edge {g : TaskGraph} (src dst : Id) : Built g → Built (g.add_edge src dst)
  | clear {g : TaskGraph} : Built g → Built g.clear

theorem Built.add_edges {g : TaskGraph} (h : g.Built) (src : Id) (tos : List Id) :
    (g.add_edges src tos).Built := by
  induction tos generalizing g with
  | nil => exact h
  | cons dst tos ih => exact ih (h.add_edge src dst)

/-! ## The adjacency maps of a graph -/

variable {g : TaskGraph} {order : List Id}

theorem get_dependencies_eq (g : TaskGraph) (id : Id) :
    g.get_dependencies id = g.rev_edges_.tos id := g.rev_edges_.find_getD id

theorem get_dependents_eq (g : TaskGraph) (id : Id) : g.get_dependents id = g.edges_.tos id :=
  g.edges_.find_getD id

/-- `rev_edges_` is the transpose of `edges_`. -/
theorem Built.transposes (h : g.Built) : g.edges_.Transposes g.rev_edges_ := by
  induction h with
  | empty => exact fun _ _ => rfl
  | add_task id _ ih => exact ih
  | remove_task id _ ih => exact ih.remove id
  | add_edge src dst _ ih => exact ih.push_back src dst
  | clear _ _ => exact fun _ _ => rfl

theorem Built.mem_get_dependencies (h : g.Built) {a b : Id} :
    a ∈ g.get_dependencies b ↔ b ∈ g.get_dependents a := by
  rw [get_dependencies_eq, get_dependents_eq, ← List.count_pos_iff, ← List.count_pos_iff,
    h.transposes a b]

theorem Iterates.mem (h : g.Iterates order) (id : Id) : id ∈ order ↔ id ∈ g.tasks_ := by
  rw [← Multiset.mem_coe, h, Finset.mem_val]

theorem Iterates.nodup (h : g.Iterates order) : order.Nodup := by
  rw [← Multiset.coe_nodup, h]
  exact g.tasks_.nodup

/-! ## `is_dag` and `is_valid` -/

/-- What `is_dag` keeps of the state of a search. -/
def sets (s : State Id) : Finset Id × Finset Id := (s.visited, s.path)

theorem is_dag_dfs_eq (g : TaskGraph) (fuel : Nat) (v : Id) (s : State Id) :
    is_dag.dfs g fuel v (sets s) = (search g.get_dependents fuel v s).map (Prod.map id sets) := by
  refine search_map sets (fun t v => (t.1, t.2.erase v)) (fun _ _ => rfl) ?_ (fun _ _ => rfl) fuel v s
  intro fuel v s
  change is_dag.dfs g (fuel + 1) v (s.visited, s.path) = _
  rw [is_dag.dfs]
  split_ifs
  · rfl
  · rfl
  · change _ = Option.map _ (all _ _ (insert v s.visited, insert v s.path))
    rcases all (is_dag.dfs g fuel) (g.get_dependents v) (insert v s.visited, insert v s.path) with
      _ | ⟨_ | _, t⟩
    · rfl
    · rfl
    · rfl

/-- The loop of `is_dag` over the tasks, as a search. -/
def roots (g : TaskGraph) (v : Id) (s : State Id) : Option (Bool × State Id) :=
  if v ∈ s.visited then some (true, s) else search g.get_dependents g.depth v s

theorem is_dag_eq (g : TaskGraph) (order : List Id) :
    g.is_dag order = (all g.roots order ⟨∅, ∅, []⟩).map Prod.fst := by
  have hall := all_map (f := g.roots)
    (g := fun id s => if id ∈ s.1 then some (true, s) else is_dag.dfs g g.depth id s) sets
    (fun v s => by
      simp only [roots]
      by_cases hv : v ∈ s.visited
      · rw [if_pos hv, if_pos (show v ∈ (sets s).1 from hv)]
        rfl
      · rw [if_neg hv, if_neg (show v ∉ (sets s).1 from hv)]
        exact g.is_dag_dfs_eq g.depth v s) order ⟨∅, ∅, []⟩
  change all _ order (∅, ∅) = _ at hall
  rw [is_dag, hall, Option.map_map]
  rfl

/-- The recursion is never deeper than `depth`, and stays among vertices that the edges do not
leave. -/
theorem roots_isSome (h : g.Iterates order) {U : Finset Id}
    (hclosed : ∀ v ∈ U, ∀ w ∈ g.get_dependents v, w ∈ U) (htasks : g.tasks_ ⊆ U)
    (hcard : U.card < g.depth) :
    ∃ r, all g.roots order ⟨∅, ∅, []⟩ = some r ∧ r.2.visited ⊆ U := by
  obtain ⟨r, hr, hgrow⟩ := all_isSome (U := U) (f := g.roots) (l := order) (s := ⟨∅, ∅, []⟩)
    (fun v hv t ht => by
      by_cases hvis : v ∈ t.visited
      · exact ⟨_, if_pos hvis, Finset.Subset.refl _, ht.2⟩
      · rw [roots, if_neg hvis]
        apply search_isSome hclosed (htasks ((h.mem v).mp hv)) ht.2
        exact Nat.lt_of_le_of_lt (Finset.card_le_card Finset.sdiff_subset) hcard)
    (Finset.empty_subset _)
  exact ⟨r, hr, hgrow.2⟩

theorem finished_empty (succ : Id → List Id) : Finished succ ⟨∅, ∅, []⟩ :=
  ⟨Finset.Subset.refl _, by simp, trivial⟩

/-- No vertex is on the path between two roots. -/
theorem roots_extends {v : Id} {s t : State Id} (hs : Extends g.get_dependents ⟨∅, ∅, []⟩ s)
    (h : g.roots v s = some (true, t)) : Extends g.get_dependents s t ∧ v ∈ t.post := by
  rw [roots] at h
  split_ifs at h with hv
  · cases h
    exact ⟨Extends.rfl hs.finished, (hs.finished.mem_post v).mpr ⟨hv, by rw [hs.path]; simp⟩⟩
  · exact search_extends hs.finished h

/-- The loop over the tasks ends with every task after its dependents. -/
theorem roots_finished {t : State Id} (h : all g.roots order ⟨∅, ∅, []⟩ = some (true, t)) :
    Extends g.get_dependents ⟨∅, ∅, []⟩ t ∧ ∀ id ∈ order, id ∈ t.post :=
  all_extends (fun _ _ _ hs hr => roots_extends hs hr) (finished_empty _) h

/-- `is_dag` returns. -/
theorem is_dag_isSome (h : g.Iterates order) : (g.is_dag order).isSome := by
  obtain ⟨r, hr, -⟩ := roots_isSome h
    (U := g.tasks_ ∪ g.edges_.keys.biUnion fun id => (g.edges_.tos id).toFinset)
    (by
      intro v _ w hw
      rw [get_dependents_eq] at hw
      refine Finset.mem_union_right _ (Finset.mem_biUnion.mpr ⟨v, ?_, List.mem_toFinset.mpr hw⟩)
      by_contra hk
      rw [g.edges_.tos_eq_nil v hk] at hw
      cases hw)
    Finset.subset_union_left (Nat.lt_succ_self _)
  rw [is_dag_eq, hr]
  rfl

/-- When `is_dag` holds, the tasks have ranks that fall along the edges. -/
theorem is_dag_rank (h : g.Iterates order) (hd : g.is_dag order = some true) :
    ∃ rank : Id → Nat, ∀ a ∈ g.tasks_, ∀ b ∈ g.get_dependents a, rank b < rank a := by
  rw [is_dag_eq, Option.map_eq_some_iff] at hd
  obtain ⟨⟨b, t⟩, ht, rfl⟩ := hd
  obtain ⟨hext, hall⟩ := roots_finished ht
  obtain ⟨rank, hrank⟩ := hext.finished.ordered.rank
  refine ⟨rank, ?_⟩
  intro a ha b hb
  exact ((hrank a (hall a ((h.mem a).mpr ha))).2 b hb).2

theorem is_valid_isSome (h : g.Iterates order) : (g.is_valid order).isSome := by
  rw [is_valid, Option.isSome_map]
  exact is_dag_isSome h

theorem is_dag_of_is_valid (h : g.is_valid order = some true) : g.is_dag order = some true := by
  obtain ⟨dag, hd, hv⟩ := Option.map_eq_some_iff.mp h
  rw [Bool.and_eq_true] at hv
  rw [hd, hv.1]

/-- The ends of the edges of a valid graph are tasks. -/
theorem mem_tasks_of_is_valid (h : g.is_valid order = some true) {a b : Id}
    (hb : b ∈ g.get_dependents a) : a ∈ g.tasks_ ∧ b ∈ g.tasks_ := by
  obtain ⟨dag, -, hv⟩ := Option.map_eq_some_iff.mp h
  rw [Bool.and_eq_true, decide_eq_true_iff] at hv
  rw [get_dependents_eq] at hb
  have hkey : a ∈ g.edges_.keys := by
    by_contra hk
    rw [g.edges_.tos_eq_nil a hk] at hb
    cases hb
  obtain ⟨ha, htos⟩ := hv.2 a hkey
  exact ⟨of_decide_eq_true ha, of_decide_eq_true (htos b hb)⟩

end TaskGraph

end sci
