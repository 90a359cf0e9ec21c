-- `TaskGraph::depends_on` (src/scheduler/task_graph.cpp): a breadth-first search over `rev_edges_`.
-- It ends on every graph, also on one with cycles, and tells whether there is a path.
import Scicompute.BreadthFirst
import Scicompute.TaskGraphEdges

open Transition BreadthFirst Relation

namespace sci

open sci.Task (Id)

namespace TaskGraph

/-- The loop of `depends_on`, on `queue` and `visited`. -/
def depends_on.loop (g : TaskGraph) (b : Id) : Nat → List Id → Finset Id → Option Bool
  | 0, _, _ => none
  | fuel + 1, queue, visited =>
    match queue with
    | [] => some false
    | current :: queue =>
      if current = b then some true
      else if current ∈ visited then loop g b fuel queue visited
      else
        match g.rev_edges_.find current with
        | none => loop g b fuel queue (insert current visited)
        | some deps => loop g b fuel (queue ++ deps) (insert current visited)

/-- `none` stands for a loop that takes more than `fuel` turns. -/
def depends_on (g : TaskGraph) (fuel : Nat) (a b : Id) : Option Bool :=
  match g.rev_edges_.find a with
  | none => some false
  | some deps => depends_on.loop g b fuel deps ∅

/-- There is a path of one or more edges. -/
def Path (g : TaskGraph) : Id → Id → Prop := TransGen fun src dst => dst ∈ g.get_dependents src

variable {g : TaskGraph} {a b : Id}

theorem depends_on_loop_eq (g : TaskGraph) (b : Id) (fuel : Nat) (queue : List Id)
    (visited : Finset Id) : depends_on.loop g b fuel queue visited =
      search g.get_dependencies b fuel queue visited := by
  induction fuel generalizing queue visited with
  | zero => rfl
  | succ fuel ih =>
    cases queue with
    | nil => rfl
    | cons current queue =>
      rw [depends_on.loop, search]
      split_ifs
      · rfl
      · exact ih queue visited
      · cases hfind : g.rev_edges_.find current with
        | none =>
          have hnone : g.get_dependencies current = [] := by rw [get_dependencies, hfind]; rfl
          rw [hnone, List.append_nil]
          exact ih _ _
        | some deps =>
          have hsome : g.get_dependencies current = deps := by rw [get_dependencies, hfind]; rfl
          rw [hsome]
          exact ih _ _

/-- A task without an entry in `rev_edges_` answers as an empty queue does. -/
theorem depends_on_eq (g : TaskGraph) (fuel : Nat) (a b : Id) :
    g.depends_on (fuel + 1) a b =
      search g.get_dependencies b (fuel + 1) (g.get_dependencies a) ∅ := by
  rw [depends_on, get_dependencies]
  cases hfind : g.rev_edges_.find a with
  | none => rfl
  | some deps => exact depends_on_loop_eq g b (fuel + 1) deps ∅

/-- The loop of `depends_on` takes at most one turn more. -/
def turns (g : TaskGraph) (a : Id) : Nat :=
  work g.get_dependencies g.rev_edges_.keys (g.get_dependencies a) ∅

/-- The paths of the graph are those of `rev_edges_`, backwards. -/
theorem Built.path_iff (h : g.Built) :
    g.Path b a ↔ ∃ v ∈ g.get_dependencies a, Reaches g.get_dependencies v b := by
  have hswap : g.Path b a ↔ TransGen (fun dst src => src ∈ g.get_dependencies dst) a b := by
    rw [← transGen_swap]
    have hstep : (Function.swap fun dst src => src ∈ g.get_dependencies dst) =
        fun src dst => dst ∈ g.get_dependents src := by
      funext src dst
      exact propext h.mem_get_dependencies
    rw [hstep]
    rfl
  rw [hswap, TransGen.head'_iff]
  rfl

/-- In every graph that the calls build, also where `add_edge` is given tasks that do not exist,
`depends_on` returns after finitely many turns, and it returns true if and only if there is a path of
one or more edges. -/
theorem depends_on_tells_paths (h : g.Built) (a b : Id) {fuel : Nat} (hfuel : g.turns a < fuel) :
    ∃ found, g.depends_on fuel a b = some found ∧ (found = true ↔ g.Path b a) := by
  obtain ⟨k, rfl⟩ : ∃ k, fuel = k + 1 := ⟨fuel - 1, by omega⟩
  have hempty : ∀ v, v ∉ g.rev_edges_.keys → g.get_dependencies v = [] := by
    intro v hv
    rw [get_dependencies_eq]
    exact g.rev_edges_.tos_eq_nil v hv
  rw [depends_on_eq, h.path_iff]
  exact search_spec b hempty hfuel

/-- A cycle of two tasks, and a task that depends on one of them. -/
def cycleAndTask : List TaskGraphCall :=
  [.add_task 1, .add_task 2, .add_task 3, .add_edge 1 2, .add_edge 2 1, .add_edge 1 3]

theorem a_cycle_depends_on_itself : ∃ g, run call empty cycleAndTask = some g ∧ g.Path 1 1 ∧
    ¬ g.Path 3 1 := by
  obtain ⟨g, hg, hturns, hyes, hno⟩ : ∃ g, run call empty cycleAndTask = some g ∧ g.turns 1 < 9 ∧
      g.depends_on 9 1 1 = some true ∧ g.depends_on 9 1 3 = some false :=
    exists_of_any (by decide)
  obtain ⟨found, hfound, hpath⟩ := depends_on_tells_paths (built_of_run hg) 1 1 hturns
  obtain ⟨found', hfound', hpath'⟩ := depends_on_tells_paths (built_of_run hg) 1 3 hturns
  rw [hyes, Option.some.injEq] at hfound
  rw [hno, Option.some.injEq] at hfound'
  refine ⟨g, hg, hpath.mp hfound.symm, ?_⟩
  rw [← hpath', ← hfound']
  exact Bool.false_ne_true

end TaskGraph

end sci
