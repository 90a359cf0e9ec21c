-- The queries of `TaskGraph` together (src/scheduler/task_graph.cpp): the search for cycles of
-- `is_dag`, the search for a path of `depends_on`, the order of `topological_sort` and the
-- statuses that `get_ready_tasks` reads say the same of every graph that the calls build.
import Scicompute.TaskGraphPaths
import Scicompute.TopologicalSort

open Transition Relation DepthFirst
open sci.Task (Id)

namespace sci

namespace TaskGraph

variable {g g' : TaskGraph} {calls : List TaskGraphCall} {order : List Id}

/-! ## The graphs that the calls build -/

theorem mem_pairs {a b : Id} : (a, b) ∈ g.edges_.pairs ↔ b ∈ g.get_dependents a := by
  rw [get_dependents_eq, ← Multiset.count_pos, Adjacency.count_pairs, List.count_pos_iff]

theorem EndsInTasks.joined (h : g.EndsInTasks) : g.Joined := fun _ _ hb => h _ (mem_pairs.mpr hb)

/-- What every call keeps. -/
def Sound (g : TaskGraph) : Prop := g.Built ∧ g.EndsInTasks

theorem Sound.call {c : TaskGraphCall} (h : g.Sound) (hc : g.call c = some g') : g'.Sound :=
  ⟨built_call h.1 hc, h.2.call hc⟩

theorem sound_empty : Sound empty := ⟨.empty, fun e he => absurd he (Multiset.notMem_zero e)⟩

theorem sound_of_run (hr : run call empty calls = some g) : g.Sound :=
  invariant_of_run (fun _ _ _ h hc => h.call hc) sound_empty hr

/-- `depends_on` with turns enough. -/
def dependsOn (g : TaskGraph) (a b : Id) : Option Bool := g.depends_on (g.turns a + 1) a b

theorem Built.dependsOn_eq (h : g.Built) (a b : Id) :
    g.dependsOn a b = some true ∧ g.Path b a ∨ g.dependsOn a b = some false ∧ ¬ g.Path b a := by
  have hempty : ∀ v, v ∉ g.rev_edges_.keys → g.get_dependencies v = [] := by
    intro v hv
    rw [get_dependencies_eq]
    exact g.rev_edges_.tos_eq_nil v hv
  rw [dependsOn, depends_on_eq, h.path_iff]
  obtain ⟨found, hfound, hiff⟩ := BreadthFirst.search_spec b hempty (Nat.lt_succ_self (g.turns a))
  rw [hfound, ← hiff]
  cases found with
  | false => exact Or.inr ⟨rfl, Bool.false_ne_true⟩
  | true => exact Or.inl ⟨rfl, rfl⟩

theorem Built.dependsOn_eq_true_iff (h : g.Built) {a b : Id} :
    g.dependsOn a b = some true ↔ g.Path b a := by
  rcases h.dependsOn_eq a b with ⟨hd, hp⟩ | ⟨hd, hp⟩
  · exact iff_of_true hd hp
  · exact iff_of_false (by simp [hd]) hp

theorem Built.dependsOn_eq_false_iff (h : g.Built) {a b : Id} :
    g.dependsOn a b = some false ↔ ¬ g.Path b a := by
  rcases h.dependsOn_eq a b with ⟨hd, hp⟩ | ⟨hd, hp⟩
  · exact iff_of_false (by simp [hd]) (not_not.mpr hp)
  · exact iff_of_true hd hp

/-- `is_dag` answers true, in whatever order the tasks come. -/
def IsDag (g : TaskGraph) : Prop := ∀ order, g.Iterates order → g.is_dag order = some true

theorem iterates_toList (g : TaskGraph) : g.Iterates g.tasks_.toList := g.tasks_.coe_toList

theorem Sound.isDag_iff (h : g.Sound) : g.IsDag ↔ Acyclic g.get_dependents := by
  constructor
  · intro hd
    exact (is_dag_iff h.2.joined g.iterates_toList).mp (hd _ g.iterates_toList)
  · intro ha order hiter
    exact (is_dag_iff h.2.joined hiter).mpr ha

/-! ## Edges that are checked before they are added -/

/-- A caller that asks `depends_on` before it adds an edge. -/
def Checks (g : TaskGraph) : TaskGraphCall → Prop
  | .add_edge src dst => src ≠ dst ∧ g.dependsOn src dst = some false
  | .add_edges src tos => ∀ dst ∈ tos, src ≠ dst ∧ g.dependsOn src dst = some false
  | _ => True

instance (g : TaskGraph) (c : TaskGraphCall) : Decidable (g.Checks c) := by
  cases c <;> unfold Checks <;> infer_instance

theorem mem_get_dependents_add_edges {src : Id} {tos : List Id} (a b : Id) :
    b ∈ (g.add_edges src tos).get_dependents a ↔ b ∈ g.get_dependents a ∨ a = src ∧ b ∈ tos := by
  rw [← mem_pairs, pairs_add_edges, Multiset.mem_add, mem_pairs, or_comm]
  simp [Prod.ext_iff, and_comm, eq_comm]

/-- The graph stays acyclic if and only if each new edge was checked. -/
theorem Built.acyclic_add_edges_iff (h : g.Built) (src : Id) (tos : List Id) :
    Acyclic (g.add_edges src tos).get_dependents ↔
      Acyclic g.get_dependents ∧ ∀ dst ∈ tos, src ≠ dst ∧ g.dependsOn src dst = some false := by
  rw [DepthFirst.acyclic_add_edges_iff mem_get_dependents_add_edges]
  refine and_congr_right fun _ => forall₂_congr fun dst _ => ?_
  rw [h.dependsOn_eq_false_iff, reflTransGen_iff_eq_or_transGen, not_or]
  rfl

theorem mem_get_dependents_remove_task (id : Id) {a b : Id}
    (hb : b ∈ (g.remove_task id).get_dependents a) : b ∈ g.get_dependents a := by
  rw [← mem_pairs] at hb ⊢
  rw [remove_task, Adjacency.pairs_remove] at hb
  exact Multiset.mem_of_mem_filter hb

/-- A call on a graph without cycles leaves none if and only if the new edges were checked. -/
theorem Sound.checks_iff {c : TaskGraphCall} (h : g.Sound) (hd : g.IsDag)
    (hc : g.call c = some g') : g.Checks c ↔ g'.IsDag := by
  have ha := h.isDag_iff.mp hd
  rw [(h.call hc).isDag_iff]
  cases c with
  | add_task id =>
    cases hc
    exact iff_of_true trivial ha
  | add_edge src dst =>
    simp only [TaskGraph.call] at hc
    split_ifs at hc
    cases hc
    have hone := h.1.acyclic_add_edges_iff src [dst]
    simp only [List.forall_mem_singleton] at hone
    exact ⟨fun hck => hone.mpr ⟨ha, hck⟩, fun ha' => (hone.mp ha').2⟩
  | add_edges src tos =>
    simp only [TaskGraph.call] at hc
    split_ifs at hc
    cases hc
    rw [h.1.acyclic_add_edges_iff]
    exact (and_iff_right ha).symm
  | remove_task id =>
    cases hc
    exact iff_of_true trivial (ha.mono fun _ _ hb => mem_get_dependents_remove_task id hb)
  | clear =>
    cases hc
    refine iff_of_true trivial (acyclic_of_rank (fun _ => 0) ?_)
    intro v w hw
    cases hw

theorem isDag_empty : IsDag empty := by
  apply sound_empty.isDag_iff.mpr
  apply acyclic_of_rank (fun _ => 0)
  intro v w hw
  cases hw

/-- In every run of calls the graphs are all without cycles if and only if each edge was added
between two different tasks of which the first one did not depend on the second one. -/
theorem graphs_are_dags_iff_edges_are_checked (hr : run call empty calls = some g) :
    Meets call (fun h c => ∀ h', h.call c = some h' → h'.IsDag) empty calls ↔
      Meets call Checks empty calls :=
  meets_good_iff (fun _ _ _ h hc => h.call hc) (fun _ _ _ h hd hc => h.checks_iff hd hc)
    sound_empty isDag_empty hr

/-- A diamond, with two edges at once, and one task that is removed again. -/
def diamond : List TaskGraphCall :=
  [.add_task 1, .add_task 2, .add_task 3, .add_task 4, .add_edges 1 [2, 3], .add_edge 2 4,
    .remove_task 3, .add_edge 4 1, .add_task 3, .add_edge 3 4]

theorem a_cycle_is_closed_unchecked : ∃ g, run call empty diamond = some g ∧
    ¬ Meets call (fun h c => ∀ h', h.call c = some h' → h'.IsDag) empty diamond := by
  have hsome : (run call empty diamond).isSome = true := by decide
  obtain ⟨g, hg⟩ := Option.isSome_iff_exists.mp hsome
  exact ⟨g, hg, fun h => absurd ((graphs_are_dags_iff_edges_are_checked hg).mp h) (by decide)⟩

/-! ## One relation behind the queries -/

/-- The search for cycles and the searches for paths agree: a graph is a dag if and only if no task
depends on itself. -/
theorem Sound.isDag_iff_dependsOn (h : g.Sound) :
    g.IsDag ↔ ∀ id ∈ g.tasks_, g.dependsOn id id = some false := by
  rw [h.isDag_iff]
  constructor
  · intro ha id _
    exact h.1.dependsOn_eq_false_iff.mpr (ha id)
  · intro hself v hv
    -- a vertex of a cycle has an edge, so it is a task
    obtain ⟨w, hw, -⟩ := TransGen.head'_iff.mp hv
    exact h.1.dependsOn_eq_false_iff.mp (hself v (h.2.joined v w hw).1) hv

/-- A path goes forwards in the order of the tasks. -/
theorem idxOf_lt_of_path {result : List Id} (hjoin : g.Joined)
    (hmem : ∀ id, id ∈ result ↔ id ∈ g.tasks_) (hord : Ordered g.get_dependents result) {a b : Id}
    (h : g.Path b a) :
    result.idxOf b < result.idxOf a := by
  induction h with
  | single hw => exact hord.idxOf_lt ((hmem _).mpr (hjoin _ _ hw).1) hw
  | tail _ hw ih => exact Nat.lt_trans ih (hord.idxOf_lt ((hmem _).mpr (hjoin _ _ hw).1) hw)

/-- The ids of the pending tasks whose dependencies are all completed. `status` is what the tasks
answer while the call runs. -/
def get_ready_tasks (g : TaskGraph) (status : Id → Task.Status) (order : List Id) : List Id :=
  order.filter fun id => status id = .kPending ∧
    ∀ dep ∈ g.get_dependencies id, g.has_task dep = true ∧ status dep = .kCompleted

variable {status : Id → Task.Status}

theorem get_ready_tasks_cons (id : Id) : g.get_ready_tasks status (id :: order) =
    if status id = .kPending ∧
        ∀ dep ∈ g.get_dependencies id, g.has_task dep = true ∧ status dep = .kCompleted then
      id :: g.get_ready_tasks status order
    else g.get_ready_tasks status order := by
  rw [get_ready_tasks, List.filter_cons]
  simp only [decide_eq_true_iff]
  rfl

theorem mem_get_ready_tasks (hiter : g.Iterates order) (id : Id) :
    id ∈ g.get_ready_tasks status order ↔ id ∈ g.tasks_ ∧ status id = .kPending ∧
      ∀ dep ∈ g.get_dependencies id, g.has_task dep = true ∧ status dep = .kCompleted := by
  rw [get_ready_tasks, List.mem_filter, hiter.mem, decide_eq_true_iff]

/-- The tasks that a completed task depends on are completed. -/
def CompletedInOrder (g : TaskGraph) (status : Id → Task.Status) : Prop :=
  ∀ id, status id = .kCompleted → ∀ dep ∈ g.get_dependencies id, status dep = .kCompleted

/-- What is completed in order is completed along every path backwards. -/
theorem CompletedInOrder.path (h : g.CompletedInOrder status) (hb : g.Built) {a b : Id}
    (hpath : g.Path b a) (ha : status a = .kCompleted) : status b = .kCompleted := by
  induction hpath using TransGen.head_induction_on with
  | single hw => exact h _ ha _ (hb.mem_get_dependencies.mpr hw)
  | head hw _ ih => exact h _ ih _ (hb.mem_get_dependencies.mpr hw)

/-- A ready task is a pending one that depends on completed tasks only, also indirectly. -/
theorem Sound.mem_get_ready_tasks_iff (h : g.Sound) (hiter : g.Iterates order)
    (hstatus : g.CompletedInOrder status) (id : Id) :
    id ∈ g.get_ready_tasks status order ↔ id ∈ g.tasks_ ∧ status id = .kPending ∧
      ∀ b, g.dependsOn id b = some true → status b = .kCompleted := by
  rw [mem_get_ready_tasks hiter]
  refine and_congr_right fun _ => and_congr_right fun _ => ?_
  constructor
  · intro hdeps b hb
    rw [h.1.dependsOn_eq_true_iff] at hb
    obtain ⟨dep, hbd, hdep⟩ := TransGen.tail'_iff.mp hb
    have hcompleted := (hdeps dep (h.1.mem_get_dependencies.mpr hdep)).2
    rcases reflTransGen_iff_eq_or_transGen.mp hbd with rfl | hbd
    · exact hcompleted
    · exact hstatus.path h.1 hbd hcompleted
  · intro hall dep hdep
    have hedge := h.1.mem_get_dependencies.mp hdep
    refine ⟨decide_eq_true (h.2.joined dep id hedge).1, ?_⟩
    exact hall dep (h.1.dependsOn_eq_true_iff.mpr (.single hedge))

/-- In a dag there is a pending task whose dependencies are not pending. -/
theorem Sound.exists_first_pending (h : g.Sound) (hd : g.IsDag) {id : Id} (hid : id ∈ g.tasks_)
    (hpending : status id = .kPending) : ∃ first ∈ g.tasks_, status first = .kPending ∧
      ∀ dep ∈ g.get_dependencies first, status dep ≠ .kPending := by
  obtain ⟨result, -, hord, hmem⟩ := topological_sort_of_acyclic h.2.joined g.iterates_toList
    (h.isDag_iff.mp hd)
  -- the first pending task in a topological order
  obtain ⟨first, hfirst, hmin⟩ := Finset.exists_min_image
    (g.tasks_.filter fun id => status id = .kPending) result.idxOf
    ⟨id, Finset.mem_filter.mpr ⟨hid, hpending⟩⟩
  obtain ⟨htask, hfp⟩ := Finset.mem_filter.mp hfirst
  refine ⟨first, htask, hfp, ?_⟩
  intro dep hdep hp
  have hedge := h.1.mem_get_dependencies.mp hdep
  have hdt := (h.2.joined dep first hedge).1
  have hlt := hord.idxOf_lt ((hmem dep).mpr hdt) hedge
  have hle := hmin dep (Finset.mem_filter.mpr ⟨hdt, hp⟩)
  omega

theorem Sound.is_dag_iff (h : g.Sound) (hiter : g.Iterates order) :
    g.is_dag order = some true ↔ g.IsDag := by
  rw [TaskGraph.is_dag_iff h.2.joined hiter, h.isDag_iff]

/-- In every graph that the calls build, and in whatever order the tasks come, `is_dag` says whether
no task depends on itself. When it says so, `topological_sort` puts each task behind those that it
depends on; the ready tasks are the pending ones that depend on completed tasks only; and while the
tasks that are not pending are completed ones, some task is ready unless none is pending. -/
theorem queries_agree (hr : run call empty calls = some g) (hiter : g.Iterates order) :
    (g.is_dag order = some true ↔ ∀ id ∈ g.tasks_, g.dependsOn id id = some false) ∧
    (g.is_dag order = some true →
      (∃ result, g.topological_sort order = some result ∧
        ∀ a b, g.dependsOn a b = some true → result.idxOf b < result.idxOf a) ∧
      ∀ status, g.CompletedInOrder status →
        (∀ id, id ∈ g.get_ready_tasks status order ↔ id ∈ g.tasks_ ∧ status id = .kPending ∧
          ∀ b, g.dependsOn id b = some true → status b = .kCompleted) ∧
        ((∀ id ∈ g.tasks_, status id = .kPending ∨ status id = .kCompleted) →
          (g.get_ready_tasks status order = [] ↔ ∀ id ∈ g.tasks_, status id = .kCompleted))) := by
  have h := sound_of_run hr
  rw [h.is_dag_iff hiter]
  refine ⟨h.isDag_iff_dependsOn, fun hd => ⟨?_, fun status hstatus =>
    ⟨h.mem_get_ready_tasks_iff hiter hstatus, fun htwo => ?_⟩⟩⟩
  · obtain ⟨result, hresult, hord, hmem⟩ :=
      topological_sort_of_acyclic h.2.joined hiter (h.isDag_iff.mp hd)
    refine ⟨result, hresult, ?_⟩
    intro a b hab
    exact idxOf_lt_of_path h.2.joined hmem hord (h.1.dependsOn_eq_true_iff.mp hab)
  · constructor
    · intro hnone
      by_contra hsome
      push Not at hsome
      obtain ⟨id, hid, hne⟩ := hsome
      obtain ⟨first, htask, hfp, hdeps⟩ :=
        h.exists_first_pending hd hid ((htwo id hid).resolve_right hne)
      have hready : first ∈ g.get_ready_tasks status order := by
        rw [mem_get_ready_tasks hiter]
        refine ⟨htask, hfp, ?_⟩
        intro dep hdep
        have hdt := (h.2.joined dep first (h.1.mem_get_dependencies.mp hdep)).1
        exact ⟨decide_eq_true hdt, (htwo dep hdt).resolve_left (hdeps dep hdep)⟩
      rw [hnone] at hready
      cases hready
    · intro hall
      rw [List.eq_nil_iff_forall_not_mem]
      intro id hid
      rw [mem_get_ready_tasks hiter] at hid
      rw [hall id hid.1] at hid
      cases hid.2.1

def chain : List TaskGraphCall :=
  [.add_task 1, .add_task 2, .add_task 3, .add_edge 1 2, .add_edge 2 3]

/-- The first task of the chain comes before the last one. -/
theorem a_chain_is_sorted : ∃ g, run call empty chain = some g ∧
    ∃ result, g.topological_sort [3, 1, 2] = some result ∧ result.idxOf 1 < result.idxOf 3 := by
  obtain ⟨g, hg, hself, hiter, h13⟩ : ∃ g, run call empty chain = some g ∧
      (∀ id ∈ g.tasks_, g.dependsOn id id = some false) ∧ g.Iterates [3, 1, 2] ∧
      g.dependsOn 3 1 = some true := exists_of_any (by decide)
  obtain ⟨hdag, hrest⟩ := queries_agree hg hiter
  obtain ⟨⟨result, hresult, hlt⟩, -⟩ := hrest (hdag.mpr hself)
  exact ⟨g, hg, result, hresult, hlt 3 1 h13⟩

end TaskGraph

end sci
