-- Breadth-first search for a vertex of a directed graph: a queue of vertices to look at, and the
-- set of those whose successors are queued. Vertices are marked when they leave the queue, so a
-- vertex may be queued many times. `none` stands for a search that is longer than the fuel.
import Mathlib

open Relation

namespace BreadthFirst

variable {V : Type*} [DecidableEq V]

/-- The search for `goal`, from a queue. -/
def search (succ : V → List V) (goal : V) : Nat → List V → Finset V → Option Bool
  | 0, _, _ => none
  | _ + 1, [], _ => some false
  | fuel + 1, v :: queue, visited =>
    if v = goal then some true
    else if v ∈ visited then search succ goal fuel queue visited
    else search succ goal fuel (queue ++ succ v) (insert v visited)

/-- The vertices that can be reached, also in no step. -/
def Reaches (succ : V → List V) : V → V → Prop := ReflTransGen fun v w => w ∈ succ v

variable {succ : V → List V} {goal : V} {fuel : Nat} {queue : List V} {visited : Finset V}

/-! ## Answers -/

/-- What is found can be reached from the queue. -/
theorem search_sound (h : search succ goal fuel queue visited = some true) :
    ∃ v ∈ queue, Reaches succ v goal := by
  induction fuel generalizing queue visited with
  | zero => cases h
  | succ fuel ih =>
    cases queue with
    | nil => cases h
    | cons v queue =>
      rw [search] at h
      split_ifs at h with hgoal hvisited
      · exact ⟨v, List.mem_cons_self .., hgoal ▸ .refl⟩
      · obtain ⟨w, hw, hreach⟩ := ih h
        exact ⟨w, List.mem_cons_of_mem v hw, hreach⟩
      · obtain ⟨w, hw, hreach⟩ := ih h
        rcases List.mem_append.mp hw with hw | hw
        · exact ⟨w, List.mem_cons_of_mem v hw, hreach⟩
        · exact ⟨v, List.mem_cons_self .., .head hw hreach⟩

/-- The goal has not been visited, and the successors of the visited vertices are visited or
queued. -/
def Explored (succ : V → List V) (goal : V) (queue : List V) (visited : Finset V) : Prop :=
  ∀ v ∈ visited, v ≠ goal ∧ ∀ w ∈ succ v, w ∈ visited ∨ w ∈ queue

omit [DecidableEq V] in
theorem explored_empty : Explored succ goal queue ∅ := fun v hv => absurd hv (Finset.notMem_empty v)

omit [DecidableEq V] in
/-- A vertex that is visited already leaves the queue. -/
theorem Explored.skip {v : V} (h : Explored succ goal (v :: queue) visited) (hv : v ∈ visited) :
    Explored succ goal queue visited := by
  intro u hu
  obtain ⟨hne, hsucc⟩ := h u hu
  refine ⟨hne, ?_⟩
  intro w hw
  rcases hsucc w hw with hw | hw
  · exact Or.inl hw
  · rcases List.mem_cons.mp hw with rfl | hw
    · exact Or.inl hv
    · exact Or.inr hw

/-- A vertex is visited. -/
theorem Explored.visit {v : V} (h : Explored succ goal (v :: queue) visited) (hv : v ≠ goal) :
    Explored succ goal (queue ++ succ v) (insert v visited) := by
  intro u hu
  rcases Finset.mem_insert.mp hu with rfl | hu
  · exact ⟨hv, fun w hw => Or.inr (List.mem_append_right queue hw)⟩
  · obtain ⟨hne, hsucc⟩ := h u hu
    refine ⟨hne, ?_⟩
    intro w hw
    rcases hsucc w hw with hw | hw
    · exact Or.inl (Finset.mem_insert_of_mem hw)
    · rcases List.mem_cons.mp hw with rfl | hw
      · exact Or.inl (Finset.mem_insert_self ..)
      · exact Or.inr (List.mem_append_left _ hw)

omit [DecidableEq V] in
/-- When the queue is empty, no visited vertex reaches the goal. -/
theorem Explored.not_reaches (h : Explored succ goal [] visited) {v : V} (hv : v ∈ visited) :
    ¬ Reaches succ v goal := by
  intro hreach
  have hstays : ∀ w, Reaches succ v w → w ∈ visited := by
    intro w hw
    induction hw with
    | refl => exact hv
    | tail _ hstep ih => exact ((h _ ih).2 _ hstep).resolve_right List.not_mem_nil
  exact (h goal (hstays goal hreach)).1 rfl

/-- What is not found cannot be reached, from the queue or from a visited vertex. -/
theorem search_complete (hexplored : Explored succ goal queue visited)
    (h : search succ goal fuel queue visited = some false) {v : V}
    (hv : v ∈ visited ∨ v ∈ queue) : ¬ Reaches succ v goal := by
  induction fuel generalizing queue visited v with
  | zero => cases h
  | succ fuel ih =>
    cases queue with
    | nil => exact hexplored.not_reaches (hv.resolve_right List.not_mem_nil)
    | cons u queue =>
      rw [search] at h
      split_ifs at h with hgoal hvisited
      · cases h
      · apply ih (hexplored.skip hvisited) h
        rcases hv with hv | hv
        · exact Or.inl hv
        · rcases List.mem_cons.mp hv with rfl | hv
          · exact Or.inl hvisited
          · exact Or.inr hv
      · apply ih (hexplored.visit hgoal) h
        rcases hv with hv | hv
        · exact Or.inl (Finset.mem_insert_of_mem hv)
        · rcases List.mem_cons.mp hv with rfl | hv
          · exact Or.inl (Finset.mem_insert_self ..)
          · exact Or.inr (List.mem_append_left _ hv)

/-! ## Termination -/

/-- The vertices that are queued, and those that the unvisited vertices of `U` will queue. -/
def work (succ : V → List V) (U : Finset V) (queue : List V) (visited : Finset V) : Nat :=
  queue.length + ∑ v ∈ U \ visited, (succ v).length

/-- A vertex that is visited moves its successors from the sum into the queue. -/
theorem work_visit {U : Finset V} (hU : ∀ v, v ∉ U → succ v = []) (queue : List V) {v : V}
    (hv : v ∉ visited) : work succ U (queue ++ succ v) (insert v visited) + 1 =
      work succ U (v :: queue) visited := by
  unfold work
  by_cases hvU : v ∈ U
  · have hmem : v ∈ U \ visited := Finset.mem_sdiff.mpr ⟨hvU, hv⟩
    have hset : U \ insert v visited = (U \ visited).erase v := by
      rw [Finset.sdiff_insert]
    rw [hset, ← Finset.add_sum_erase _ _ hmem, List.length_append, List.length_cons]
    omega
  · have hset : U \ insert v visited = U \ visited := Finset.sdiff_insert_of_notMem hvU visited
    rw [hset, hU v hvU, List.append_nil, List.length_cons]
    omega

/-- With more fuel than work, the search ends. -/
theorem search_isSome (goal : V) {U : Finset V} (hU : ∀ v, v ∉ U → succ v = [])
    (hfuel : work succ U queue visited < fuel) :
    (search succ goal fuel queue visited).isSome = true := by
  induction fuel generalizing queue visited with
  | zero => exact absurd hfuel (Nat.not_lt_zero _)
  | succ fuel ih =>
    cases queue with
    | nil => rfl
    | cons v queue =>
      rw [search]
      split_ifs with hgoal hvisited
      · rfl
      · apply ih
        unfold work at hfuel ⊢
        rw [List.length_cons] at hfuel
        omega
      · apply ih
        have hwork := work_visit hU queue hvisited
        omega

/-- With more fuel than work, the search tells whether the goal can be reached. -/
theorem search_spec (goal : V) {U : Finset V} (hU : ∀ v, v ∉ U → succ v = [])
    (hfuel : work succ U queue ∅ < fuel) :
    ∃ found, search succ goal fuel queue ∅ = some found ∧
      (found = true ↔ ∃ v ∈ queue, Reaches succ v goal) := by
  obtain ⟨found, hfound⟩ := Option.isSome_iff_exists.mp (search_isSome goal hU hfuel)
  refine ⟨found, hfound, ?_⟩
  cases found with
  | true => exact iff_of_true rfl (search_sound hfound)
  | false =>
    refine iff_of_false Bool.false_ne_true ?_
    rintro ⟨v, hv, hreach⟩
    exact search_complete explored_empty hfound (Or.inr hv) hreach

end BreadthFirst
