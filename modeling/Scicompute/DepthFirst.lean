-- Depth-first search of a directed graph: recursion over the successors of a
-- vertex, with the set of visited vertices, the set of the vertices on the path
-- of the search, and the list of the finished ones. `none` stands for a recursion
-- deeper than the fuel. A search that meets no vertex of its path a second time
-- finishes every vertex after its successors.
import Mathlib

namespace DepthFirst

variable {V : Type*} [DecidableEq V]

/-- What a search keeps: `post` lists the finished vertices, the last one first. -/
structure State (V : Type*) where
  visited : Finset V
  path : Finset V
  post : List V

/-- The vertices of a list in order, until one is refused. -/
def all {S : Type*} (f : V → S → Option (Bool × S)) : List V → S → Option (Bool × S)
  | [], s => some (true, s)
  | v :: vs, s =>
    match f v s with
    | some (true, s) => all f vs s
    | r => r

/-- The search from one vertex. It is refused when it meets a vertex of its path. -/
def search (succ : V → List V) : Nat → V → State V → Option (Bool × State V)
  | 0, _, _ => none
  | fuel + 1, v, s =>
    if v ∈ s.path then some (false, s)
    else if v ∈ s.visited then some (true, s)
    else
      match all (search succ fuel) (succ v)
          { s with visited := insert v s.visited, path := insert v s.path } with
      | some (true, s) => some (true, { s with path := s.path.erase v, post := v :: s.post })
      | r => r

omit [DecidableEq V] in
/-- Searches that agree on a part of their states. -/
theorem all_map {S T : Type*} {f : V → S → Option (Bool × S)} {g : V → T → Option (Bool × T)}
    (p : S → T) (h : ∀ v s, g v (p s) = (f v s).map (Prod.map id p)) (vs : List V) (s : S) :
    all g vs (p s) = (all f vs s).map (Prod.map id p) := by
  induction vs generalizing s with
  | nil => rfl
  | cons v vs ih =>
    rw [all, all, h]
    rcases f v s with _ | ⟨_ | _, t⟩
    · rfl
    · rfl
    · exact ih t

/-- The state of a search that enters a vertex. -/
def State.enter (s : State V) (v : V) : State V :=
  { s with visited := insert v s.visited, path := insert v s.path }

/-- The state of a search that leaves a vertex. -/
def State.leave (s : State V) (v : V) : State V :=
  { s with path := s.path.erase v, post := v :: s.post }

/-- A recursion on a part `p` of the state that tests, enters and leaves as `search` does. -/
theorem search_map {T : Type*} {succ : V → List V} {dfs : Nat → V → T → Option (Bool × T)}
    (p : State V → T) (leave : T → V → T) (hzero : ∀ v t, dfs 0 v t = none)
    (hsucc : ∀ fuel v s, dfs (fuel + 1) v (p s) =
      if v ∈ s.path then some (false, p s)
      else if v ∈ s.visited then some (true, p s)
      else (all (dfs fuel) (succ v) (p (s.enter v))).map
        fun r => if r.1 then (true, leave r.2 v) else r)
    (hleave : ∀ s v, p (s.leave v) = leave (p s) v) (fuel : Nat) (v : V) (s : State V) :
    dfs fuel v (p s) = (search succ fuel v s).map (Prod.map id p) := by
  induction fuel generalizing v s with
  | zero => exact hzero v (p s)
  | succ fuel ih =>
    rw [hsucc, search]
    split_ifs
    · rfl
    · rfl
    · rw [all_map p ih]
      change _ = Option.map _ (match all (search succ fuel) (succ v) (s.enter v) with
        | some (true, s) => some (true, s.leave v)
        | r => r)
      rcases all (search succ fuel) (succ v) (s.enter v) with _ | ⟨_ | _, t⟩
      · rfl
      · rfl
      · simp [hleave]

/-! ## Enough fuel -/

variable {succ : V → List V} {U : Finset V}

/-- The search only adds vertices of `U` to the visited ones. -/
def Grows (U : Finset V) (s t : State V) : Prop :=
  s.visited ⊆ t.visited ∧ t.visited ⊆ U

omit [DecidableEq V] in
theorem all_isSome {f : V → State V → Option (Bool × State V)} {l : List V} {s : State V}
    (hf : ∀ v ∈ l, ∀ t, Grows U s t → ∃ r, f v t = some r ∧ Grows U t r.2) (hs : s.visited ⊆ U) :
    ∃ r, all f l s = some r ∧ Grows U s r.2 := by
  induction l generalizing s with
  | nil => exact ⟨_, rfl, Finset.Subset.refl _, hs⟩
  | cons v l ih =>
    obtain ⟨⟨b, t⟩, ht, hgrow⟩ := hf v (List.mem_cons_self ..) s ⟨Finset.Subset.refl _, hs⟩
    cases b with
    | false => exact ⟨(false, t), by simp [all, ht], hgrow⟩
    | true =>
      obtain ⟨r, hr, hr'⟩ := ih (s := t)
        (fun w hw u hu => hf w (List.mem_cons_of_mem _ hw) u ⟨hgrow.1.trans hu.1, hu.2⟩) hgrow.2
      exact ⟨r, by simpa [all, ht] using hr, hgrow.1.trans hr'.1, hr'.2⟩

/-- The search ends when the fuel exceeds the number of vertices that are not visited. -/
theorem search_isSome (hU : ∀ v ∈ U, ∀ w ∈ succ v, w ∈ U) {fuel : Nat} {v : V} {s : State V}
    (hv : v ∈ U) (hs : s.visited ⊆ U) (hfuel : (U \ s.visited).card < fuel) :
    ∃ r, search succ fuel v s = some r ∧ Grows U s r.2 := by
  induction fuel generalizing v s with
  | zero => omega
  | succ fuel ih =>
    rw [search]
    by_cases hp : v ∈ s.path
    · exact ⟨_, if_pos hp, Finset.Subset.refl _, hs⟩
    rw [if_neg hp]
    by_cases hvis : v ∈ s.visited
    · exact ⟨_, if_pos hvis, Finset.Subset.refl _, hs⟩
    rw [if_neg hvis]
    -- each recursive call has one vertex less to visit
    have hcard : (U \ insert v s.visited).card < (U \ s.visited).card := by
      apply Finset.card_lt_card
      refine Finset.ssubset_iff_subset_ne.mpr ⟨Finset.sdiff_subset_sdiff (Finset.Subset.refl _)
        (Finset.subset_insert _ _), ?_⟩
      intro he
      have hm : v ∈ U \ s.visited := Finset.mem_sdiff.mpr ⟨hv, hvis⟩
      rw [← he] at hm
      exact (Finset.mem_sdiff.mp hm).2 (Finset.mem_insert_self _ _)
    obtain ⟨⟨b, t⟩, ht, hgrow⟩ := all_isSome (U := U) (f := search succ fuel) (l := succ v)
      (s := { s with visited := insert v s.visited, path := insert v s.path })
      (fun w hw t ht => ih (hU v hv w hw) ht.2 <| by
        have := Finset.card_le_card (Finset.sdiff_subset_sdiff (Finset.Subset.refl U) ht.1)
        simp only at this
        omega)
      (Finset.insert_subset hv hs)
    have hsub : s.visited ⊆ t.visited := (Finset.subset_insert _ _).trans hgrow.1
    rw [ht]
    cases b with
    | false => exact ⟨_, rfl, hsub, hgrow.2⟩
    | true => exact ⟨_, rfl, hsub, hgrow.2⟩

/-! ## Finishing order -/

/-- Each vertex of the list stands before its successors. -/
def Ordered (succ : V → List V) : List V → Prop
  | [] => True
  | v :: l => v ∉ l ∧ (∀ w ∈ succ v, w ∈ l) ∧ Ordered succ l

/-- The vertices that are visited and not on the path are finished, in order. -/
structure Finished (succ : V → List V) (s : State V) : Prop where
  path : s.path ⊆ s.visited
  mem_post : ∀ v, v ∈ s.post ↔ v ∈ s.visited ∧ v ∉ s.path
  ordered : Ordered succ s.post

/-- What a search that is not refused gives: more finished vertices, on the same path. -/
structure Extends (succ : V → List V) (s t : State V) : Prop where
  finished : Finished succ t
  path : t.path = s.path
  visited : s.visited ⊆ t.visited
  post : s.post ⊆ t.post

omit [DecidableEq V] in
theorem Extends.rfl {s : State V} (h : Finished succ s) : Extends succ s s :=
  ⟨h, Eq.refl _, Finset.Subset.refl _, List.Subset.refl _⟩

omit [DecidableEq V] in
theorem Extends.trans {s t u : State V} (h1 : Extends succ s t) (h2 : Extends succ t u) :
    Extends succ s u :=
  ⟨h2.finished, h2.path.trans h1.path, h1.visited.trans h2.visited,
    List.Subset.trans h1.post h2.post⟩

omit [DecidableEq V] in
theorem all_extends {f : V → State V → Option (Bool × State V)} {vs : List V} {s t : State V}
    (hf : ∀ v u w, Extends succ s u → f v u = some (true, w) → Extends succ u w ∧ v ∈ w.post)
    (hs : Finished succ s) (h : all f vs s = some (true, t)) :
    Extends succ s t ∧ ∀ v ∈ vs, v ∈ t.post := by
  induction vs generalizing s with
  | nil =>
    rw [all] at h
    cases h
    exact ⟨Extends.rfl hs, fun v hv => by cases hv⟩
  | cons v vs ih =>
    rw [all] at h
    split at h
    · rename_i u hu
      obtain ⟨h1, hv⟩ := hf v s u (Extends.rfl hs) hu
      obtain ⟨h2, hvs⟩ := ih (fun x y z hy => hf x y z (h1.trans hy)) h1.finished h
      refine ⟨h1.trans h2, ?_⟩
      intro w hw
      rcases List.mem_cons.mp hw with rfl | hw
      · exact h2.post hv
      · exact hvs w hw
    · rename_i hne
      exact absurd h (hne t)

/-- The search of a vertex puts it on the path. -/
theorem Finished.enter {v : V} {s : State V} (hs : Finished succ s) (hvis : v ∉ s.visited) :
    Finished succ { s with visited := insert v s.visited, path := insert v s.path } := by
  refine ⟨Finset.insert_subset_insert _ hs.path, ?_, hs.ordered⟩
  intro w
  rw [hs.mem_post w]
  by_cases hw : w = v
  · subst hw
    simp [hvis]
  · simp [hw]

/-- A search that is not refused finishes its vertex, after the successors of the vertex. -/
theorem search_extends {fuel : Nat} {v : V} {s t : State V} (hs : Finished succ s)
    (h : search succ fuel v s = some (true, t)) : Extends succ s t ∧ v ∈ t.post := by
  induction fuel generalizing v s t with
  | zero => cases h
  | succ fuel ih =>
    rw [search] at h
    split_ifs at h with hp hvis
    · cases h
    · cases h
      exact ⟨Extends.rfl hs, (hs.mem_post v).mpr ⟨hvis, hp⟩⟩
    · split at h
      · rename_i u hu
        cases h
        obtain ⟨hext, hall⟩ :=
          all_extends (fun w x y hx h => ih hx.finished h) (hs.enter hvis) hu
        have hpath : u.path = insert v s.path := hext.path
        have hvpath : v ∈ u.path := by rw [hpath]; exact Finset.mem_insert_self _ _
        have hvpost : v ∉ u.post := fun hm => ((hext.finished.mem_post v).mp hm).2 hvpath
        refine ⟨⟨⟨?_, ?_, hvpost, hall, hext.finished.ordered⟩, ?_, ?_, ?_⟩,
          List.mem_cons_self ..⟩
        · exact (Finset.erase_subset _ _).trans hext.finished.path
        · intro w
          rw [List.mem_cons, hext.finished.mem_post w]
          by_cases hw : w = v
          · subst hw
            simp [hext.finished.path hvpath]
          · simp [hw]
        · rw [hpath, Finset.erase_insert hp]
        · exact (Finset.subset_insert _ _).trans hext.visited
        · exact List.Subset.trans hext.post (List.subset_cons_self _ _)
      · rename_i hne
        exact absurd h (hne t)

/-- An order in which each vertex stands before its successors ranks the vertices. -/
theorem Ordered.rank {l : List V} (h : Ordered succ l) :
    ∃ rank : V → Nat, ∀ v ∈ l, rank v < l.length ∧ ∀ w ∈ succ v, w ∈ l ∧ rank w < rank v := by
  induction l with
  | nil => exact ⟨fun _ => 0, fun v hv => by cases hv⟩
  | cons v l ih =>
    obtain ⟨hv, hsucc, hl⟩ := h
    obtain ⟨rank, hrank⟩ := ih hl
    have hne : ∀ u ∈ l, u ≠ v := fun u hu he => hv (he ▸ hu)
    refine ⟨Function.update rank v l.length, ?_⟩
    intro u hu
    rw [List.length_cons]
    rcases List.mem_cons.mp hu with rfl | hu
    · rw [Function.update_self]
      refine ⟨Nat.lt_succ_self _, ?_⟩
      intro w hw
      have hwl := hsucc w hw
      rw [Function.update_of_ne (hne w hwl)]
      exact ⟨List.mem_cons_of_mem _ hwl, (hrank w hwl).1⟩
    · rw [Function.update_of_ne (hne u hu)]
      obtain ⟨hlt, hsu⟩ := hrank u hu
      refine ⟨by omega, ?_⟩
      intro w hw
      obtain ⟨hwl, hwr⟩ := hsu w hw
      rw [Function.update_of_ne (hne w hwl)]
      exact ⟨List.mem_cons_of_mem _ hwl, hwr⟩

omit [DecidableEq V] in
theorem Ordered.mem_succ {l : List V} (h : Ordered succ l) {v w : V} (hv : v ∈ l)
    (hw : w ∈ succ v) : w ∈ l := by
  induction l with
  | nil => cases hv
  | cons u l ih =>
    obtain ⟨-, hsucc, hl⟩ := h
    rcases List.mem_cons.mp hv with rfl | hv
    · exact List.mem_cons_of_mem _ (hsucc w hw)
    · exact List.mem_cons_of_mem _ (ih hl hv)

omit [DecidableEq V] in
theorem Ordered.nodup {l : List V} (h : Ordered succ l) : l.Nodup := by
  induction l with
  | nil => exact List.nodup_nil
  | cons v l ih => exact List.nodup_cons.mpr ⟨h.1, ih h.2.2⟩

theorem Ordered.idxOf_lt {l : List V} (h : Ordered succ l) {v w : V} (hv : v ∈ l)
    (hw : w ∈ succ v) : l.idxOf v < l.idxOf w := by
  induction l with
  | nil => cases hv
  | cons u l ih =>
    obtain ⟨hu, hsucc, hl⟩ := h
    rcases List.mem_cons.mp hv with rfl | hv
    · have hne : v ≠ w := by
        rintro rfl
        exact hu (hsucc v hw)
      rw [List.idxOf_cons_self, List.idxOf_cons_ne _ hne]
      exact Nat.succ_pos _
    · have hwl : w ∈ l := hl.mem_succ hv hw
      have hne : ∀ x ∈ l, u ≠ x := by
        rintro x hx rfl
        exact hu hx
      rw [List.idxOf_cons_ne _ (hne v hv), List.idxOf_cons_ne _ (hne w hwl)]
      exact Nat.succ_lt_succ (ih hl hv)

/-! ## Cycles -/

def Edge (succ : V → List V) (v w : V) : Prop := w ∈ succ v

def Acyclic (succ : V → List V) : Prop := ∀ v, ¬ Relation.TransGen (Edge succ) v v

omit [DecidableEq V] in
/-- A rank that falls along the edges leaves no room for a cycle. -/
theorem acyclic_of_rank (rank : V → Nat) (h : ∀ v, ∀ w ∈ succ v, rank w < rank v) :
    Acyclic succ := by
  have hfall : ∀ v w, Relation.TransGen (Edge succ) v w → rank w < rank v := by
    intro v w hvw
    induction hvw with
    | single hw => exact h _ _ hw
    | tail _ hw ih => exact Nat.lt_trans (h _ _ hw) ih
  intro v hv
  exact Nat.lt_irrefl _ (hfall v v hv)

omit [DecidableEq V] in
/-- What is refused is refused at one vertex, after searches that were not. -/
theorem all_refused {f : V → State V → Option (Bool × State V)} {vs : List V} {s t : State V}
    (hf : ∀ v u w, Extends succ s u → f v u = some (true, w) → Extends succ u w)
    (hs : Finished succ s) (h : all f vs s = some (false, t)) :
    ∃ v ∈ vs, ∃ u w, Extends succ s u ∧ f v u = some (false, w) := by
  induction vs generalizing s with
  | nil => cases h
  | cons v vs ih =>
    rw [all] at h
    split at h
    · rename_i u hu
      have hsu := hf v s u (Extends.rfl hs) hu
      obtain ⟨x, hx, y, z, hy, hz⟩ := ih (fun x y z hy => hf x y z (hsu.trans hy)) hsu.finished h
      exact ⟨x, List.mem_cons_of_mem _ hx, y, z, hsu.trans hy, hz⟩
    · exact ⟨v, List.mem_cons_self .., s, t, Extends.rfl hs, h⟩

/-- A search is refused only at a cycle: each vertex of the path leads to the one searched. -/
theorem search_refused {fuel : Nat} {v : V} {s t : State V} (hs : Finished succ s)
    (hpath : ∀ u ∈ s.path, Relation.TransGen (Edge succ) u v)
    (h : search succ fuel v s = some (false, t)) : ¬ Acyclic succ := by
  induction fuel generalizing v s t with
  | zero => cases h
  | succ fuel ih =>
    rw [search] at h
    split_ifs at h with hp hvis
    · exact fun ha => ha v (hpath v hp)
    · cases h
    · split at h
      · cases h
      · rename_i hne
        obtain ⟨w, hw, u, x, hext, hx⟩ := all_refused
          (fun _ _ _ hx h => (search_extends hx.finished h).1) (hs.enter hvis) h
        apply ih hext.finished ?_ hx
        intro y hy
        rw [hext.path] at hy
        rcases Finset.mem_insert.mp hy with rfl | hy
        · exact .single hw
        · exact (hpath y hy).tail hw

omit [DecidableEq V] in
theorem Acyclic.mono {succ' : V → List V} (h : Acyclic succ')
    (hsub : ∀ v, ∀ w ∈ succ v, w ∈ succ' v) : Acyclic succ :=
  fun v hv => h v (Relation.TransGen.mono (r := Edge succ) hsub v v hv)

omit [DecidableEq V] in
/-- A path of the larger graph is one of the smaller graph, or it takes a new edge out of `a`. -/
theorem path_or_new_edge {succ' : V → List V} {a : V} {new : List V}
    (hsucc : ∀ v w, w ∈ succ' v ↔ w ∈ succ v ∨ v = a ∧ w ∈ new) {v w : V}
    (h : Relation.TransGen (Edge succ') v w) : Relation.TransGen (Edge succ) v w ∨
      ∃ b ∈ new, Relation.ReflTransGen (Edge succ') v a ∧ Relation.ReflTransGen (Edge succ') b w := by
  induction h with
  | single hw =>
    rcases (hsucc _ _).mp hw with hw | ⟨rfl, hw⟩
    · exact Or.inl (.single hw)
    · exact Or.inr ⟨_, hw, .refl, .refl⟩
  | @tail x y hx hy ih =>
    rcases ih with hold | ⟨b, hb, hva, hbx⟩
    · rcases (hsucc _ _).mp hy with hold' | ⟨rfl, hnew⟩
      · exact Or.inl (hold.tail hold')
      · exact Or.inr ⟨y, hnew, hx.to_reflTransGen, .refl⟩
    · exact Or.inr ⟨b, hb, hva, hbx.tail hy⟩

omit [DecidableEq V] in
/-- When no end of a new edge leads back to `a`, the new edges lie on no path to `a`. -/
theorem reaches_without_new_edges {succ' : V → List V} {a : V} {new : List V}
    (hsucc : ∀ v w, w ∈ succ' v ↔ w ∈ succ v ∨ v = a ∧ w ∈ new)
    (hnew : ∀ b ∈ new, ¬ Relation.ReflTransGen (Edge succ) b a) {v : V}
    (h : Relation.ReflTransGen (Edge succ') v a) : Relation.ReflTransGen (Edge succ) v a := by
  induction h using Relation.ReflTransGen.head_induction_on with
  | refl => exact .refl
  | @head u w hw _ ih =>
    rcases (hsucc _ _).mp hw with hw | ⟨-, hw⟩
    · exact .head hw ih
    · exact absurd ih (hnew w hw)

omit [DecidableEq V] in
/-- Edges out of `a` close no cycle if and only if no end of them leads back to `a`. -/
theorem acyclic_add_edges_iff {succ' : V → List V} {a : V} {new : List V}
    (hsucc : ∀ v w, w ∈ succ' v ↔ w ∈ succ v ∨ v = a ∧ w ∈ new) :
    Acyclic succ' ↔
      Acyclic succ ∧ ∀ b ∈ new, ¬ Relation.ReflTransGen (Edge succ) b a := by
  have hold : ∀ v w, Edge succ v w → Edge succ' v w := fun v w hw => (hsucc v w).mpr (Or.inl hw)
  constructor
  · intro h
    refine ⟨h.mono hold, ?_⟩
    intro b hb hba
    have hedge : Edge succ' a b := (hsucc a b).mpr (Or.inr ⟨rfl, hb⟩)
    exact h a (.head' hedge (Relation.ReflTransGen.mono hold b a hba))
  · rintro ⟨h, hnew⟩ v hv
    rcases path_or_new_edge hsucc hv with hv | ⟨b, hb, hva, hbv⟩
    · exact h v hv
    · exact hnew b hb (reaches_without_new_edges hsucc hnew (hbv.trans hva))

end DepthFirst
