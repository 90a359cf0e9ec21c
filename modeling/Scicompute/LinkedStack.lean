-- Singly linked lists in memory: `next` gives the pointer that each node
-- holds, and a list ends at the null pointer. `Chain` names the nodes of a
-- list in order, and the rules here follow them through writes, pushes and pops.
import Mathlib

namespace LinkedStack

variable {P : Type*} {null : P} {next next' : P → P}

/-- The nodes of the list that starts at a pointer. -/
def Chain (null : P) (next : P → P) : P → List P → Prop
  | p, [] => p = null
  | p, x :: l => p = x ∧ x ≠ null ∧ Chain null next (next x) l

/-- The list that starts at the pointer holds the node. -/
inductive Reaches (null : P) (next : P → P) : P → P → Prop
  | here {p : P} : p ≠ null → Reaches null next p p
  | there {p x : P} : p ≠ null → Reaches null next (next p) x → Reaches null next p x

theorem Chain.reaches_iff {p x : P} {l : List P} (h : Chain null next p l) :
    Reaches null next p x ↔ x ∈ l := by
  induction l generalizing p with
  | nil =>
    simp only [Chain] at h
    subst h
    simp only [List.not_mem_nil, iff_false]
    intro hr
    cases hr with
    | here hne => exact hne rfl
    | there hne _ => exact hne rfl
  | cons y l ih =>
    obtain ⟨rfl, hne, hl⟩ := h
    rw [List.mem_cons]
    constructor
    · intro hr
      cases hr with
      | here _ => exact Or.inl rfl
      | there _ hr => exact Or.inr ((ih hl).mp hr)
    · rintro (rfl | hx)
      · exact .here hne
      · exact .there hne ((ih hl).mpr hx)

/-- Writes to other nodes leave the list as it was. -/
theorem Chain.frame {p : P} {l : List P} (h : Chain null next p l)
    (he : ∀ x ∈ l, next' x = next x) : Chain null next' p l := by
  induction l generalizing p with
  | nil => exact h
  | cons x l ih =>
    obtain ⟨rfl, hne, hl⟩ := h
    refine ⟨rfl, hne, ?_⟩
    rw [he p (List.mem_cons_self ..)]
    exact ih hl (fun y hy => he y (List.mem_cons_of_mem _ hy))

theorem Chain.write [DecidableEq P] {p x v : P} {l : List P} (h : Chain null next p l)
    (hx : x ∉ l) : Chain null (Function.update next x v) p l :=
  h.frame (fun y hy => Function.update_of_ne (by rintro rfl; exact hx hy) v next)

/-- A node that points to the head becomes the new head. -/
theorem Chain.push {p x : P} {l : List P} (h : Chain null next p l) (hx : x ≠ null)
    (hp : next x = p) : Chain null next x (x :: l) :=
  ⟨rfl, hx, hp ▸ h⟩

/-- The first node of a list that is not empty. -/
theorem Chain.uncons {p : P} {l : List P} (h : Chain null next p l) (hp : p ≠ null) :
    ∃ l', l = p :: l' ∧ Chain null next (next p) l' := by
  cases l with
  | nil => exact absurd h hp
  | cons x l =>
    obtain ⟨rfl, -, hl⟩ := h
    exact ⟨l, rfl, hl⟩

/-- The list that starts at one of its nodes is an end of the list. -/
theorem Chain.suffix {p x : P} {l : List P} (h : Chain null next p l) (hx : x ∈ l) :
    ∃ l', l' <:+ l ∧ Chain null next x l' := by
  induction l generalizing p with
  | nil => cases hx
  | cons y l ih =>
    obtain ⟨rfl, hne, hl⟩ := h
    rcases List.mem_cons.mp hx with rfl | hx
    · exact ⟨x :: l, List.suffix_refl _, rfl, hne, hl⟩
    · obtain ⟨l', hl', hc⟩ := ih hl hx
      exact ⟨l', hl'.trans (List.suffix_cons _ _), hc⟩

end LinkedStack
