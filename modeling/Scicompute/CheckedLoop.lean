-- Loops whose rounds may have no result. When it is known beforehand which rounds have one,
-- the loop has a result exactly when all of them do.
import Mathlib

namespace CheckedLoop

variable {α β : Type*}

/-- Whether the second part has a result does not depend on what the first one gives. -/
theorem isSome_bind_iff {o : Option α} {f : α → Option β} {P : Prop}
    (hf : ∀ a, (f a).isSome ↔ P) : (o.bind f).isSome ↔ o.isSome ∧ P := by
  cases o with
  | none => simp
  | some a => simpa using hf a

/-- Whether a round has a result does not depend on the rounds before it. -/
theorem isSome_foldlM_iff {g : β → α → Option β} {P : α → Prop}
    (hg : ∀ b a, (g b a).isSome ↔ P a) (l : List α) (b : β) :
    (l.foldlM g b).isSome ↔ ∀ a ∈ l, P a := by
  induction l generalizing b with
  | nil => simp
  | cons a l ih =>
    rw [List.foldlM_cons, List.forall_mem_cons, and_comm]
    exact (isSome_bind_iff fun b => ih b).trans (by rw [hg, and_comm])

theorem foldlM_congr {f g : β → α → Option β} {l : List α} (b : β)
    (h : ∀ b, ∀ a ∈ l, f b a = g b a) : l.foldlM f b = l.foldlM g b := by
  induction l generalizing b with
  | nil => rfl
  | cons a l ih =>
    rw [List.foldlM_cons, List.foldlM_cons, h b a List.mem_cons_self]
    exact congrArg _ (funext fun b => ih b fun b a ha => h b a (List.mem_cons_of_mem _ ha))

/-- All rounds have results. -/
theorem foldlM_eq_some {g : β → α → Option β} {f : β → α → β} {l : List α} (b : β)
    (h : ∀ b, ∀ a ∈ l, g b a = some (f b a)) : l.foldlM g b = some (l.foldl f b) := by
  induction l generalizing b with
  | nil => rfl
  | cons a l ih =>
    rw [List.foldlM_cons, h b a List.mem_cons_self]
    exact ih _ fun b a ha => h b a (List.mem_cons_of_mem _ ha)

/-- All accesses have results. -/
theorem foldlM_map {γ : Type*} {g : α → Option γ} {l : List α} {cs : List γ}
    (h : l.map g = cs.map some) (f : β → γ → β) (b : β) :
    l.foldlM (fun b a => (g a).map (f b)) b = some (cs.foldl f b) := by
  induction l generalizing b cs with
  | nil =>
    obtain rfl := List.map_eq_nil_iff.mp h.symm
    rfl
  | cons a l ih =>
    obtain ⟨c, cs, rfl, hc, hcs⟩ := List.map_eq_cons_iff.mp h.symm
    rw [List.foldlM_cons, ← hc]
    exact ih hcs.symm _

/-- The loop of a sum. -/
theorem foldl_range_add {M : Type*} [AddCommMonoid M] (f : Nat → M) (n : Nat) :
    (List.range n).foldl (fun sum i => sum + f i) 0 = ∑ i ∈ Finset.range n, f i := by
  induction n with
  | zero => rfl
  | succ n ih => rw [List.range_succ, List.foldl_concat, ih, Finset.sum_range_succ]

end CheckedLoop
