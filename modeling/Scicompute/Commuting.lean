-- Programs whose steps commute. One run that ends well stands for all of them: every other
-- schedule takes the same number of steps and ends in the same state.
import Scicompute.Transition

namespace Transition

variable {S A : Type*} {step : S → A → Option S} {Final : S → Prop}

/-- Every run from `s` has at most `n` steps, and can be continued to `t` with the rest of them. -/
def Settles (step : S → A → Option S) (s t : S) (n : Nat) : Prop :=
  ∀ as u, run step s as = some u → ∃ bs, run step u bs = some t ∧ as.length + bs.length = n

/-- Two steps from a state on the way to a good end can be taken in both orders. -/
def Commute (step : S → A → Option S) (Final : S → Prop) : Prop :=
  ∀ s a b s1 s2 as t, a ≠ b → step s a = some s1 → step s b = some s2 →
    run step s1 as = some t → Final t → ∃ s3, step s1 b = some s3 ∧ step s2 a = some s3

/-- A step that a run takes at some point can be taken first. -/
theorem run_of_commute (hcomm : Commute step Final) (hfinal : ∀ t, Final t → ∀ a, step t a = none)
    {s s2 t : S} {as : List A} {b : A} (hr : run step s as = some t) (ht : Final t)
    (hb : step s b = some s2) : ∃ bs, run step s2 bs = some t ∧ bs.length + 1 = as.length := by
  classical
  induction as generalizing s s2 with
  | nil =>
    rw [run, Option.some.injEq] at hr
    subst hr
    rw [hfinal s ht b] at hb
    cases hb
  | cons a as ih =>
    obtain ⟨s1, hs1, hrest⟩ := (run_cons s t a as).mp hr
    by_cases hab : a = b
    · subst hab
      rw [hs1, Option.some.injEq] at hb
      subst hb
      exact ⟨as, hrest, rfl⟩
    · obtain ⟨s3, h13, h23⟩ := hcomm s a b s1 s2 as t hab hs1 hb hrest ht
      obtain ⟨bs, hbs, hlen⟩ := ih hrest h13
      refine ⟨a :: bs, (run_cons ..).mpr ⟨s3, h23, hbs⟩, ?_⟩
      rw [List.length_cons, List.length_cons, hlen]

/-- One run to a good end stands for all runs. -/
theorem settles_of_run (hcomm : Commute step Final)
    (hfinal : ∀ t, Final t → ∀ a, step t a = none) {s t : S} {as : List A}
    (hr : run step s as = some t) (ht : Final t) : Settles step s t as.length := by
  intro bs
  induction bs generalizing s as with
  | nil =>
    intro u hu
    rw [run, Option.some.injEq] at hu
    subst hu
    exact ⟨as, hr, Nat.zero_add _⟩
  | cons b bs ih =>
    intro u hu
    obtain ⟨s2, hs2, hrest⟩ := (run_cons s u b bs).mp hu
    obtain ⟨cs, hcs, hlen⟩ := run_of_commute hcomm hfinal hr ht hs2
    obtain ⟨ds, hds, hsum⟩ := ih hcs u hrest
    refine ⟨ds, hds, ?_⟩
    rw [List.length_cons]
    omega

/-- The state in which all runs end can be reached. -/
theorem Settles.exists_run {s t : S} {n : Nat} (h : Settles step s t n) :
    ∃ as, run step s as = some t := by
  obtain ⟨bs, hbs, -⟩ := h [] s rfl
  exact ⟨bs, hbs⟩

end Transition
