-- Runs of a program that takes one step at a time. A step function gives the
-- state after an action, or `none` when the action is not enabled. The rules
-- here carry an invariant along every run, with or without a condition that
-- each step of the run meets.
import Mathlib

namespace Transition

variable {S A : Type*}

/-- The state after a list of actions. -/
def run (step : S → A → Option S) : S → List A → Option S
  | s, [] => some s
  | s, a :: as =>
    match step s a with
    | none => none
    | some t => run step t as

/-- Each step of the run meets `ok`, a condition on the action and on the state before it. -/
def Meets (step : S → A → Option S) (ok : S → A → Prop) : S → List A → Prop
  | _, [] => True
  | s, a :: as => ok s a ∧ ∀ t, step s a = some t → Meets step ok t as

variable {step : S → A → Option S}

theorem run_cons (s t : S) (a : A) (as : List A) :
    run step s (a :: as) = some t ↔ ∃ u, step s a = some u ∧ run step u as = some t := by
  rw [run]
  cases h : step s a with
  | none => simp
  | some u => simp

theorem run_single {s t : S} {a : A} (h : step s a = some t) : run step s [a] = some t :=
  (run_cons ..).mpr ⟨t, h, rfl⟩

theorem run_append {s t u : S} {as bs : List A} (h1 : run step s as = some t)
    (h2 : run step t bs = some u) : run step s (as ++ bs) = some u := by
  induction as generalizing s with
  | nil =>
    cases h1
    exact h2
  | cons a as ih =>
    obtain ⟨v, hv, hvt⟩ := (run_cons s t a as).mp h1
    exact (run_cons ..).mpr ⟨v, hv, ih hvt⟩

/-- A property of the state that a run ends in, by evaluation. -/
theorem exists_of_any {s : S} {as : List A} {p : S → Prop} [DecidablePred p]
    (h : (run step s as).any (fun t => decide (p t)) = true) : ∃ t, run step s as = some t ∧ p t := by
  cases hr : run step s as with
  | none => simp [hr] at h
  | some t => exact ⟨t, rfl, by simpa [hr] using h⟩

instance decidableMeets (ok : S → A → Prop) [∀ s a, Decidable (ok s a)] :
    ∀ s as, Decidable (Meets step ok s as)
  | _, [] => isTrue trivial
  | s, a :: as =>
    match h : step s a with
    | none => decidable_of_iff (ok s a) ⟨fun ha => ⟨ha, fun t ht => by simp [h] at ht⟩, And.left⟩
    | some t =>
      have := decidableMeets ok t as
      decidable_of_iff (ok s a ∧ Meets step ok t as)
        ⟨fun ha => ⟨ha.1, fun u hu => by
          rw [h, Option.some.injEq] at hu
          exact hu ▸ ha.2⟩, fun ha => ⟨ha.1, ha.2 t h⟩⟩

theorem Meets.mono {ok ok' : S → A → Prop} (himp : ∀ s a, ok s a → ok' s a) {s : S} {as : List A}
    (h : Meets step ok s as) : Meets step ok' s as := by
  induction as generalizing s with
  | nil => trivial
  | cons a as ih => exact ⟨himp s a h.1, fun t ht => ih (h.2 t ht)⟩

theorem Meets.and {ok ok' : S → A → Prop} {s : S} {as : List A} (h : Meets step ok s as)
    (h' : Meets step ok' s as) : Meets step (fun s a => ok s a ∧ ok' s a) s as := by
  induction as generalizing s with
  | nil => trivial
  | cons a as ih => exact ⟨⟨h.1, h'.1⟩, fun t ht => ih (h.2 t ht) (h'.2 t ht)⟩

/-- A condition on the actions alone. -/
theorem meets_of_forall {ok : A → Prop} {as : List A} (h : ∀ a ∈ as, ok a) (s : S) :
    Meets step (fun _ a => ok a) s as := by
  induction as generalizing s with
  | nil => trivial
  | cons a as ih =>
    exact ⟨h a (List.mem_cons_self ..), fun t _ => ih (fun b hb => h b (List.mem_cons_of_mem a hb)) t⟩

/-- None of the actions is one of a kind. -/
theorem meets_of_not_mem {B : Type*} {f : B → A} {as : List A} (h : ∀ b, f b ∉ as) (s : S) :
    Meets step (fun _ a => ∀ b, a ≠ f b) s as := by
  apply meets_of_forall
  rintro a ha b rfl
  exact h b ha

theorem meets_cons {ok : S → A → Prop} {s t : S} {a : A} {as : List A} (h : step s a = some t)
    (h1 : ok s a) (h2 : Meets step ok t as) : Meets step ok s (a :: as) := by
  refine ⟨h1, ?_⟩
  intro u hu
  rw [h] at hu
  cases hu
  exact h2

/-- Two conditions that are the same in the states of an invariant. -/
theorem meets_iff_of_invariant {ok ok' : S → A → Prop} {I : S → Prop}
    (hstep : ∀ s a t, I s → step s a = some t → I t) (hiff : ∀ s a, I s → (ok s a ↔ ok' s a))
    {s : S} {as : List A} (h0 : I s) : Meets step ok s as ↔ Meets step ok' s as := by
  induction as generalizing s with
  | nil => exact Iff.rfl
  | cons a as ih =>
    refine and_congr (hiff s a h0) (forall_congr' fun t => ?_)
    exact imp_congr_right fun ht => ih (hstep s a t h0 ht)

/-- What each step that meets `ok` preserves, a run whose steps all meet it preserves. -/
theorem invariant_of_meets {ok : S → A → Prop} {I : S → Prop}
    (hstep : ∀ s a t, I s → ok s a → step s a = some t → I t)
    {s t : S} {as : List A} (h0 : I s) (hm : Meets step ok s as)
    (hr : run step s as = some t) : I t := by
  induction as generalizing s with
  | nil =>
    rw [run, Option.some.injEq] at hr
    exact hr ▸ h0
  | cons a as ih =>
    obtain ⟨u, hu, hut⟩ := (run_cons s t a as).mp hr
    exact ih (hstep s a u h0 hm.1 hu) (hm.2 u hu) hut

/-- What each step preserves, every run preserves. -/
theorem invariant_of_run {I : S → Prop} (hstep : ∀ s a t, I s → step s a = some t → I t)
    {s t : S} {as : List A} (h0 : I s) (hr : run step s as = some t) : I t := by
  induction as generalizing s with
  | nil =>
    rw [run, Option.some.injEq] at hr
    exact hr ▸ h0
  | cons a as ih =>
    obtain ⟨u, hu, hut⟩ := (run_cons s t a as).mp hr
    exact ih (hstep s a u h0 hu) hut

/-- The exact condition of a good run: from a good state the steps that meet `ok` are those that
lead to a good one, and no step leads back from a state that is not good. -/
theorem meets_iff_of_run {ok : S → A → Prop} {I good : S → Prop}
    (hI : ∀ s a t, I s → step s a = some t → I t)
    (hok : ∀ s a t, I s → good s → step s a = some t → (ok s a ↔ good t))
    (hbad : ∀ s a t, I s → ¬ good s → step s a = some t → ¬ good t)
    {s t : S} {as : List A} (h0 : I s) (hg : good s) (hr : run step s as = some t) :
    good t ↔ Meets step ok s as := by
  induction as generalizing s with
  | nil =>
    rw [run, Option.some.injEq] at hr
    subst hr
    exact iff_of_true hg trivial
  | cons a as ih =>
    obtain ⟨u, hu, hut⟩ := (run_cons s t a as).mp hr
    have hIu := hI s a u h0 hu
    have hiff := hok s a u h0 hg hu
    by_cases hgu : good u
    · constructor
      · intro ht
        exact meets_cons hu (hiff.mpr hgu) ((ih hIu hgu hut).mp ht)
      · intro hm
        exact (ih hIu hgu hut).mpr (hm.2 u hu)
    · have hbadt : I t ∧ ¬ good t :=
        invariant_of_run (I := fun s => I s ∧ ¬ good s)
          (fun s a t hs ht => ⟨hI s a t hs.1 ht, hbad s a t hs.1 hs.2 ht⟩) ⟨hIu, hgu⟩ hut
      exact iff_of_false hbadt.2 fun hm => hgu (hiff.mp hm.1)

/-- A run that stays in good states: each step meets the condition that keeps it in them. -/
theorem meets_good_iff {ok : S → A → Prop} {I good : S → Prop}
    (hI : ∀ s a t, I s → step s a = some t → I t)
    (hok : ∀ s a t, I s → good s → step s a = some t → (ok s a ↔ good t))
    {s t : S} {as : List A} (h0 : I s) (hg : good s) (hr : run step s as = some t) :
    Meets step (fun s a => ∀ t, step s a = some t → good t) s as ↔ Meets step ok s as := by
  induction as generalizing s with
  | nil => exact Iff.rfl
  | cons a as ih =>
    obtain ⟨u, hu, hut⟩ := (run_cons s t a as).mp hr
    have hIu := hI s a u h0 hu
    have hiff := hok s a u h0 hg hu
    constructor
    · rintro ⟨hgood, hrest⟩
      have hgu := hgood u hu
      exact meets_cons hu (hiff.mpr hgu) ((ih hIu hgu hut).mp (hrest u hu))
    · rintro ⟨ha, hrest⟩
      have hgu := hiff.mp ha
      refine meets_cons hu ?_ ((ih hIu hgu hut).mpr (hrest u hu))
      intro v hv
      rw [hu] at hv
      cases hv
      exact hgu

/-- A program that takes every step that meets `ok`. -/
theorem exists_run_of_meets {ok : S → A → Prop} {I : S → Prop}
    (hstep : ∀ s a, I s → ok s a → ∃ t, step s a = some t ∧ I t) {s : S} {as : List A} (h0 : I s)
    (hm : Meets step ok s as) : ∃ t, run step s as = some t ∧ I t := by
  induction as generalizing s with
  | nil => exact ⟨s, rfl, h0⟩
  | cons a as ih =>
    obtain ⟨u, hu, hI⟩ := hstep s a h0 hm.1
    obtain ⟨t, ht, hIt⟩ := ih hI (hm.2 u hu)
    exact ⟨t, (run_cons ..).mpr ⟨u, hu, ht⟩, hIt⟩

/-- A program that has arrived, or can take a step that arrives or lowers its rank, can arrive. -/
theorem exists_run_of_rank {I goal : S → Prop} {ok : A → Prop} (rank : S → Nat)
    (hstep : ∀ s, I s → goal s ∨
      ∃ a t, ok a ∧ step s a = some t ∧ I t ∧ (goal t ∨ rank t < rank s)) {s : S} (h0 : I s) :
    ∃ as t, (∀ a ∈ as, ok a) ∧ run step s as = some t ∧ I t ∧ goal t := by
  induction hn : rank s using Nat.strong_induction_on generalizing s with
  | _ n ih =>
    rcases hstep s h0 with hgoal | ⟨a, u, ha, hu, hI, hgoal | hlt⟩
    · exact ⟨[], s, fun a ha => absurd ha List.not_mem_nil, rfl, h0, hgoal⟩
    · exact ⟨[a], u, by simpa using ha, run_single hu, hI, hgoal⟩
    · obtain ⟨as, t, has, ht, hIt, hgoal⟩ := ih (rank u) (hn ▸ hlt) hI rfl
      exact ⟨a :: as, t, List.forall_mem_cons.mpr ⟨ha, has⟩, (run_cons ..).mpr ⟨u, hu, ht⟩, hIt,
        hgoal⟩

/-- A program that answers each step of another one, as long as the steps meet `ok`. -/
theorem simulates_of_meets {S' : Type*} {g : S' → A → Option S'} {ok : S → A → Prop}
    {R : S → S' → Prop}
    (hstep : ∀ s s' a, R s s' → ok s a → ∃ t t', step s a = some t ∧ g s' a = some t' ∧ R t t')
    {s : S} {s' : S'} {as : List A} (h0 : R s s') (hm : Meets step ok s as) :
    ∃ t t', run step s as = some t ∧ run g s' as = some t' ∧ R t t' := by
  induction as generalizing s s' with
  | nil => exact ⟨s, s', rfl, rfl, h0⟩
  | cons a as ih =>
    obtain ⟨u, u', hu, hu', hR⟩ := hstep s s' a h0 hm.1
    obtain ⟨t, t', ht, ht', hRt⟩ := ih hR (hm.2 u hu)
    exact ⟨t, t', (run_cons ..).mpr ⟨u, hu, ht⟩, (run_cons ..).mpr ⟨u', hu', ht'⟩, hRt⟩

/-- A program that follows another one through `f`, step for step or standing still. `P` is what is
known of its actions; it stays known. -/
theorem exists_run_of_simulation {S' B : Type*} {g : S' → B → Option S'} {f : S → S'}
    {I : S → Prop} {P : S → B → Prop}
    (hstep : ∀ s a t, I s → step s a = some t →
      I t ∧ (f t = f s ∨ ∃ b, g (f s) b = some (f t) ∧ P t b) ∧ ∀ b, P s b → P t b)
    {s t : S} {as : List A} (h0 : I s) (hr : run step s as = some t) :
    (∃ bs, run g (f s) bs = some (f t) ∧ ∀ b ∈ bs, P t b) ∧ ∀ b, P s b → P t b := by
  induction as generalizing s with
  | nil =>
    rw [run, Option.some.injEq] at hr
    subst hr
    exact ⟨⟨[], rfl, fun b hb => absurd hb List.not_mem_nil⟩, fun _ => id⟩
  | cons a as ih =>
    obtain ⟨u, hu, hut⟩ := (run_cons s t a as).mp hr
    obtain ⟨hI, hmatch, hkeep⟩ := hstep s a u h0 hu
    obtain ⟨⟨bs, hbs, hP⟩, hlater⟩ := ih hI hut
    refine ⟨?_, fun b hb => hlater b (hkeep b hb)⟩
    rcases hmatch with hsame | ⟨b, hb, hPb⟩
    · rw [hsame] at hbs
      exact ⟨bs, hbs, hP⟩
    · refine ⟨b :: bs, (run_cons ..).mpr ⟨f u, hb, hbs⟩, ?_⟩
      intro c hc
      rcases List.mem_cons.mp hc with rfl | hc
      · exact hlater c hPb
      · exact hP c hc

/-! ## A program without choices -/

section
variable {next : S → Option S} {s t u : S}

/-- The program gets from a state to another one. -/
def Goes (next : S → Option S) : S → S → Prop := Relation.ReflTransGen fun s t => next s = some t

theorem goes_cons (h : next s = some t) (htu : Goes next t u) : Goes next s u := .head h htu

/-- A program that has got to its end passed every state that it can get to. -/
theorem Goes.of_ends (ht : Goes next s t) (hu : Goes next s u) (hend : next u = none) :
    Goes next t u := by
  have hunique : Relator.RightUnique fun s t => next s = some t := by
    intro a b c hb hc
    exact Option.some.inj (hb.symm.trans hc)
  rcases Relation.ReflTransGen.total_of_right_unique hunique ht hu with h | h
  · exact h
  · rcases Relation.ReflTransGen.cases_head h with rfl | ⟨v, hv, -⟩
    · exact .refl
    · rw [hend] at hv
      cases hv

/-- A program has one end. -/
theorem Goes.end_unique (ht : Goes next s t) (hu : Goes next s u) (htend : next t = none)
    (huend : next u = none) : t = u := by
  rcases Relation.ReflTransGen.cases_head (ht.of_ends hu huend) with h | ⟨v, hv, -⟩
  · exact h
  · rw [htend] at hv
    cases hv

/-- A program that comes back to a state has no end. -/
theorem Goes.not_ends (hu : Goes next s u) (ht : Goes next s t)
    (hback : Relation.TransGen (fun s t => next s = some t) t t) : next u ≠ none := by
  intro hend
  have hstays : ∀ v, Goes next t v → Relation.TransGen (fun s t => next s = some t) v t := by
    intro v hv
    induction hv with
    | refl => exact hback
    | @tail v w _ hw ih =>
      -- the one step from `v` leads to `w`
      obtain ⟨x, hx, hxt⟩ := Relation.TransGen.head'_iff.mp ih
      rw [hw, Option.some.injEq] at hx
      subst hx
      exact Relation.TransGen.trans_right hxt hback
  obtain ⟨v, hv, -⟩ := Relation.TransGen.head'_iff.mp (hstays u (ht.of_ends hu hend))
  rw [hend] at hv
  cases hv

end

end Transition
