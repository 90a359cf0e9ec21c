-- Work queues: tasks are numbered in the order in which they are pushed, and workers take them from
-- the front of the queue and finish them in any order.
import Scicompute.Transition

open Transition

namespace WorkQueue

/-- `held` is the task that a worker has taken and not finished, and `finished` lists the other ones
that were taken, the last one first. -/
structure State where
  queue : List Nat
  held : Nat → Option Nat
  finished : List Nat
  accepted : Nat

inductive Action
  | push
  | take (w : Nat)
  | finish (w : Nat)

def start : State where
  queue := []
  held _ := none
  finished := []
  accepted := 0

def step (s : State) : Action → Option State
  | .push => some { s with queue := s.queue ++ [s.accepted], accepted := s.accepted + 1 }
  | .take w =>
    match s.held w, s.queue with
    | none, task :: queue =>
      some { s with queue := queue, held := Function.update s.held w (some task) }
    | _, _ => none
  | .finish w =>
    match s.held w with
    | some task =>
      some { s with held := Function.update s.held w none, finished := task :: s.finished }
    | none => none

/-- The action is one of the first `n` workers, or a push. -/
def Action.By (n : Nat) : Action → Prop
  | .push => True
  | .take w => w < n
  | .finish w => w < n

theorem Action.By.mono {n m : Nat} (h : n ≤ m) {a : Action} (ha : a.By n) : a.By m := by
  cases a with
  | push => trivial
  | take w => exact lt_of_lt_of_le ha h
  | finish w => exact lt_of_lt_of_le ha h

/-- The number of the tasks that were taken. -/
def State.taken (s : State) : Nat := s.accepted - s.queue.length

variable {s t : State} {a : Action} {n : Nat}

/-! ## Tasks are taken in order -/

/-- The tasks below `taken` were taken, and the others are queued in order. -/
structure InOrder (s : State) : Prop where
  le : s.queue.length ≤ s.accepted
  queue : s.queue = List.range' s.taken s.queue.length
  lt_iff : ∀ task, task < s.taken ↔ task ∈ s.finished ∨ ∃ w, s.held w = some task

theorem inOrder_start : InOrder start := by
  refine ⟨Nat.le_refl 0, rfl, ?_⟩
  intro task
  simp [start, State.taken]

theorem held_update {w : Nat} (hw : s.held w = none) (x task : Nat) :
    (∃ v, Function.update s.held w (some x) v = some task) ↔
      task = x ∨ ∃ v, s.held v = some task := by
  constructor
  · rintro ⟨v, hv⟩
    by_cases hvw : v = w
    · subst hvw
      rw [Function.update_self, Option.some.injEq] at hv
      exact Or.inl hv.symm
    · rw [Function.update_of_ne hvw] at hv
      exact Or.inr ⟨v, hv⟩
  · rintro (rfl | ⟨v, hv⟩)
    · exact ⟨w, Function.update_self ..⟩
    · refine ⟨v, ?_⟩
      rw [Function.update_of_ne]
      · exact hv
      · rintro rfl
        rw [hw] at hv
        cases hv

/-- A finished task leaves its worker. -/
theorem held_clear {w x : Nat} (hw : s.held w = some x) (task : Nat) :
    (task = x ∨ ∃ v, Function.update s.held w none v = some task) ↔
      task = x ∨ ∃ v, s.held v = some task := by
  apply or_congr_right'
  intro hne
  constructor
  · rintro ⟨v, hv⟩
    by_cases hvw : v = w
    · subst hvw
      rw [Function.update_self] at hv
      cases hv
    · rw [Function.update_of_ne hvw] at hv
      exact ⟨v, hv⟩
  · rintro ⟨v, hv⟩
    refine ⟨v, ?_⟩
    rw [Function.update_of_ne]
    · exact hv
    · rintro rfl
      rw [hw, Option.some.injEq] at hv
      exact hne hv.symm

/-- The task at the front is the next one, and the rest of the queue follows it. -/
theorem InOrder.front (h : InOrder s) {task : Nat} {queue : List Nat}
    (hq : s.queue = task :: queue) : task = s.taken ∧ s.accepted - queue.length = task + 1 ∧
      queue = List.range' (task + 1) queue.length := by
  have hqueue := h.queue
  have hle := h.le
  have htaken : s.taken = s.accepted - (queue.length + 1) := by
    rw [State.taken, hq, List.length_cons]
  rw [hq, List.length_cons, List.range'_succ, List.cons.injEq] at hqueue
  rw [hq, List.length_cons] at hle
  obtain ⟨htask, hrest⟩ := hqueue
  refine ⟨htask, ?_, by rw [htask]; exact hrest⟩
  rw [htask, htaken]
  omega

theorem State.taken_push (s : State) :
    (s.accepted + 1) - (s.queue ++ [s.accepted]).length = s.taken := by
  rw [List.length_append, List.length_singleton, Nat.add_sub_add_right, State.taken]

theorem InOrder.step (h : InOrder s) (hs : step s a = some t) : InOrder t := by
  cases a with
  | push =>
    cases hs
    have htaken := s.taken_push
    refine ⟨?_, ?_, ?_⟩
    · rw [List.length_append, List.length_singleton]
      exact Nat.succ_le_succ h.le
    · have hlast : s.taken + s.queue.length = s.accepted := Nat.sub_add_cancel h.le
      rw [State.taken, htaken, List.length_append, List.length_singleton, List.range'_1_concat,
        hlast, ← h.queue]
    · rw [State.taken, htaken]
      exact h.lt_iff
  | take w =>
    simp only [WorkQueue.step] at hs
    split at hs
    · rename_i task queue hw hq
      cases hs
      obtain ⟨htask, htaken, hqueue⟩ := h.front hq
      have hle := h.le
      rw [hq, List.length_cons] at hle
      refine ⟨Nat.le_of_succ_le hle, ?_, ?_⟩
      · rw [State.taken, htaken]
        exact hqueue
      · intro x
        rw [State.taken, htaken, held_update hw, or_left_comm, ← h.lt_iff, ← htask,
          Nat.lt_succ_iff_lt_or_eq, or_comm]
    · cases hs
  | finish w =>
    simp only [WorkQueue.step] at hs
    split at hs
    · rename_i task hw
      cases hs
      refine ⟨h.le, h.queue, ?_⟩
      intro x
      rw [List.mem_cons, or_right_comm, held_clear hw, or_right_comm, or_assoc, ← h.lt_iff x]
      constructor
      · exact Or.inr
      · rintro (rfl | hx)
        · exact (h.lt_iff x).mpr (Or.inr ⟨w, hw⟩)
        · exact hx
    · cases hs

/-! ## How many tasks are under way -/

/-- Only the first `n` workers hold tasks. -/
def HeldBy (s : State) (n : Nat) : Prop := ∀ w, n ≤ w → s.held w = none

theorem HeldBy.step (h : HeldBy s n) (ha : a.By n) (hs : step s a = some t) : HeldBy t n := by
  intro v hv
  cases a with
  | push =>
    cases hs
    exact h v hv
  | take w =>
    simp only [WorkQueue.step] at hs
    split at hs
    · cases hs
      have hne : v ≠ w := fun he => absurd ha (Nat.not_lt.mpr (he ▸ hv))
      simp only [Function.update_of_ne hne]
      exact h v hv
    · cases hs
  | finish w =>
    simp only [WorkQueue.step] at hs
    split at hs
    · cases hs
      have hne : v ≠ w := fun he => absurd ha (Nat.not_lt.mpr (he ▸ hv))
      simp only [Function.update_of_ne hne]
      exact h v hv
    · cases hs

/-- All but `n` of the tasks that were taken are finished. -/
theorem InOrder.le_finished (h : InOrder s) (hby : HeldBy s n) :
    s.taken ≤ s.finished.toFinset.card + n := by
  have hsub : Finset.range s.taken ⊆
      s.finished.toFinset ∪ (Finset.range n).image fun w => (s.held w).getD 0 := by
    intro task htask
    rw [Finset.mem_union, List.mem_toFinset, Finset.mem_image]
    refine ((h.lt_iff task).mp (Finset.mem_range.mp htask)).imp_right ?_
    rintro ⟨w, hw⟩
    refine ⟨w, ?_, by rw [hw, Option.getD_some]⟩
    by_contra hn
    rw [hby w (Nat.not_lt.mp fun hlt => hn (Finset.mem_range.mpr hlt))] at hw
    cases hw
  calc s.taken = (Finset.range s.taken).card := (Finset.card_range s.taken).symm
    _ ≤ _ := Finset.card_le_card hsub
    _ ≤ s.finished.toFinset.card + ((Finset.range n).image fun w => (s.held w).getD 0).card :=
      Finset.card_union_le _ _
    _ ≤ s.finished.toFinset.card + n :=
      Nat.add_le_add_left (Finset.card_image_le.trans_eq (Finset.card_range n)) _

/-! ## One worker -/

/-- The tasks are finished in order, and the one that is held comes next. -/
structure OneByOne (s : State) : Prop where
  finished : s.finished.reverse = List.range s.finished.length
  taken : s.taken = s.finished.length + (s.held 0).toList.length
  next : ∀ task, s.held 0 = some task → task = s.finished.length

theorem OneByOne.step (h : OneByOne s) (hin : InOrder s) (ha : a.By 1) (hs : step s a = some t) :
    OneByOne t := by
  cases a with
  | push =>
    cases hs
    refine ⟨h.finished, ?_, h.next⟩
    rw [State.taken, s.taken_push]
    exact h.taken
  | take w =>
    obtain rfl : w = 0 := Nat.lt_one_iff.mp ha
    simp only [WorkQueue.step] at hs
    split at hs
    · rename_i task queue hw hq
      cases hs
      obtain ⟨htask, htaken, -⟩ := hin.front hq
      have hlength : s.taken = s.finished.length := by
        rw [h.taken, hw]
        rfl
      refine ⟨h.finished, ?_, ?_⟩
      · simp only [State.taken, htaken, Function.update_self]
        rw [htask, hlength]
        rfl
      · intro x hx
        simp only [Function.update_self, Option.some.injEq] at hx
        rw [← hx, htask, hlength]
    · cases hs
  | finish w =>
    obtain rfl : w = 0 := Nat.lt_one_iff.mp ha
    simp only [WorkQueue.step] at hs
    split at hs
    · rename_i task hw
      cases hs
      have hnext := h.next task hw
      have htaken := h.taken
      rw [hw] at htaken
      refine ⟨?_, ?_, ?_⟩
      · rw [List.reverse_cons, h.finished, List.length_cons, List.range_succ, hnext]
      · simp only [Function.update_self, List.length_cons]
        exact htaken
      · intro x hx
        simp only [Function.update_self] at hx
        cases hx
    · cases hs

/-! ## Runs -/

/-- Tasks are taken in order, at most `n` of them are under way, and a single worker finishes them
in order. -/
structure Fifo (s : State) (n : Nat) : Prop where
  order : InOrder s
  busy : s.taken ≤ s.finished.toFinset.card + n
  one : n ≤ 1 → s.finished.reverse = List.range s.finished.length

/-- What `n` workers do in a work queue. -/
theorem fifo_of_run {as : List Action} (hby : ∀ a ∈ as, a.By n) (hr : run step start as = some s) :
    Fifo s n := by
  have hmeets : Meets step (fun _ a => a.By n) start as := meets_of_forall hby start
  have horder : InOrder s := invariant_of_run (fun _ _ _ h hs => h.step hs) inOrder_start hr
  have hheld : HeldBy s n := invariant_of_meets (I := fun s => HeldBy s n)
    (fun _ _ _ h ha hs => h.step ha hs) (fun _ _ => rfl) hmeets hr
  refine ⟨horder, horder.le_finished hheld, ?_⟩
  intro hn
  have hboth : InOrder s ∧ OneByOne s := by
    refine invariant_of_meets (I := fun s => InOrder s ∧ OneByOne s)
      (fun _ _ _ h ha hs => ⟨h.1.step hs, h.2.step h.1 (ha.mono hn) hs⟩) ?_ hmeets hr
    refine ⟨inOrder_start, rfl, rfl, ?_⟩
    intro task htask
    cases htask
  exact hboth.2.finished

end WorkQueue
