-- Sections of actions on a shared state. Threads that perform their sections one after the other
-- leave the state that the sections lead to in this order, whatever was going on in between.
import Mathlib.Data.List.Basic

namespace CriticalSections

variable {T A S : Type*}

def perform (act : A → S → S) (actions : List A) (s : S) : S :=
  actions.foldl (fun s a => act a s) s

/-- Whole sections, in the order in which they were entered. -/
def performAll (act : A → S → S) (entered : List (T × List A)) (s : S) : S :=
  entered.foldl (fun s x => perform act x.2 s) s

/-- The thread `t` has performed its section but for `todo`, and all sections before it are done. -/
def AtWork (act : A → S → S) (init : S) (entered : List (T × List A)) (t : T) (todo : List A)
    (s : S) : Prop :=
  ∃ before done, entered = before ++ [(t, done ++ todo)] ∧
    s = perform act done (performAll act before init)

/-- The sections of one thread. -/
def sectionsOf [DecidableEq T] (t : T) (entered : List (T × List A)) : List (List A) :=
  (entered.filter (·.1 = t)).map Prod.snd

variable {act : A → S → S} {init s : S} {entered : List (T × List A)} {t u : T}
  {a : A} {todo : List A}

theorem AtWork.enter (hs : s = performAll act entered init) (t : T) (todo : List A) :
    AtWork act init (entered ++ [(t, todo)]) t todo s :=
  ⟨entered, [], rfl, hs⟩

theorem AtWork.next (h : AtWork act init entered t (a :: todo) s) :
    AtWork act init entered t todo (act a s) := by
  obtain ⟨before, done, rfl, rfl⟩ := h
  refine ⟨before, done ++ [a], ?_, ?_⟩
  · rw [List.append_assoc, List.singleton_append]
  · unfold perform
    rw [List.foldl_concat]

theorem AtWork.leave (h : AtWork act init entered t [] s) : s = performAll act entered init := by
  obtain ⟨before, done, rfl, rfl⟩ := h
  unfold performAll
  rw [List.foldl_concat, List.append_nil]

theorem sectionsOf_enter [DecidableEq T] (t u : T) (entered : List (T × List A)) (todo : List A) :
    sectionsOf u (entered ++ [(t, todo)]) =
      sectionsOf u entered ++ if t = u then [todo] else [] := by
  unfold sectionsOf
  rw [List.filter_append, List.map_append]
  split_ifs with h
  · simp [h]
  · simp [h]

end CriticalSections
