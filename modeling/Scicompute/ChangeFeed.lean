-- Items that are put in and taken out, and observers that are told of every change. An observer
-- that knows the items when it comes can tell what they are from what it is told.
import Mathlib.Algebra.Order.Group.Multiset
import Scicompute.Transition

open Transition

namespace ChangeFeed

/-- What an observer is told. -/
inductive Change (D : Type*)
  | added (item : D)
  | removed (item : D)

variable {D : Type*} [DecidableEq D]

/-- An item is removed once where it is there several times, and cannot be removed where it is
not. -/
def apply (items : Multiset D) : Change D → Option (Multiset D)
  | .added item => some (item ::ₘ items)
  | .removed item => if item ∈ items then some (items.erase item) else none

structure Observer (D : Type*) where
  known : Multiset D
  seen : List (Change D)

def Observer.tell (o : Observer D) (change : Change D) : Observer D :=
  { o with seen := o.seen ++ [change] }

/-- The changes since the observer came lead from what it knew to the items. -/
def UpToDate (items : Multiset D) (o : Observer D) : Prop := run apply o.known o.seen = some items

variable {items items' : Multiset D} {o : Observer D} {change : Change D} {item : D}

theorem upToDate_of_known (items : Multiset D) : UpToDate items ⟨items, []⟩ := rfl

theorem UpToDate.tell (h : UpToDate items o) (hc : apply items change = some items') :
    UpToDate items' (o.tell change) :=
  run_append h (run_single hc)

theorem apply_removed (h : items = item ::ₘ items') :
    apply items (.removed item) = some items' := by
  subst h
  simp only [apply]
  rw [if_pos (Multiset.mem_cons_self item items'), Multiset.erase_cons_head]

end ChangeFeed
