-- Queues of a bounded capacity, first in first out: what pushing and popping one item or
-- several does to the items that are held.
import Mathlib

/-- The items that a queue holds, the oldest one first. -/
structure BoundedFifo (T : Type*) where
  capacity : Nat
  held : List T
  fits : held.length ≤ capacity

namespace BoundedFifo

variable {T : Type*}

def empty (capacity : Nat) : BoundedFifo T := ⟨capacity, [], Nat.zero_le _⟩

/-- The number of items that there is room for. -/
def free (f : BoundedFifo T) : Nat := f.capacity - f.held.length

/-- The first items that there is room for are appended. -/
def append (f : BoundedFifo T) (items : List T) : BoundedFifo T where
  capacity := f.capacity
  held := f.held ++ items.take f.free
  fits := by
    have := f.fits
    rw [List.length_append, List.length_take, free]
    omega

def drop (f : BoundedFifo T) (count : Nat) : BoundedFifo T where
  capacity := f.capacity
  held := f.held.drop count
  fits := by
    have := f.fits
    rw [List.length_drop]
    omega

def push (f : BoundedFifo T) (item : T) : Bool × BoundedFifo T :=
  (decide (f.held.length < f.capacity), f.append [item])

def pop (f : BoundedFifo T) : Option T × BoundedFifo T := (f.held.head?, f.drop 1)

/-- The first `min items.length f.free` items are pushed. -/
def pushBatch (f : BoundedFifo T) (items : List T) : Nat × BoundedFifo T :=
  (min items.length f.free, f.append items)

/-- The oldest `min count f.held.length` items are popped. -/
def popBatch (f : BoundedFifo T) (count : Nat) : List T × BoundedFifo T :=
  (f.held.take count, f.drop count)

theorem free_pos_iff (f : BoundedFifo T) : 0 < f.free ↔ f.held.length < f.capacity := by
  rw [free]
  omega

theorem held_append_singleton {f : BoundedFifo T} (h : f.held.length < f.capacity) (item : T) :
    (f.append [item]).held = f.held ++ [item] := by
  change f.held ++ [item].take f.free = f.held ++ [item]
  rw [List.take_of_length_le (f.free_pos_iff.mpr h)]

theorem append_nil (f : BoundedFifo T) : f.append [] = f := by
  simp [append]

theorem append_of_full {f : BoundedFifo T} (h : f.free = 0) (items : List T) :
    f.append items = f := by
  simp [append, h]

/-- Items are appended one by one while there is room. -/
theorem append_cons {f : BoundedFifo T} (h : 0 < f.free) (item : T) (items : List T) :
    f.append (item :: items) = (f.append [item]).append items ∧
      (f.append [item]).free + 1 = f.free := by
  obtain ⟨n, hn⟩ : ∃ n, f.free = n + 1 := ⟨f.free - 1, by omega⟩
  have hfree : (f.append [item]).free = n := by
    simp only [free, append, List.length_append] at hn ⊢
    rw [hn]
    simp only [List.take_succ_cons, List.take_nil, List.length_singleton]
    omega
  constructor
  · unfold append
    simp only [mk.injEq, true_and]
    rw [show (⟨f.capacity, f.held ++ [item].take f.free, (f.append [item]).fits⟩ :
      BoundedFifo T).free = n from hfree, hn]
    simp
  · rw [hfree, hn]

theorem pop_of_empty {f : BoundedFifo T} (h : f.held = []) : f.pop = (none, f) := by
  cases f
  simp only at h
  subst h
  rfl

/-- Items are popped one by one while there are any. -/
theorem drop_succ (f : BoundedFifo T) (n : Nat) : (f.drop 1).drop n = f.drop (n + 1) := by
  simp [drop]

end BoundedFifo
