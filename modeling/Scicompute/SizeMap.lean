-- Finite maps to sizes, and the sum of the sizes of their entries.
import Mathlib

namespace SizeMap

variable {K M : Type*}

def total [AddCommMonoid M] (m : AList fun _ : K => M) : M := (m.entries.map Sigma.snd).sum

/-- The number of entries. -/
def card (m : AList fun _ : K => M) : Nat := m.entries.length

@[simp]
theorem card_empty : card (∅ : AList fun _ : K => M) = 0 := rfl

@[simp]
theorem total_empty [AddCommMonoid M] : total (∅ : AList fun _ : K => M) = 0 := rfl

variable [DecidableEq K] {m : AList fun _ : K => M} {a : K} {n : M}

theorem card_insert (ha : a ∉ m) : card (m.insert a n) = card m + 1 := by
  rw [card, AList.entries_insert_of_notMem ha, List.length_cons, card]

theorem total_insert [AddCommMonoid M] (ha : a ∉ m) : total (m.insert a n) = n + total m := by
  rw [total, AList.entries_insert_of_notMem ha, List.map_cons, List.sum_cons, total]

/-- A map with an entry for `a` is the rest of it, with the entry. -/
theorem perm_erase (ha : m.lookup a = some n) :
    (⟨a, n⟩ :: (m.erase a).entries).Perm m.entries := by
  have hnot : a ∉ m.erase a := fun h => (AList.mem_erase.mp h).1 rfl
  rw [← AList.entries_insert_of_notMem (b := n) hnot]
  apply List.lookup_ext ((m.erase a).insert a n).nodupKeys m.nodupKeys
  intro b k
  have hlookup : ((m.erase a).insert a n).lookup b = m.lookup b := by
    by_cases hb : b = a
    · subst hb
      rw [AList.lookup_insert, ha]
    · rw [AList.lookup_insert_ne hb, AList.lookup_erase_ne hb]
  exact iff_of_eq (congrArg (k ∈ ·) hlookup)

theorem card_erase (ha : m.lookup a = some n) : card (m.erase a) + 1 = card m := by
  have h := (perm_erase ha).length_eq
  rwa [List.length_cons] at h

theorem total_erase [AddCommMonoid M] (ha : m.lookup a = some n) :
    n + total (m.erase a) = total m := by
  have h := ((perm_erase ha).map Sigma.snd).sum_eq
  rwa [List.map_cons, List.sum_cons] at h

end SizeMap
