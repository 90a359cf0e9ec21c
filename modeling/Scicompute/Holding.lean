-- Items and the holders that they are with. Nothing is held twice when no holder
-- lists an item twice and no two holders list the same one; the rules here follow
-- that through an item that is handed over, taken in or given up. When the items
-- are numbered as they come, and none is given up, each of them has one holder.
import Mathlib

namespace Holding

variable {H X : Type*} {holds holds' : H → List X}

/-- No item is held twice. -/
structure Apart (holds : H → List X) : Prop where
  nodup : ∀ h, (holds h).Nodup
  unique : ∀ {h k x}, x ∈ holds h → x ∈ holds k → h = k

/-- Holders may give items up. -/
theorem Apart.subperm (h : Apart holds) (hsub : ∀ k, (holds' k).Subperm (holds k)) :
    Apart holds' where
  nodup k := by
    obtain ⟨l, hp, hs⟩ := hsub k
    exact hp.nodup_iff.mp ((h.nodup k).sublist hs)
  unique hx hy := h.unique ((hsub _).subset hx) ((hsub _).subset hy)

/-- A holder takes in items that no one holds. -/
theorem Apart.addAll (h : Apart holds) {a : H} {xs : List X} (hxs : xs.Nodup)
    (hnew : ∀ x ∈ xs, ∀ k, x ∉ holds k) (ha : (holds' a).Perm (xs ++ holds a))
    (hother : ∀ k, k ≠ a → holds' k = holds k) : Apart holds' := by
  have hmem : ∀ k y, y ∈ holds' k → (k = a ∧ y ∈ xs) ∨ y ∈ holds k := by
    intro k y hy
    by_cases hk : k = a
    · subst hk
      exact (List.mem_append.mp (ha.mem_iff.mp hy)).imp (fun hx => ⟨rfl, hx⟩) id
    · rw [hother k hk] at hy
      exact Or.inr hy
  constructor
  · intro k
    by_cases hk : k = a
    · rw [hk, ha.nodup_iff, List.nodup_append]
      refine ⟨hxs, h.nodup a, ?_⟩
      rintro x hx y hy rfl
      exact hnew x hx a hy
    · rw [hother k hk]
      exact h.nodup k
  · intro j k y hj hk
    rcases hmem j y hj with ⟨rfl, hjx⟩ | hj
    · rcases hmem k y hk with ⟨rfl, -⟩ | hk
      · rfl
      · exact absurd hk (hnew y hjx k)
    · rcases hmem k y hk with ⟨-, hkx⟩ | hk
      · exact absurd hj (hnew y hkx j)
      · exact h.unique hj hk

/-- A holder takes in one item that no one holds. -/
theorem Apart.add (h : Apart holds) {a : H} {x : X} (hx : ∀ k, x ∉ holds k)
    (ha : (holds' a).Perm (x :: holds a)) (hother : ∀ k, k ≠ a → holds' k = holds k) :
    Apart holds' := by
  refine h.addAll (List.nodup_singleton x) ?_ ha hother
  intro y hy
  rw [List.mem_singleton.mp hy]
  exact hx

/-- A holder hands an item over to another one. -/
theorem Apart.move (h : Apart holds) {a b : H} {x : X} (hab : a ≠ b)
    (ha : (holds a).Perm (x :: holds' a)) (hb : (holds' b).Perm (x :: holds b))
    (hother : ∀ k, k ≠ a → k ≠ b → holds' k = holds k) : Apart holds' := by
  classical
  have hrest : (x :: holds' a).Nodup := ha.nodup_iff.mp (h.nodup a)
  have hxa : x ∈ holds a := ha.mem_iff.mpr (List.mem_cons_self ..)
  -- first the item is given up, and then it is taken in
  have hgiven : Apart (Function.update holds a (holds' a)) := by
    apply h.subperm
    intro k
    by_cases hk : k = a
    · rw [hk, Function.update_self]
      exact (List.sublist_cons_self _ _).subperm.trans ha.symm.subperm
    · rw [Function.update_of_ne hk]
  refine hgiven.add (a := b) (x := x) ?_ ?_ ?_
  · intro k hk
    by_cases hka : k = a
    · rw [hka, Function.update_self] at hk
      exact (List.nodup_cons.mp hrest).1 hk
    · rw [Function.update_of_ne hka] at hk
      exact hka (h.unique hk hxa)
  · rw [Function.update_of_ne hab.symm]
    exact hb
  · intro k hk
    by_cases hka : k = a
    · rw [hka, Function.update_self]
    · rw [Function.update_of_ne hka]
      exact hother k hka hk

/-- An item that is handed over is still held. -/
theorem exists_mem_move {a b : H} {x : X} (hab : a ≠ b)
    (ha : (holds a).Perm (x :: holds' a)) (hb : (holds' b).Perm (x :: holds b))
    (hother : ∀ k, k ≠ a → k ≠ b → holds' k = holds k) (y : X) :
    (∃ k, y ∈ holds' k) ↔ ∃ k, y ∈ holds k := by
  constructor
  · rintro ⟨k, hk⟩
    by_cases hka : k = a
    · subst hka
      exact ⟨k, ha.mem_iff.mpr (List.mem_cons_of_mem _ hk)⟩
    by_cases hkb : k = b
    · subst hkb
      rcases List.mem_cons.mp (hb.mem_iff.mp hk) with rfl | hk
      · exact ⟨a, ha.mem_iff.mpr (List.mem_cons_self ..)⟩
      · exact ⟨k, hk⟩
    · exact ⟨k, hother k hka hkb ▸ hk⟩
  · rintro ⟨k, hk⟩
    by_cases hka : k = a
    · subst hka
      rcases List.mem_cons.mp (ha.mem_iff.mp hk) with rfl | hk
      · exact ⟨b, hb.mem_iff.mpr (List.mem_cons_self ..)⟩
      · exact ⟨k, hk⟩
    by_cases hkb : k = b
    · subst hkb
      exact ⟨k, hb.mem_iff.mpr (List.mem_cons_of_mem _ hk)⟩
    · exact ⟨k, (hother k hka hkb).symm ▸ hk⟩

/-- An item that is taken in is held, with those that were. -/
theorem exists_mem_add {a : H} {x : X} (ha : (holds' a).Perm (x :: holds a))
    (hother : ∀ k, k ≠ a → holds' k = holds k) (y : X) :
    (∃ k, y ∈ holds' k) ↔ y = x ∨ ∃ k, y ∈ holds k := by
  constructor
  · rintro ⟨k, hk⟩
    by_cases hka : k = a
    · subst hka
      exact (List.mem_cons.mp (ha.mem_iff.mp hk)).imp_right fun hy => ⟨k, hy⟩
    · exact Or.inr ⟨k, hother k hka ▸ hk⟩
  · rintro (rfl | ⟨k, hk⟩)
    · exact ⟨a, ha.mem_iff.mpr (List.mem_cons_self ..)⟩
    · by_cases hka : k = a
      · subst hka
        exact ⟨k, ha.mem_iff.mpr (List.mem_cons_of_mem x hk)⟩
      · exact ⟨k, (hother k hka).symm ▸ hk⟩

/-- A holder gives up an item, which no one holds then. -/
theorem Apart.giveUp (h : Apart holds) {a : H} {x : X} (ha : (holds a).Perm (x :: holds' a))
    (hother : ∀ k, k ≠ a → holds' k = holds k) :
    Apart holds' ∧ ∀ y, (∃ k, y ∈ holds' k) ↔ y ≠ x ∧ ∃ k, y ∈ holds k := by
  have hsub : ∀ k, (holds' k).Subperm (holds k) := by
    intro k
    by_cases hk : k = a
    · rw [hk]
      exact (List.sublist_cons_self _ _).subperm.trans ha.symm.subperm
    · rw [hother k hk]
  have hrest : x ∉ holds' a := (List.nodup_cons.mp (ha.nodup_iff.mp (h.nodup a))).1
  have hxa : x ∈ holds a := ha.mem_iff.mpr (List.mem_cons_self ..)
  refine ⟨h.subperm hsub, ?_⟩
  intro y
  constructor
  · rintro ⟨k, hk⟩
    refine ⟨?_, k, (hsub k).subset hk⟩
    rintro rfl
    have hka := h.unique ((hsub k).subset hk) hxa
    subst hka
    exact hrest hk
  · rintro ⟨hne, k, hk⟩
    by_cases hka : k = a
    · subst hka
      exact ⟨k, (List.mem_cons.mp (ha.mem_iff.mp hk)).resolve_left hne⟩
    · exact ⟨k, (hother k hka).symm ▸ hk⟩

/-! ## Numbered items -/

/-- The items `0`, ..., `n - 1`, each with one holder. -/
structure Numbered (holds : H → List ℕ) (n : ℕ) : Prop where
  apart : Apart holds
  mem_iff : ∀ x, (∃ k, x ∈ holds k) ↔ x < n

variable {holds holds' : H → List ℕ} {n : ℕ}

theorem numbered_zero (h : ∀ k, holds k = []) : Numbered holds 0 where
  apart := ⟨fun k => by rw [h k]; exact List.nodup_nil, fun {k _ x} hx _ => by
    rw [h k] at hx
    cases hx⟩
  mem_iff x := by simp [h]

theorem Numbered.lt (h : Numbered holds n) {k : H} {x : ℕ} (hx : x ∈ holds k) : x < n :=
  (h.mem_iff x).mp ⟨k, hx⟩

/-- The next item comes in. -/
theorem Numbered.add (h : Numbered holds n) {a : H} (ha : (holds' a).Perm (n :: holds a))
    (hother : ∀ k, k ≠ a → holds' k = holds k) : Numbered holds' (n + 1) where
  apart := h.apart.add (fun _ hk => Nat.lt_irrefl n (h.lt hk)) ha hother
  mem_iff x := by
    constructor
    · rintro ⟨k, hk⟩
      by_cases hka : k = a
      · subst hka
        rcases List.mem_cons.mp (ha.mem_iff.mp hk) with rfl | hk
        · exact Nat.lt_succ_self x
        · exact Nat.lt_succ_of_lt (h.lt hk)
      · exact Nat.lt_succ_of_lt (h.lt (hother k hka ▸ hk))
    · intro hx
      rcases Nat.lt_succ_iff_lt_or_eq.mp hx with hx | rfl
      · obtain ⟨k, hk⟩ := (h.mem_iff x).mpr hx
        by_cases hka : k = a
        · subst hka
          exact ⟨k, ha.mem_iff.mpr (List.mem_cons_of_mem _ hk)⟩
        · exact ⟨k, (hother k hka).symm ▸ hk⟩
      · exact ⟨a, ha.mem_iff.mpr (List.mem_cons_self ..)⟩

theorem Numbered.move (h : Numbered holds n) {a b : H} {x : ℕ} (hab : a ≠ b)
    (ha : (holds a).Perm (x :: holds' a)) (hb : (holds' b).Perm (x :: holds b))
    (hother : ∀ k, k ≠ a → k ≠ b → holds' k = holds k) : Numbered holds' n where
  apart := h.apart.move hab ha hb hother
  mem_iff y := (exists_mem_move hab ha hb hother y).trans (h.mem_iff y)

end Holding
