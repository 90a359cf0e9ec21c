-- Owners of resources. A resource gets a number when it comes in, has one owner at
-- a time, and leaves by being released or by being given away. The rules here follow
-- the owners through the four operations, and say what is left when no owner is.
import Scicompute.Holding

open Holding

/-- `owned` is the resource of each owner with what the owner knows of it, `acquired` what is
known of resource `0`, `1`, and so on. -/
structure Ownership (H A : Type*) where
  owned : H → Option (ℕ × A)
  acquired : List A
  released : List (ℕ × A)
  detached : List (ℕ × A)

namespace Ownership

variable {H A : Type*}

def start : Ownership H A := ⟨fun _ => none, [], [], []⟩

section
variable [DecidableEq H]

/-- The owner takes in the next resource. -/
def acquire (o : Ownership H A) (h : H) (a : A) : Ownership H A :=
  { o with owned := Function.update o.owned h (some (o.acquired.length, a))
           acquired := o.acquired ++ [a] }

def release (o : Ownership H A) (h : H) : Ownership H A :=
  match o.owned h with
  | none => o
  | some x => { o with owned := Function.update o.owned h none, released := o.released ++ [x] }

/-- The owner `h` takes over what `k` has. -/
def move (o : Ownership H A) (h k : H) : Ownership H A :=
  { o with owned := Function.update (Function.update o.owned h (o.owned k)) k none }

/-- The owner gives its resource away. -/
def detach (o : Ownership H A) (h : H) : Ownership H A :=
  match o.owned h with
  | none => o
  | some x => { o with owned := Function.update o.owned h none, detached := o.detached ++ [x] }

end

/-! ## What the operations preserve -/

/-- Where a resource is. -/
inductive Place (H : Type*)
  | owner (h : H)
  | released
  | detached

def ids (x : Option (ℕ × A)) : List ℕ := (x.map Prod.fst).toList

def holds (o : Ownership H A) : Place H → List ℕ
  | .owner h => ids (o.owned h)
  | .released => o.released.map Prod.fst
  | .detached => o.detached.map Prod.fst

/-- Each resource is in one place, and what is known of it is right. -/
structure Accounted (o : Ownership H A) : Prop where
  numbered : Numbered o.holds o.acquired.length
  owned : ∀ h x, o.owned h = some x → o.acquired[x.1]? = some x.2
  released : ∀ x ∈ o.released, o.acquired[x.1]? = some x.2
  detached : ∀ x ∈ o.detached, o.acquired[x.1]? = some x.2

/-- No two owners have resources with the same key. -/
def Distinct {K : Type*} (o : Ownership H A) (key : A → K) : Prop :=
  ∀ h k x y, o.owned h = some x → o.owned k = some y → key x.2 = key y.2 → h = k

variable {o : Ownership H A}

theorem accounted_start : (start : Ownership H A).Accounted where
  numbered := numbered_zero (fun k => by cases k <;> rfl)
  owned h x hx := by cases hx
  released x hx := by cases hx
  detached x hx := by cases hx

theorem getElem?_append_of_some {l : List A} {n : ℕ} {a : A} (h : l[n]? = some a) (b : A) :
    (l ++ [b])[n]? = some a := by
  rw [List.getElem?_append_left (List.getElem?_eq_some_iff.mp h).1]
  exact h

variable [DecidableEq H]

theorem Accounted.acquire (ho : o.Accounted) {h : H} (hfree : o.owned h = none) (a : A) :
    (o.acquire h a).Accounted where
  numbered := by
    rw [show (o.acquire h a).acquired.length = o.acquired.length + 1 by
      simp [Ownership.acquire]]
    apply ho.numbered.add (a := .owner h)
    · simp [holds, Ownership.acquire, ids, hfree]
    · intro k hk
      cases k with
      | owner k =>
        have hkh : k ≠ h := fun e => hk (e ▸ rfl)
        simp [holds, Ownership.acquire, hkh]
      | _ => rfl
  owned := by
    intro k x hx
    simp only [Ownership.acquire] at hx ⊢
    by_cases hk : k = h
    · subst hk
      rw [Function.update_self, Option.some.injEq] at hx
      subst hx
      simp
    · rw [Function.update_of_ne hk] at hx
      exact getElem?_append_of_some (ho.owned k x hx) a
  released := fun x hx => getElem?_append_of_some (ho.released x hx) a
  detached := fun x hx => getElem?_append_of_some (ho.detached x hx) a

theorem owned_release {h k : H} {x : ℕ × A} (hx : (o.release h).owned k = some x) :
    o.owned k = some x := by
  unfold Ownership.release at hx
  split at hx
  · exact hx
  · simp only [Function.update_apply] at hx
    split_ifs at hx
    exact hx

theorem owned_detach {h k : H} {x : ℕ × A} (hx : (o.detach h).owned k = some x) :
    o.owned k = some x := by
  unfold Ownership.detach at hx
  split at hx
  · exact hx
  · simp only [Function.update_apply] at hx
    split_ifs at hx
    exact hx

theorem Accounted.release (ho : o.Accounted) (h : H) : (o.release h).Accounted := by
  have howned : ∀ k x, (o.release h).owned k = some x → o.acquired[x.1]? = some x.2 :=
    fun k x hx => ho.owned k x (owned_release hx)
  unfold Ownership.release at howned ⊢
  cases hx : o.owned h with
  | none => exact ho
  | some x =>
    rw [hx] at howned
    refine ⟨?_, howned, ?_, ho.detached⟩
    · apply ho.numbered.move (a := .owner h) (b := .released) (x := x.1) (by simp)
      · simp [holds, ids, hx]
      · simp only [holds, List.map_append, List.map_cons, List.map_nil]
        exact List.perm_append_comm
      · intro k hk hk'
        cases k with
        | owner k =>
          have hkh : k ≠ h := fun e => hk (e ▸ rfl)
          simp [holds, hkh]
        | released => exact absurd rfl hk'
        | detached => rfl
    · intro y hy
      rcases List.mem_append.mp hy with hy | hy
      · exact ho.released y hy
      · rw [List.mem_singleton.mp hy]
        exact ho.owned h x hx

theorem Accounted.detach (ho : o.Accounted) (h : H) : (o.detach h).Accounted := by
  have howned : ∀ k x, (o.detach h).owned k = some x → o.acquired[x.1]? = some x.2 :=
    fun k x hx => ho.owned k x (owned_detach hx)
  unfold Ownership.detach at howned ⊢
  cases hx : o.owned h with
  | none => exact ho
  | some x =>
    rw [hx] at howned
    refine ⟨?_, howned, ho.released, ?_⟩
    · apply ho.numbered.move (a := .owner h) (b := .detached) (x := x.1) (by simp)
      · simp [holds, ids, hx]
      · simp only [holds, List.map_append, List.map_cons, List.map_nil]
        exact List.perm_append_comm
      · intro k hk hk'
        cases k with
        | owner k =>
          have hkh : k ≠ h := fun e => hk (e ▸ rfl)
          simp [holds, hkh]
        | released => rfl
        | detached => exact absurd rfl hk'
    · intro y hy
      rcases List.mem_append.mp hy with hy | hy
      · exact ho.detached y hy
      · rw [List.mem_singleton.mp hy]
        exact ho.owned h x hx

theorem owned_move {h k j : H} {x : ℕ × A} (hx : (o.move h k).owned j = some x) :
    (j = h ∧ o.owned k = some x) ∨ (j ≠ k ∧ o.owned j = some x) := by
  simp only [Ownership.move, Function.update_apply] at hx
  split_ifs at hx with hjk hjh
  · exact Or.inl ⟨hjh, hx⟩
  · exact Or.inr ⟨hjk, hx⟩

theorem Accounted.move (ho : o.Accounted) {h k : H} (hfree : o.owned h = none) (hne : h ≠ k) :
    (o.move h k).Accounted where
  numbered := by
    cases hx : o.owned k with
    | none =>
      have hsame : o.move h k = o := by
        unfold Ownership.move
        rw [hx, ← hfree, Function.update_eq_self, hfree, ← hx, Function.update_eq_self]
      rw [hsame]
      exact ho.numbered
    | some x =>
      apply ho.numbered.move (a := .owner k) (b := .owner h) (x := x.1) (by simpa using hne.symm)
      · simp [holds, Ownership.move, ids, hx]
      · simp [holds, Ownership.move, ids, hx, hfree, Function.update_of_ne hne]
      · intro j hj hj'
        cases j with
        | owner j =>
          have hjk : j ≠ k := fun e => hj (e ▸ rfl)
          have hjh : j ≠ h := fun e => hj' (e ▸ rfl)
          simp [holds, Ownership.move, hjk, hjh]
        | _ => rfl
  owned := by
    intro j x hx
    rcases owned_move hx with ⟨-, hx⟩ | ⟨-, hx⟩
    · exact ho.owned k x hx
    · exact ho.owned j x hx
  released := ho.released
  detached := ho.detached

/-! ## Keys -/

section
variable {K : Type*} {key : A → K}

omit [DecidableEq H] in
theorem distinct_start : (start : Ownership H A).Distinct key := by
  intro h k x y hx
  cases hx

omit [DecidableEq H] in
/-- Owners may give up what they have. -/
theorem Distinct.mono {o' : Ownership H A} (ho : o.Distinct key)
    (hsub : ∀ h x, o'.owned h = some x → o.owned h = some x) : o'.Distinct key :=
  fun h k x y hx hy => ho h k x y (hsub h x hx) (hsub k y hy)

theorem Distinct.release (ho : o.Distinct key) (h : H) : (o.release h).Distinct key :=
  ho.mono (fun _ _ hx => owned_release hx)

theorem Distinct.detach (ho : o.Distinct key) (h : H) : (o.detach h).Distinct key :=
  ho.mono (fun _ _ hx => owned_detach hx)

theorem Distinct.move (ho : o.Distinct key) {h k : H} :
    (o.move h k).Distinct key := by
  intro i j x y hx hy hkey
  rcases owned_move hx with ⟨hi, hx'⟩ | ⟨hi, hx'⟩
  · rcases owned_move hy with ⟨hj, -⟩ | ⟨hj, hy'⟩
    · rw [hi, hj]
    · exact absurd (ho k j x y hx' hy' hkey).symm hj
  · rcases owned_move hy with ⟨-, hy'⟩ | ⟨-, hy'⟩
    · exact absurd (ho i k x y hx' hy' hkey) hi
    · exact ho i j x y hx' hy' hkey

/-- A resource comes in whose key no owner has. -/
theorem Distinct.acquire (ho : o.Distinct key) {h : H} {a : A}
    (hnew : ∀ k x, o.owned k = some x → key x.2 ≠ key a) : (o.acquire h a).Distinct key := by
  intro i j x y hx hy hkey
  simp only [Ownership.acquire, Function.update_apply] at hx hy
  split_ifs at hx hy with hi hj hj
  · rw [hi, hj]
  · cases hx
    exact absurd hkey.symm (hnew j y hy)
  · cases hy
    exact absurd hkey (hnew i x hx)
  · exact ho i j x y hx hy hkey

end

/-! ## Every resource is released once -/

omit [DecidableEq H] in
theorem Accounted.nodup_released (ho : o.Accounted) : (o.released.map Prod.fst).Nodup :=
  ho.numbered.apart.nodup .released

omit [DecidableEq H] in
theorem Accounted.not_released (ho : o.Accounted) {x y : ℕ × A} (hx : x ∈ o.detached)
    (hy : y ∈ o.released) : y.1 ≠ x.1 := by
  intro he
  have hd : x.1 ∈ o.holds .detached := List.mem_map_of_mem hx
  have hr : x.1 ∈ o.holds .released := by
    rw [← he]
    exact List.mem_map_of_mem hy
  cases ho.numbered.apart.unique hr hd

omit [DecidableEq H] in
/-- A resource with an owner was not released, nor given away. -/
theorem Accounted.not_mem_of_owned (ho : o.Accounted) {h : H} {x : ℕ × A}
    (hx : o.owned h = some x) : x ∉ o.released ∧ x ∉ o.detached := by
  have hown : x.1 ∈ o.holds (.owner h) := by
    simp [holds, ids, hx]
  constructor
  · intro hr
    have hr : x.1 ∈ o.holds .released := List.mem_map_of_mem hr
    cases ho.numbered.apart.unique hown hr
  · intro hd
    have hd : x.1 ∈ o.holds .detached := List.mem_map_of_mem hd
    cases ho.numbered.apart.unique hown hd

omit [DecidableEq H] in
/-- Without owners, a resource that was not given away has been released. -/
theorem Accounted.mem_released (ho : o.Accounted) (hnone : ∀ h, o.owned h = none) {n : ℕ} {a : A}
    (ha : o.acquired[n]? = some a) (hn : (n, a) ∉ o.detached) : (n, a) ∈ o.released := by
  obtain ⟨hlt, -⟩ := List.getElem?_eq_some_iff.mp ha
  obtain ⟨k, hk⟩ := (ho.numbered.mem_iff n).mpr hlt
  have hsame : ∀ x : ℕ × A, x.1 = n → o.acquired[x.1]? = some x.2 → x = (n, a) := by
    rintro ⟨m, b⟩ rfl hb
    rw [ha, Option.some.injEq] at hb
    rw [hb]
  cases k with
  | owner h => simp [holds, hnone, ids] at hk
  | detached =>
    obtain ⟨x, hx, hxn⟩ := List.mem_map.mp hk
    rw [hsame x hxn (ho.detached x hx)] at hx
    exact absurd hx hn
  | released =>
    obtain ⟨x, hx, hxn⟩ := List.mem_map.mp hk
    rw [hsame x hxn (ho.released x hx)] at hx
    exact hx

end Ownership
