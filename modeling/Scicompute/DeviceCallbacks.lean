-- The callbacks of a `DeviceManager` (include/device/device.hpp, src/device/device.cpp,
-- 173-207). A counter hands out the ids, and `RemoveCallback` takes an id for a position
-- of `callbacks_`: it is one while no callback with a smaller id has been removed.
import Scicompute.Transition
import Scicompute.Registry

open Transition

namespace sci

/-- The members for callbacks. A `DeviceId` is a number below `2^32`. `callbacks_` lists each
callback with its id, which the code does not store. -/
structure DeviceManager (C : Type*) where
  next_callback_id_ : Nat
  callbacks_ : List (Nat × C)

namespace DeviceManager

variable {C : Type*}

def start : DeviceManager C := ⟨1, []⟩

def AddCallback (m : DeviceManager C) (callback : C) : Nat × DeviceManager C :=
  let id := m.next_callback_id_
  (id,
    { next_callback_id_ := (id + 1) % 2 ^ 32
      callbacks_ := m.callbacks_ ++ [(id, callback)] })

/-- `none` stands for an erase past the end of `callbacks_`. -/
def RemoveCallback (m : DeviceManager C) (callback_id : Nat) :
    Option (Bool × DeviceManager C) :=
  if callback_id > 0 ∧ callback_id < m.next_callback_id_ then
    if callback_id - 1 < m.callbacks_.length then
      some (true, { m with callbacks_ := m.callbacks_.eraseIdx (callback_id - 1) })
    else none
  else some (false, m)

/-- The callbacks that are called, in order. -/
def NotifyDeviceEvent (m : DeviceManager C) : List C := m.callbacks_.map Prod.snd

inductive Call (C : Type*)
  | AddCallback (callback : C)
  | RemoveCallback (callback_id : Nat)
  | NotifyDeviceEvent

/-- What a call returns, or calls. -/
inductive Answer (C : Type*)
  | id (id : Nat)
  | ok (b : Bool)
  | called (callbacks : List C)
  deriving DecidableEq

def call (m : DeviceManager C) : Call C → Option (Answer C × DeviceManager C)
  | .AddCallback callback => some (.id (m.AddCallback callback).1, (m.AddCallback callback).2)
  | .RemoveCallback callback_id => (m.RemoveCallback callback_id).map fun r => (.ok r.1, r.2)
  | .NotifyDeviceEvent => some (.called m.NotifyDeviceEvent, m)

/-- A call of a session, which keeps the answers. -/
def callStep (s : DeviceManager C × List (Answer C)) (c : Call C) :
    Option (DeviceManager C × List (Answer C)) :=
  (s.1.call c).map fun r => (r.2, s.2 ++ [r.1])

/-! ## What the calls promise -/

/-- What the calls do to the callbacks that were added and not removed. -/
def registryCall (r : Registry C) : Call C → Answer C × Registry C
  | .AddCallback callback => (.id (r.added + 1), r.add callback)
  | .RemoveCallback callback_id => (.ok (r.holds callback_id), r.remove callback_id)
  | .NotifyDeviceEvent => (.called (r.live.map Prod.snd), r)

def registryStep (s : Registry C × List (Answer C)) (c : Call C) :
    Option (Registry C × List (Answer C)) :=
  some ((registryCall s.1 c).2, s.2 ++ [(registryCall s.1 c).1])

/-- The condition on a call: the counter does not wrap around, and an id that is given to
`RemoveCallback`, if it was handed out, is registered still, with all the ids before it. -/
def InOrder (m : DeviceManager C) : Call C → Prop
  | .AddCallback _ => m.next_callback_id_ + 1 < 2 ^ 32
  | .RemoveCallback callback_id => callback_id < m.next_callback_id_ →
      ∀ id ≤ callback_id, 0 < id → id ∈ m.callbacks_.map Prod.fst
  | .NotifyDeviceEvent => True

instance (m : DeviceManager C) : ∀ c, Decidable (m.InOrder c)
  | .AddCallback _ => inferInstanceAs (Decidable (m.next_callback_id_ + 1 < 2 ^ 32))
  | .RemoveCallback callback_id =>
    inferInstanceAs (Decidable (callback_id < m.next_callback_id_ →
      ∀ id ≤ callback_id, 0 < id → id ∈ m.callbacks_.map Prod.fst))
  | .NotifyDeviceEvent => isTrue trivial

/-- The manager keeps the callbacks of the registry. -/
structure Represents (m : DeviceManager C) (r : Registry C) : Prop where
  next : m.next_callback_id_ = r.added + 1
  callbacks : m.callbacks_ = r.live

variable {m : DeviceManager C} {r : Registry C}

theorem represents_start : (start : DeviceManager C).Represents .empty := ⟨rfl, rfl⟩

theorem Represents.addCallback (h : m.Represents r) (callback : C)
    (hnext : m.next_callback_id_ + 1 < 2 ^ 32) :
    (m.AddCallback callback).1 = r.added + 1 ∧
      (m.AddCallback callback).2.Represents (r.add callback) := by
  refine ⟨h.next, ?_, ?_⟩
  · simp only [AddCallback]
    rw [Nat.mod_eq_of_lt hnext, h.next]
    rfl
  · simp only [AddCallback, Registry.add]
    rw [h.callbacks, h.next]

/-- `RemoveCallback` removes the callback of its id, or nothing, exactly when the id was not handed
out or is registered still with all the ids before it. -/
theorem Represents.removeCallback_iff (h : m.Represents r) (callback_id : Nat) :
    (∃ m', m.RemoveCallback callback_id = some (r.holds callback_id, m') ∧
      m'.Represents (r.remove callback_id)) ↔ m.InOrder (.RemoveCallback callback_id) := by
  have hupTo : m.InOrder (.RemoveCallback callback_id) ↔
      (callback_id < m.next_callback_id_ → r.UpTo callback_id) := by
    simp only [InOrder, Registry.UpTo, h.callbacks]
    exact ⟨fun hr hlt k h1 h2 => hr hlt k h2 h1, fun hr hlt k h1 h2 => hr hlt k h2 h1⟩
  rw [hupTo]
  by_cases hid : callback_id > 0 ∧ callback_id < m.next_callback_id_
  · obtain ⟨hpos, hlt⟩ := hid
    constructor
    · rintro ⟨m', hremove, hrep⟩ -
      rw [RemoveCallback, if_pos ⟨hpos, hlt⟩] at hremove
      split_ifs at hremove with hlen
      simp only [Option.some.injEq, Prod.mk.injEq] at hremove
      obtain ⟨-, rfl⟩ := hremove
      have herase := hrep.callbacks
      simp only [h.callbacks] at herase hlen
      exact (Registry.eraseIdx_eq_remove_iff hpos hlen).mp herase
    · intro hall
      obtain ⟨hlen, -⟩ := Registry.getElem_of_upTo hpos (hall hlt)
      have hholds : r.holds callback_id = true :=
        decide_eq_true (hall hlt callback_id hpos (Nat.le_refl _))
      refine ⟨{ m with callbacks_ := m.callbacks_.eraseIdx (callback_id - 1) }, ?_, h.next, ?_⟩
      · rw [RemoveCallback, if_pos ⟨hpos, hlt⟩, if_pos (h.callbacks ▸ hlen), hholds]
      · simp only [h.callbacks]
        exact (Registry.eraseIdx_eq_remove_iff hpos hlen).mpr (hall hlt)
  · -- an id that was not handed out is not registered
    have hnot : callback_id ∉ r.live.map Prod.fst := by
      intro hmem
      have hrange := r.range callback_id hmem
      have hnext := h.next
      omega
    constructor
    · intro _ hlt k hk hk'
      omega
    · intro _
      refine ⟨m, ?_, by rw [Registry.remove_of_not_mem hnot]; exact h⟩
      rw [RemoveCallback, if_neg hid, Registry.holds, decide_eq_false hnot]

theorem Represents.call (h : m.Represents r) (c : Call C) (hok : m.InOrder c) :
    ∃ m', m.call c = some ((registryCall r c).1, m') ∧ m'.Represents (registryCall r c).2 := by
  cases c with
  | AddCallback callback =>
    obtain ⟨hid, hrep⟩ := h.addCallback callback hok
    exact ⟨_, by simp [DeviceManager.call, registryCall, hid], hrep⟩
  | RemoveCallback callback_id =>
    obtain ⟨m', hremove, hrep⟩ := (h.removeCallback_iff callback_id).mpr hok
    exact ⟨m', by simp [DeviceManager.call, hremove, registryCall], hrep⟩
  | NotifyDeviceEvent =>
    exact ⟨m, by simp [DeviceManager.call, NotifyDeviceEvent, registryCall, h.callbacks], h⟩

/-! ## Sessions -/

/-- Two sessions with the same answers. -/
def Agrees (s : DeviceManager C × List (Answer C)) (t : Registry C × List (Answer C)) : Prop :=
  s.1.Represents t.1 ∧ s.2 = t.2

theorem Agrees.callStep {s : DeviceManager C × List (Answer C)} {t : Registry C × List (Answer C)}
    (h : Agrees s t) (c : Call C) (hok : s.1.InOrder c) :
    ∃ s' t', DeviceManager.callStep s c = some s' ∧ registryStep t c = some t' ∧ Agrees s' t' := by
  obtain ⟨m', hcall, hm'⟩ := h.1.call c hok
  refine ⟨(m', s.2 ++ [(registryCall t.1 c).1]), _, ?_, rfl, hm', ?_⟩
  · simp [DeviceManager.callStep, hcall]
  · simp only [h.2]

/-- In every session whose calls meet the condition, `RemoveCallback` removes the callback of its id
and says whether there was one, nothing is erased past the end, and a notification calls the
callbacks that were added and not removed. -/
theorem callbacks_are_those_added_and_not_removed_while_ids_are_in_order {calls : List (Call C)}
    (hm : Meets callStep (fun s c => s.1.InOrder c) (start, []) calls) :
    ∃ (m : DeviceManager C) (r : Registry C) (answers : List (Answer C)),
      run callStep (start, []) calls = some (m, answers) ∧
      run registryStep (.empty, []) calls = some (r, answers) ∧
      m.callbacks_ = r.live := by
  have h0 : Agrees (start, []) ((.empty, []) : Registry C × List (Answer C)) :=
    ⟨represents_start, rfl⟩
  obtain ⟨⟨m, answers⟩, ⟨r, answers'⟩, hrun, hrun', hrep, hsame⟩ :=
    simulates_of_meets (R := Agrees) (fun s t c h hok => h.callStep c hok) h0 hm
  change answers = answers' at hsame
  subst hsame
  exact ⟨m, r, answers, hrun, hrun', hrep.callbacks⟩

/-- The last callback is removed twice, if its id was not handed out again. -/
def lastCalls : List (Call Char) :=
  [.AddCallback 'a', .AddCallback 'b', .RemoveCallback 3, .RemoveCallback 0, .RemoveCallback 2,
    .AddCallback 'c', .NotifyDeviceEvent]

theorem last_callback_is_removed : ∃ (m : DeviceManager Char) (r : Registry Char)
    (answers : List (Answer Char)), run callStep (start, []) lastCalls = some (m, answers) ∧
      run registryStep (.empty, []) lastCalls = some (r, answers) ∧ m.callbacks_ = r.live :=
  callbacks_are_those_added_and_not_removed_while_ids_are_in_order (by decide +kernel)

/-- After the first callback is removed, the id of the second one is not its position. -/
def shiftedCalls : List (Call Char) :=
  [.AddCallback 'a', .AddCallback 'b', .AddCallback 'c', .RemoveCallback 1, .RemoveCallback 2,
    .NotifyDeviceEvent]

theorem another_callback_is_removed :
    (run callStep ((start : DeviceManager Char), []) shiftedCalls).map Prod.snd =
      some [.id 1, .id 2, .id 3, .ok true, .ok true, .called ['b']] ∧
    (run registryStep ((.empty : Registry Char), []) shiftedCalls).map Prod.snd =
      some [.id 1, .id 2, .id 3, .ok true, .ok true, .called ['c']] ∧
    run callStep ((start : DeviceManager Char), [])
      [.AddCallback 'a', .RemoveCallback 1, .RemoveCallback 1] = none := by
  refine ⟨?_, ?_, ?_⟩
  · decide +kernel
  · decide +kernel
  · rfl

end DeviceManager

end sci
