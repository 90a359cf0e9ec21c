-- `SizeApprox` of the two queues, called by a third thread (include/bridges/impl/ipc_queue_impl.hpp,
-- 142-148 and 262-266). It loads the two indices in two steps, in an order that the language
-- leaves open, and the other threads push and pop between them.
import Scicompute.MpscQueueCalls
import Scicompute.SpscQueueCalls
import Scicompute.SpscQueueRuns

open Word Transition

namespace sci.bridges

variable {ι T : Type*}

/-! ## The queue of one producer -/

namespace SPSCQueue

/-- Two indices of the ring give a size that is at most its capacity. -/
theorem size_of_le {q : SPSCQueue T} (hword : q.capacity_ < wordSize) {read write : Nat}
    (hread : read < q.capacity_) (hwrite : write < q.capacity_) :
    q.size_of read write ≤ q.capacity_ := by
  unfold size_of
  split_ifs with hle
  · rw [sub_of_le hle (by omega)]
    omega
  · rw [sub_of_le (a := read) (by omega) (by omega), sub_of_le (by omega) hword]
    omega

end SPSCQueue

namespace SPSCSystem

/-- The two indices are in the ring, in every state of a run. -/
theorem indices_of_run (q : SPSCQueue T) {c : Nat} (fresh : Nat → T) (hc : 1 ≤ c)
    (hword : c < wordSize) {as : List (SPSCAction T)} {s : SPSCSystem T}
    (hr : run step (start (q.Init c fresh).2) as = some s) :
    s.queue.capacity_ = c ∧ s.queue.read_idx_ < c ∧ s.queue.write_idx_ < c := by
  have h : Inv c s := invariant_of_run (fun _ a _ h hs => inv_step a h hword hs)
    (inv_start q hc fresh) hr
  rw [h.read, h.write]
  exact ⟨h.capacity, Nat.mod_lt _ hc, Nat.mod_lt _ hc⟩

end SPSCSystem

/-! ## The queue of many producers -/

/-- What `SizeApprox` makes of the two positions that it has loaded. -/
def MPSCQueue.size_of (enqueue dequeue : Nat) : Nat := sub enqueue dequeue

theorem MPSCQueue.SizeApprox_eq (q : MPSCQueue T) :
    q.SizeApprox = size_of q.enqueue_pos_ q.dequeue_pos_ := rfl

namespace MPSCSystem

variable [DecidableEq ι] {s t : MPSCSystem ι T}

theorem Inv.dequeue_bounds (hI : Inv s) :
    s.released ≤ s.queue.dequeue_pos_ ∧ s.queue.dequeue_pos_ ≤ s.won.length := by
  have hok := hI.consumer
  have hle := hI.released_le
  cases hc : s.consumer with
  | release item pos =>
    rw [hc] at hok
    obtain ⟨hdeq, -, hread⟩ := hok
    obtain ⟨k, hk, -⟩ := hread.1
    have hlt := (List.getElem?_eq_some_iff.mp hk).1
    omega
  | idle | load_pos =>
    rw [hc] at hok
    rw [show s.queue.dequeue_pos_ = s.released from hok]
    exact ⟨Nat.le_refl _, hle⟩
  | _ =>
    rw [hc] at hok
    rw [hok.1]
    exact ⟨Nat.le_refl _, hle⟩

/-- The position to dequeue moves on by one pop, or stays. -/
theorem dequeue_le_of_step (hI : Inv s) (hb : s.won.length < 2 ^ 63) {a : MPSCAction ι T}
    (hs : s.step a = some t) : s.queue.dequeue_pos_ ≤ t.queue.dequeue_pos_ := by
  cases a with
  | push p item =>
    simp only [step] at hs
    split at hs <;> cases hs
    exact Nat.le_refl _
  | producer p weak =>
    simp only [step, Push] at hs
    split at hs
    · cases hs
    all_goals first
      | (cases hs; exact Nat.le_refl _)
      | (split_ifs at hs <;> cases hs <;> exact Nat.le_refl _)
  | pop =>
    simp only [step] at hs
    split at hs <;> cases hs
    exact Nat.le_refl _
  | consumer =>
    have hok := hI.consumer
    simp only [step, Pop] at hs
    cases hc : s.consumer with
    | store_pos item pos =>
      rw [hc] at hs hok
      obtain ⟨hdeq, rfl, -⟩ := hok
      have hword := released_lt_of_inv hI hb
      cases hs
      change s.queue.dequeue_pos_ ≤ add s.released 1
      rw [add_of_lt hword]
      omega
    | idle =>
      rw [hc] at hs
      cases hs
    | _ =>
      rw [hc] at hs
      first
        | (cases hs; exact Nat.le_refl _)
        | (dsimp only at hs; split_ifs at hs <;> cases hs <;> exact Nat.le_refl _)

/-- Neither position moves back along a run. -/
theorem positions_le_of_run (hI : Inv s) {as : List (MPSCAction ι T)} (hr : run step s as = some t)
    (hb : t.won.length < 2 ^ 63) :
    Inv t ∧ s.queue.dequeue_pos_ ≤ t.queue.dequeue_pos_ ∧ s.won.length ≤ t.won.length := by
  have hmono : t.won.length < 2 ^ 63 →
      Inv t ∧ s.queue.dequeue_pos_ ≤ t.queue.dequeue_pos_ ∧ s.won.length ≤ t.won.length := by
    refine invariant_of_run (I := fun u => u.won.length < 2 ^ 63 →
      Inv u ∧ s.queue.dequeue_pos_ ≤ u.queue.dequeue_pos_ ∧ s.won.length ≤ u.won.length) ?_ ?_ hr
    · intro u a v hu hs hv
      have hle := (won_prefix_of_step hs).length_le
      obtain ⟨hIu, hdeq, hwon⟩ := hu (by omega)
      exact ⟨inv_step hIu (by omega) hs, hdeq.trans (dequeue_le_of_step hIu (by omega) hs),
        hwon.trans hle⟩
    · intro _
      exact ⟨hI, Nat.le_refl _, Nat.le_refl _⟩
  exact hmono hb

/-- The difference of a position to enqueue and a later position to dequeue. -/
theorem size_of_enqueue_first_iff {c : Nat} (hI : Inv s) (hcap : s.queue.pool_capacity_ = c)
    (hmem : c * 8 < wordSize) {as : List (MPSCAction ι T)} (hr : run step s as = some t)
    (hb : t.won.length < 2 ^ 63) :
    MPSCQueue.size_of s.queue.enqueue_pos_ t.queue.dequeue_pos_ ≤ c ↔
      t.queue.dequeue_pos_ - s.queue.dequeue_pos_ ≤
        s.queue.enqueue_pos_ - s.queue.dequeue_pos_ := by
  obtain ⟨hIt, hdeq, hwon⟩ := positions_le_of_run hI hr hb
  have hs := hI.dequeue_bounds
  have ht := hIt.dequeue_bounds
  have hcapacity := hI.le_capacity
  unfold MPSCQueue.size_of
  rw [hI.enqueue]
  unfold wordSize at hmem
  by_cases hle : t.queue.dequeue_pos_ ≤ s.won.length
  · rw [sub_of_le hle (by unfold wordSize; omega)]
    omega
  · rw [sub_of_lt (by omega) (by unfold wordSize; omega)]
    unfold wordSize
    omega

/-- The difference of a position to enqueue and an earlier position to dequeue. -/
theorem size_of_dequeue_first_iff {c : Nat} (hI : Inv s) (hcap : s.queue.pool_capacity_ = c)
    {as : List (MPSCAction ι T)} (hr : run step s as = some t) (hb : t.won.length < 2 ^ 63) :
    MPSCQueue.size_of t.queue.enqueue_pos_ s.queue.dequeue_pos_ ≤ c ↔
      t.queue.enqueue_pos_ - s.queue.enqueue_pos_ ≤
        c - (s.queue.enqueue_pos_ - s.queue.dequeue_pos_) := by
  obtain ⟨hIt, hdeq, hwon⟩ := positions_le_of_run hI hr hb
  have hs := hI.dequeue_bounds
  have hcapacity := hI.le_capacity
  unfold MPSCQueue.size_of
  rw [hI.enqueue, hIt.enqueue, sub_of_le (by omega) (by unfold wordSize; omega)]
  omega

end MPSCSystem

/-- `SizeApprox` of an `SPSCQueue` is always in range. That of an `MPSCQueue` is exactly when, with
the position to enqueue loaded first, no more items are popped between the loads than there were,
and with the position to dequeue loaded first, no more are pushed than there was room for.
A slot of an `MPSCQueue` has at least eight bytes, which is why `new` refuses more slots. -/
theorem sizes_are_in_range_iff [DecidableEq ι] (c : Nat) :
    (∀ (q : SPSCQueue T) (fresh : Nat → T) (as bs : List (SPSCAction T)) (s t : SPSCSystem T),
      1 ≤ c → c < wordSize → run SPSCSystem.step (.start (q.Init c fresh).2) as = some s →
      run SPSCSystem.step s bs = some t →
      s.queue.size_of s.queue.read_idx_ t.queue.write_idx_ ≤ c ∧
        s.queue.size_of t.queue.read_idx_ s.queue.write_idx_ ≤ c) ∧
    ∀ (q : MPSCQueue T) (fresh : Nat → T) (as bs : List (MPSCAction ι T)) (s t : MPSCSystem ι T),
      2 ≤ c → c * 8 < wordSize → run MPSCSystem.step (.start (q.Init c fresh).2) as = some s →
      run MPSCSystem.step s bs = some t → t.won.length < 2 ^ 63 →
      (MPSCQueue.size_of s.queue.enqueue_pos_ t.queue.dequeue_pos_ ≤ c ↔
        t.queue.dequeue_pos_ - s.queue.dequeue_pos_ ≤
          s.queue.enqueue_pos_ - s.queue.dequeue_pos_) ∧
      (MPSCQueue.size_of t.queue.enqueue_pos_ s.queue.dequeue_pos_ ≤ c ↔
        t.queue.enqueue_pos_ - s.queue.enqueue_pos_ ≤
          c - (s.queue.enqueue_pos_ - s.queue.dequeue_pos_)) := by
  constructor
  · intro q fresh as bs s t hc hword hs ht
    obtain ⟨hcap, hread, hwrite⟩ := SPSCSystem.indices_of_run q fresh hc hword hs
    obtain ⟨-, hread', hwrite'⟩ := SPSCSystem.indices_of_run q fresh hc hword (run_append hs ht)
    rw [← hcap] at hword hread hwrite hread' hwrite' ⊢
    exact ⟨SPSCQueue.size_of_le hword hread hwrite', SPSCQueue.size_of_le hword hread' hwrite⟩
  · intro q fresh as bs s t hc hmem hs ht hb
    have hwon := invariant_of_run (I := fun u : MPSCSystem ι T => s.won.length ≤ u.won.length)
      (fun _ _ _ hu hstep => hu.trans (MPSCSystem.won_prefix_of_step hstep).length_le)
      (Nat.le_refl _) ht
    have hI := MPSCSystem.inv_run q fresh hc (by omega) hs (by omega)
    have hcap := MPSCSystem.pool_capacity_of_run q fresh hc hs
    exact ⟨MPSCSystem.size_of_enqueue_first_iff hI hcap hmem ht hb,
      MPSCSystem.size_of_dequeue_first_iff hI hcap ht hb⟩

/-- One push and one pop between the loads. -/
def pushAndPop : List (MPSCAction Bool Nat) :=
  .push false 7 :: List.replicate 5 (.producer false false) ++
    .pop :: List.replicate 5 .consumer

/-- With the position to dequeue loaded first the size is in range. -/
theorem a_pushed_item_is_counted : ∃ t : MPSCSystem Bool Nat,
    run MPSCSystem.step (MPSCSystem.slots 2) pushAndPop = some t ∧
      MPSCQueue.size_of t.queue.enqueue_pos_ 0 ≤ 2 := by
  obtain ⟨t, ht, hwon, henq⟩ : ∃ t, run MPSCSystem.step (MPSCSystem.slots 2) pushAndPop = some t ∧
      t.won.length = 1 ∧ t.queue.enqueue_pos_ = 1 := exists_of_any (by decide +kernel)
  refine ⟨t, ht, ?_⟩
  have hiff := ((sizes_are_in_range_iff (ι := Bool) (T := Nat) 2).2 _ _ [] pushAndPop
    (MPSCSystem.slots 2) t (by decide) (by decide) rfl ht (by omega)).2
  refine hiff.mpr ?_
  rw [henq]
  decide

/-- With the position to enqueue loaded first it is below 0, and wraps around. -/
theorem a_popped_item_makes_the_size_wrap : ∃ t : MPSCSystem Bool Nat,
    run MPSCSystem.step (MPSCSystem.slots 2) pushAndPop = some t ∧ t.won.length = 1 ∧
      MPSCQueue.size_of (MPSCSystem.slots 2).queue.enqueue_pos_ t.queue.dequeue_pos_ =
        2 ^ 64 - 1 :=
  exists_of_any (by decide +kernel)

end sci.bridges
