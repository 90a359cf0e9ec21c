-- The runs of an `SPSCQueue`. The values that are pushed and not popped stand in a window
-- of fewer than `capacity_` positions, between the positions that the two indices name;
-- what each thread knows of the other index stays true until it stores its own.
import Scicompute.SpscQueue

open Transition Word RingBuffer

namespace sci.bridges

namespace SPSCSystem

variable {T : Type*} {s t : SPSCSystem T} {c : Nat}

/-! ## The invariant -/

/-- What the producer knows in its call. -/
def PushOk (s : SPSCSystem T) (c : Nat) : SPSCPushPc T → Prop
  | .load_read _ write => write = s.pushed.length % c
  | .copy _ write next => write = s.pushed.length % c ∧ next = (s.pushed.length + 1) % c ∧
      s.pushed.length + 1 < s.popped.length + c
  | .store_write item next => next = (s.pushed.length + 1) % c ∧
      s.pushed.length + 1 < s.popped.length + c ∧ s.queue.buffer_ (s.pushed.length % c) = item
  | _ => True

/-- What the consumer knows in its call. -/
def PopOk (s : SPSCSystem T) (c : Nat) : SPSCPopPc T → Prop
  | .load_write read => read = s.popped.length % c
  | .copy read => read = s.popped.length % c ∧ s.popped.length < s.pushed.length
  | .store_read item read => read = s.popped.length % c ∧ s.pushed[s.popped.length]? = some item
  | _ => True

/-- The number of values whose slots are written: one more than are pushed, before the store. -/
def written (s : SPSCSystem T) : Nat :=
  match s.producer with
  | .store_write _ _ => s.pushed.length + 1
  | _ => s.pushed.length

structure Inv (c : Nat) (s : SPSCSystem T) : Prop where
  capacity : s.queue.capacity_ = c
  write : s.queue.write_idx_ = s.pushed.length % c
  read : s.queue.read_idx_ = s.popped.length % c
  window : s.pushed.length < s.popped.length + c
  taken : s.popped = s.pushed.take s.popped.length
  data : ∀ k item, s.popped.length ≤ k → s.pushed[k]? = some item →
    s.queue.buffer_ (k % c) = item
  producer : PushOk s c s.producer
  consumer : PopOk s c s.consumer
  unpopped : ∀ i, i ∈ s.unpopped ↔ ∃ k, s.popped.length ≤ k ∧ k < s.written ∧ k % c = i

theorem inv_start (q : SPSCQueue T) (hc : 1 ≤ c) (fresh : Nat → T) :
    Inv c (start (q.Init c fresh).2) := by
  have hq : (q.Init c fresh).2 = ⟨true, fresh, c, 0, 0⟩ := by
    rw [SPSCQueue.Init, if_neg (by omega)]
  rw [hq]
  refine ⟨rfl, (Nat.zero_mod c).symm, (Nat.zero_mod c).symm, ?_, rfl, ?_, trivial, trivial, ?_⟩
  · simp only [start, List.length_nil]
    omega
  · intro k item _ hk
    simp [start] at hk
  · intro i
    simp [start, written]

theorem Inv.popped_le (h : Inv c s) : s.popped.length ≤ s.pushed.length := by
  have hlen := congrArg List.length h.taken
  rw [List.length_take] at hlen
  omega

theorem Inv.next_eq (h : Inv c s) (hword : c < wordSize) (k : Nat) :
    s.queue.next (k % c) = (k + 1) % c := by
  have hc : 0 < c := by
    have := h.window
    have := h.popped_le
    omega
  have hlt := Nat.mod_lt k hc
  rw [SPSCQueue.next, h.capacity, add_of_lt (by omega), Nat.mod_add_mod]

/-- The indices meet only at a full queue, or at an empty one. -/
theorem Inv.full (h : Inv c s) (he : (s.pushed.length + 1) % c = s.popped.length % c) :
    s.pushed.length = s.popped.length + (c - 1) := by
  have hwin := h.window
  have hle := h.popped_le
  by_contra hne
  have heq := eq_of_mod_eq (c := c) (r := s.popped.length) (by omega) (by omega) (Nat.le_refl _)
    (by omega) he
  omega

theorem Inv.empty (h : Inv c s) (he : s.popped.length % c = s.pushed.length % c) :
    s.pushed.length = s.popped.length := by
  have hwin := h.window
  have hle := h.popped_le
  exact (eq_of_mod_eq (r := s.popped.length) (Nat.le_refl _) (by omega) hle hwin he).symm

/-! ## The steps of the producer -/

/-- Another place of the producer, which is not at its store before or afterwards. -/
theorem Inv.of_producer (h : Inv c s) {pc : SPSCPushPc T} (hpc : PushOk s c pc)
    (hs : ∀ item next, s.producer ≠ .store_write item next)
    (hstore : ∀ item next, pc ≠ .store_write item next) : Inv c { s with producer := pc } := by
  have hwritten : written { s with producer := pc } = s.written := by
    have hplain : ∀ u : SPSCSystem T, (∀ item next, u.producer ≠ .store_write item next) →
        u.written = u.pushed.length := by
      intro u hu
      unfold written
      split
      · rename_i hp
        exact absurd hp (hu _ _)
      · rfl
    rw [hplain _ hs, hplain _ hstore]
  exact ⟨h.capacity, h.write, h.read, h.window, h.taken, h.data, hpc, h.consumer,
    by rw [hwritten]; exact h.unpopped⟩

/-- The producer writes a slot outside the window. -/
theorem Inv.copy (h : Inv c s) {item : T} {write next : Nat}
    (hpc : s.producer = .copy item write next) :
    write ∉ s.unpopped ∧ Inv c { s with
      producer := .store_write item next
      queue := { s.queue with buffer_ := Function.update s.queue.buffer_ write item }
      unpopped := insert write s.unpopped } := by
  have hok := h.producer
  rw [hpc] at hok
  obtain ⟨rfl, hnext, hroom⟩ := hok
  have hle := h.popped_le
  have hne : ∀ k, s.popped.length ≤ k → k < s.pushed.length → k % c ≠ s.pushed.length % c := by
    intro k hk hlt he
    have := eq_of_mod_eq (r := s.popped.length) hk (by omega) hle (by omega) he
    omega
  have hwritten : s.written = s.pushed.length := by
    unfold written
    rw [hpc]
  constructor
  · intro hmem
    obtain ⟨k, hk, hlt, he⟩ := (h.unpopped _).mp hmem
    rw [hwritten] at hlt
    exact hne k hk hlt he
  · refine ⟨h.capacity, h.write, h.read, h.window, h.taken, ?_, ⟨hnext, hroom, ?_⟩, ?_, ?_⟩
    · intro k x hk hx
      have hlt : k < s.pushed.length := (List.getElem?_eq_some_iff.mp hx).choose
      simp only
      rw [Function.update_of_ne (hne k hk hlt)]
      exact h.data k x hk hx
    · exact Function.update_self ..
    · have hpop := h.consumer
      cases hcons : s.consumer with
      | _ => rw [hcons] at hpop; exact hpop
    · intro i
      change i ∈ insert _ s.unpopped ↔ ∃ k, s.popped.length ≤ k ∧ k < s.pushed.length + 1 ∧ k % c = i
      rw [Finset.mem_insert, h.unpopped, hwritten]
      constructor
      · rintro (rfl | ⟨k, hk, hlt, he⟩)
        · exact ⟨s.pushed.length, hle, Nat.lt_succ_self _, rfl⟩
        · exact ⟨k, hk, Nat.lt_succ_of_lt hlt, he⟩
      · rintro ⟨k, hk, hlt, he⟩
        rcases Nat.lt_succ_iff_lt_or_eq.mp hlt with hlt | rfl
        · exact Or.inr ⟨k, hk, hlt, he⟩
        · exact Or.inl he.symm

/-- The store of `write_idx_` pushes the value. -/
theorem Inv.store_write (h : Inv c s) {item : T} {next : Nat}
    (hpc : s.producer = .store_write item next) :
    Inv c { s with
      producer := .returned true
      queue := { s.queue with write_idx_ := next }
      pushed := s.pushed ++ [item] } := by
  have hok := h.producer
  rw [hpc] at hok
  obtain ⟨hnext, hroom, hdata⟩ := hok
  have hle := h.popped_le
  have hlen : (s.pushed ++ [item]).length = s.pushed.length + 1 := by simp
  refine ⟨h.capacity, ?_, h.read, ?_, ?_, ?_, trivial, ?_, ?_⟩
  · simp only [hlen]
    exact hnext
  · simp only [hlen]
    exact hroom
  · simp only
    rw [List.take_append_of_le_length hle]
    exact h.taken
  · intro k x hk hx
    rcases Nat.lt_or_ge k s.pushed.length with hlt | hge
    · exact h.data k x hk (by rwa [List.getElem?_append_left hlt] at hx)
    · rw [List.getElem?_append_right hge] at hx
      obtain ⟨hk0, rfl⟩ : k - s.pushed.length = 0 ∧ item = x := by
        rcases hkk : k - s.pushed.length with _ | n
        · rw [hkk] at hx
          exact ⟨rfl, Option.some.inj hx⟩
        · rw [hkk] at hx
          cases hx
      obtain rfl : k = s.pushed.length := by omega
      exact hdata
  · have hpop := h.consumer
    cases hcons : s.consumer with
    | copy read =>
      rw [hcons] at hpop
      exact ⟨hpop.1, by simp only [hlen]; exact Nat.lt_succ_of_lt hpop.2⟩
    | store_read x read =>
      rw [hcons] at hpop
      have hlt : s.popped.length < s.pushed.length :=
        (List.getElem?_eq_some_iff.mp hpop.2).choose
      exact ⟨hpop.1, (List.getElem?_append_left hlt).trans hpop.2⟩
    | _ => rw [hcons] at hpop; exact hpop
  · intro i
    rw [h.unpopped]
    unfold written
    rw [hpc]
    simp only [hlen]

/-! ## The steps of the consumer -/

/-- Another place of the consumer. -/
theorem Inv.of_consumer (h : Inv c s) {pc : SPSCPopPc T} (hpc : PopOk s c pc) :
    Inv c { s with consumer := pc } :=
  ⟨h.capacity, h.write, h.read, h.window, h.taken, h.data, h.producer, hpc, h.unpopped⟩

/-- The store of `read_idx_` pops the oldest value. -/
theorem Inv.store_read (h : Inv c s) (hword : c < wordSize) {item : T} {read : Nat}
    (hpc : s.consumer = .store_read item read) :
    Inv c { s with
      consumer := .returned (some item)
      queue := { s.queue with read_idx_ := s.queue.next read }
      popped := s.popped ++ [item]
      unpopped := s.unpopped.erase read } := by
  have hok := h.consumer
  rw [hpc] at hok
  obtain ⟨rfl, hitem⟩ := hok
  have hwin := h.window
  have hlen : (s.popped ++ [item]).length = s.popped.length + 1 := by simp
  obtain ⟨hlt, hget⟩ := List.getElem?_eq_some_iff.mp hitem
  have hwritten : s.written ≤ s.popped.length + c := by
    have hprod := h.producer
    unfold written
    split
    · rename_i hp
      rw [hp] at hprod
      have := hprod.2.1
      omega
    · omega
  refine ⟨h.capacity, h.write, ?_, ?_, ?_, ?_, ?_, trivial, ?_⟩
  · simp only [hlen]
    exact h.next_eq hword _
  · simp only [hlen]
    omega
  · simp only [hlen]
    rw [List.take_add_one, hitem, ← h.taken]
    rfl
  · intro k x hk hx
    simp only [hlen] at hk
    exact h.data k x (by omega) hx
  · have hpush := h.producer
    cases hprod : s.producer with
    | copy x write next =>
      rw [hprod] at hpush
      exact ⟨hpush.1, hpush.2.1, by simp only [hlen]; have := hpush.2.2; omega⟩
    | store_write x next =>
      rw [hprod] at hpush
      exact ⟨hpush.1, by simp only [hlen]; have := hpush.2.1; omega, hpush.2.2⟩
    | _ => rw [hprod] at hpush; exact hpush
  · intro i
    change i ∈ s.unpopped.erase _ ↔
      ∃ k, (s.popped ++ [item]).length ≤ k ∧ k < s.written ∧ k % c = i
    rw [Finset.mem_erase, h.unpopped, hlen]
    constructor
    · rintro ⟨hi, k, hk, hkw, rfl⟩
      have hne : k ≠ s.popped.length := fun he => hi (by rw [he])
      exact ⟨k, by omega, hkw, rfl⟩
    · rintro ⟨k, hk, hkw, rfl⟩
      refine ⟨?_, k, by omega, hkw, rfl⟩
      intro he
      have := eq_of_mod_eq (r := s.popped.length) (by omega) (by omega) (Nat.le_refl _) (by omega) he
      omega

/-! ## Runs -/

theorem inv_Push (h : Inv c s) (hword : c < wordSize) (hs : s.Push = some t) : Inv c t := by
  have hok := h.producer
  cases hpc : s.producer with
  | idle => simp [Push, hpc] at hs
  | returned ok => simp [Push, hpc] at hs
  | load_write item =>
    simp only [Push, hpc] at hs
    cases hs
    exact h.of_producer h.write (by simp [hpc]) (by simp)
  | load_read item write =>
    rw [hpc] at hok
    obtain rfl : write = s.pushed.length % c := hok
    simp only [Push, hpc] at hs
    rw [h.next_eq hword, h.read] at hs
    split_ifs at hs with hfull
    · cases hs
      exact h.of_producer trivial (by simp [hpc]) (by simp)
    · cases hs
      refine h.of_producer ⟨rfl, rfl, ?_⟩ (by simp [hpc]) (by simp)
      -- a full window would make the indices meet
      have hwin := h.window
      by_contra hroom
      apply hfull
      rw [show s.pushed.length + 1 = s.popped.length + c by omega, Nat.add_mod_right]
  | copy item write next =>
    simp only [Push, hpc] at hs
    cases hs
    exact (h.copy hpc).2
  | store_write item next =>
    simp only [Push, hpc] at hs
    cases hs
    exact h.store_write hpc

theorem inv_Pop (h : Inv c s) (hword : c < wordSize) (hs : s.Pop = some t) : Inv c t := by
  have hok := h.consumer
  have hle := h.popped_le
  cases hpc : s.consumer with
  | idle => simp [Pop, hpc] at hs
  | returned item => simp [Pop, hpc] at hs
  | load_read =>
    simp only [Pop, hpc] at hs
    cases hs
    exact h.of_consumer h.read
  | load_write read =>
    rw [hpc] at hok
    obtain rfl : read = s.popped.length % c := hok
    simp only [Pop, hpc] at hs
    rw [h.write] at hs
    split_ifs at hs with hempty
    · cases hs
      exact h.of_consumer trivial
    · cases hs
      refine h.of_consumer ⟨rfl, ?_⟩
      by_contra hlt
      apply hempty
      rw [show s.popped.length = s.pushed.length by omega]
  | copy read =>
    rw [hpc] at hok
    obtain ⟨rfl, hlt⟩ := hok
    simp only [Pop, hpc] at hs
    cases hs
    have hget : s.pushed[s.popped.length]? = some s.pushed[s.popped.length] :=
      List.getElem?_eq_getElem hlt
    refine h.of_consumer ⟨rfl, ?_⟩
    rw [h.data _ _ (Nat.le_refl _) hget]
    exact hget
  | store_read item read =>
    simp only [Pop, hpc] at hs
    cases hs
    exact h.store_read hword hpc

theorem inv_step (a : SPSCAction T) (h : Inv c s) (hword : c < wordSize)
    (hs : s.step a = some t) : Inv c t := by
  cases a with
  | push item =>
    simp only [step] at hs
    split at hs
    · rename_i hpc
      cases hs
      exact h.of_producer trivial (by simp [hpc]) (by simp)
    · rename_i ok hpc
      cases hs
      exact h.of_producer trivial (by simp [hpc]) (by simp)
    · cases hs
  | producer => exact inv_Push h hword hs
  | pop =>
    simp only [step] at hs
    split at hs
    · cases hs
      exact h.of_consumer trivial
    · cases hs
      exact h.of_consumer trivial
    · cases hs
  | consumer => exact inv_Pop h hword hs

/-- `Push` fails only on a full queue. -/
theorem Inv.push_returns_false (h : Inv c s) (hword : c < wordSize)
    (hs : s.step .producer = some t) (ht : t.producer = .returned false) :
    s.pushed.length = s.popped.length + (c - 1) := by
  have hok := h.producer
  cases hpc : s.producer with
  | load_read item write =>
    rw [hpc] at hok
    obtain rfl : write = s.pushed.length % c := hok
    simp only [step, Push, hpc] at hs
    rw [h.next_eq hword, h.read] at hs
    split_ifs at hs with hfull
    · exact h.full hfull
    · cases hs
      cases ht
  | idle => simp [step, Push, hpc] at hs
  | returned ok => simp [step, Push, hpc] at hs
  | _ =>
    simp only [step, Push, hpc] at hs
    cases hs
    cases ht

/-- `Pop` fails only on an empty queue. -/
theorem Inv.pop_returns_none (h : Inv c s) (hs : s.step .consumer = some t)
    (ht : t.consumer = .returned none) : s.pushed.length = s.popped.length := by
  have hok := h.consumer
  cases hpc : s.consumer with
  | load_write read =>
    rw [hpc] at hok
    obtain rfl : read = s.popped.length % c := hok
    simp only [step, Pop, hpc] at hs
    rw [h.write] at hs
    split_ifs at hs with hempty
    · exact h.empty hempty
    · cases hs
      cases ht
  | idle => simp [step, Pop, hpc] at hs
  | returned item => simp [step, Pop, hpc] at hs
  | _ =>
    simp only [step, Pop, hpc] at hs
    cases hs
    cases ht

/-- The next access to the buffer stays in it, and overwrites nothing. -/
theorem Inv.accesses (h : Inv c s) : (∀ i, s.Writes i → i < c ∧ i ∉ s.unpopped) ∧
    ∀ i, s.Reads i → i < c := by
  have hc : 0 < c := by
    have := h.window
    have := h.popped_le
    omega
  constructor
  · rintro i ⟨item, next, hpc⟩
    have hok := h.producer
    rw [hpc] at hok
    refine ⟨?_, (h.copy hpc).1⟩
    rw [hok.1]
    exact Nat.mod_lt _ hc
  · intro i hpc
    have hok := h.consumer
    rw [show s.consumer = .copy i from hpc] at hok
    rw [hok.1]
    exact Nat.mod_lt _ hc

/-- Over every interleaving of one producer and one consumer: what is popped is a prefix of what is
pushed, the accesses stay in the buffer and overwrite no value, and the failures are exact. -/
theorem spsc_pops_are_a_prefix_of_the_pushes (q : SPSCQueue T) (fresh : Nat → T) (hc : 1 ≤ c)
    (hword : c < wordSize) {as : List (SPSCAction T)}
    (hr : run step (start (q.Init c fresh).2) as = some s) :
    s.popped <+: s.pushed ∧
    (∀ i, s.Writes i ∨ s.Reads i → i < c) ∧
    (∀ i, s.Writes i → i ∉ s.unpopped) ∧
    (∀ t, s.step .producer = some t → t.producer = .returned false →
      s.pushed.length = s.popped.length + (c - 1)) ∧
    (∀ t, s.step .consumer = some t → t.consumer = .returned none →
      s.pushed.length = s.popped.length) := by
  have h : Inv c s := invariant_of_run (fun _ a _ h hs => inv_step a h hword hs)
    (inv_start q hc fresh) hr
  refine ⟨?_, ?_, fun i hi => (h.accesses.1 i hi).2, ?_, ?_⟩
  · rw [h.taken]
    exact List.take_prefix ..
  · rintro i (hi | hi)
    · exact (h.accesses.1 i hi).1
    · exact h.accesses.2 i hi
  · exact fun t hs ht => h.push_returns_false hword hs ht
  · exact fun t hs ht => h.pop_returns_none hs ht

/-- A queue of two slots holds one value: the second `Push` fails, and the third one wraps. -/
def wrappedRun : List (SPSCAction Nat) :=
  [.push 5, .producer, .producer, .producer, .producer, .push 6, .producer, .producer,
    .pop, .consumer, .consumer, .consumer, .consumer, .push 7, .producer, .producer]

theorem two_slots_hold_one_value : ∃ s : SPSCSystem Nat,
    run step (start (SPSCQueue.empty.Init 2 fun _ => 0).2) wrappedRun = some s ∧
    s.popped = [5] ∧ s.popped <+: s.pushed ∧
    (∀ i, s.Writes i ∨ s.Reads i → i < 2) ∧
    (∀ i, s.Writes i → i ∉ s.unpopped) ∧
    (∀ t, s.step .producer = some t → t.producer = .returned false →
      s.pushed.length = s.popped.length + (2 - 1)) ∧
    (∀ t, s.step .consumer = some t → t.consumer = .returned none →
      s.pushed.length = s.popped.length) := by
  obtain ⟨s, hs, hpopped⟩ : ∃ s : SPSCSystem Nat,
      run step (start (SPSCQueue.empty.Init 2 fun _ => 0).2) wrappedRun = some s ∧
        s.popped = [5] := exists_of_any (by decide +kernel)
  exact ⟨s, hs, hpopped,
    spsc_pops_are_a_prefix_of_the_pushes SPSCQueue.empty (fun _ => 0) (by decide) (by decide) hs⟩

end SPSCSystem

end sci.bridges
