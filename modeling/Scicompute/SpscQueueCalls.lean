-- The calls of an `SPSCQueue` by one thread (include/bridges/impl/ipc_queue_impl.hpp, 83-148),
-- each as a whole. `Destroy` leaves the two indices as they are, and `Push`, `Pop` and `Full`
-- do not look whether there is a buffer.
import Scicompute.SpscQueue

open Word Transition

namespace sci.bridges

variable {T : Type*}

namespace SPSCQueue

/-! ## The calls -/

/-- What the language leaves undefined. -/
inductive Fault
  | remainder_by_zero
  | null_buffer
  | out_of_range
  deriving DecidableEq

/-- `(idx + 1) % capacity_`, where there is such a remainder. -/
def advance (q : SPSCQueue T) (idx : Nat) : Except Fault Nat :=
  if q.capacity_ = 0 then .error .remainder_by_zero else .ok (q.next idx)

/-- An access to `buffer_[i]`. -/
def access (q : SPSCQueue T) (i : Nat) : Except Fault Unit :=
  if q.allocated = false then .error .null_buffer
  else if q.capacity_ ≤ i then .error .out_of_range else .ok ()

def Push (q : SPSCQueue T) (item : T) : Except Fault (Bool × SPSCQueue T) :=
  (q.advance q.write_idx_).bind fun next =>
    if next = q.read_idx_ then .ok (false, q)
    else (q.access q.write_idx_).map fun _ =>
      (true, { q with buffer_ := Function.update q.buffer_ q.write_idx_ item, write_idx_ := next })

def Pop (q : SPSCQueue T) : Except Fault (Option T × SPSCQueue T) :=
  if q.read_idx_ = q.write_idx_ then .ok (none, q)
  else (q.access q.read_idx_).bind fun _ => (q.advance q.read_idx_).map fun next =>
    (some (q.buffer_ q.read_idx_), { q with read_idx_ := next })

def Empty (q : SPSCQueue T) : Bool := decide (q.read_idx_ = q.write_idx_)

def Full (q : SPSCQueue T) : Except Fault Bool :=
  (q.advance q.write_idx_).map fun next => decide (next = q.read_idx_)

/-- What `SizeApprox` makes of the two indices that it has loaded. -/
def size_of (q : SPSCQueue T) (read write : Nat) : Nat :=
  if read ≤ write then sub write read else sub q.capacity_ (sub read write)

def SizeApprox (q : SPSCQueue T) : Nat := q.size_of q.read_idx_ q.write_idx_

/-- `fresh` is what `new T[capacity]` leaves in the slots of `Init`, or none when it throws. -/
inductive Call (T : Type*)
  | Init (capacity : Nat) (fresh : Option (Nat → T))
  | Destroy
  | Push (item : T)
  | Pop
  | Empty
  | Full
  | SizeApprox

/-- What a call returns, or writes through its argument. -/
inductive Answer (T : Type*)
  | none
  | thrown
  | ok (b : Bool)
  | item (item : Option T)
  | count (n : Nat)
  deriving DecidableEq

/-- A throw leaves the capacity that was asked for, and no buffer. -/
def InitCall (q : SPSCQueue T) (capacity : Nat) : Option (Nat → T) → Answer T × SPSCQueue T
  | some fresh => (.ok (q.Init capacity fresh).1, (q.Init capacity fresh).2)
  | none =>
    if capacity = 0 then (.ok false, q.Destroy)
    else (.thrown, { q.Destroy with capacity_ := capacity })

def call (q : SPSCQueue T) : Call T → Except Fault (Answer T × SPSCQueue T)
  | .Init capacity fresh => .ok (q.InitCall capacity fresh)
  | .Destroy => .ok (.none, q.Destroy)
  | .Push item => (q.Push item).map fun r => (.ok r.1, r.2)
  | .Pop => q.Pop.map fun r => (.item r.1, r.2)
  | .Empty => .ok (.ok q.Empty, q)
  | .Full => q.Full.map fun b => (.ok b, q)
  | .SizeApprox => .ok (.count q.SizeApprox, q)

/-- A call of a session, which ends at a fault. -/
def callStep (q : SPSCQueue T) (c : Call T) : Option (SPSCQueue T) :=
  (q.call c).toOption.map Prod.snd

/-! ## Calls without a buffer -/

/-- A `Push` or a `Pop` that does nothing. -/
def Refused : Call T → Answer T → Prop
  | .Push _, answer => answer = .ok false
  | .Pop, answer => answer = .item none
  | _, _ => True

/-- The call has no fault, and is refused where it needs a buffer and there is none. -/
def Lawful (q : SPSCQueue T) (c : Call T) : Prop :=
  ∃ r, q.call c = .ok r ∧ (q.allocated = false → Refused c r.1)

/-- The condition on a call. -/
def Guarded (q : SPSCQueue T) : Call T → Prop
  | .Push _ => q.allocated = true ∨ (q.capacity_ ≠ 0 ∧ q.next q.write_idx_ = q.read_idx_)
  | .Pop => q.allocated = true ∨ q.read_idx_ = q.write_idx_
  | .Full => q.capacity_ ≠ 0
  | _ => True

/-- The indices of a buffer name two of its slots. -/
structure InBuffer (q : SPSCQueue T) : Prop where
  read : q.allocated = true → q.read_idx_ < q.capacity_
  write : q.allocated = true → q.write_idx_ < q.capacity_

variable {q q' : SPSCQueue T}

theorem advance_of_pos (h : q.capacity_ ≠ 0) (idx : Nat) : q.advance idx = .ok (q.next idx) :=
  if_neg h

theorem next_lt (h : q.capacity_ ≠ 0) (idx : Nat) : q.next idx < q.capacity_ :=
  Nat.mod_lt _ (Nat.pos_of_ne_zero h)

theorem access_of_lt (hq : q.allocated = true) {i : Nat} (h : i < q.capacity_) :
    q.access i = .ok () := by
  unfold access
  rw [if_neg (by simp [hq]), if_neg (by omega)]

theorem access_of_null (hq : q.allocated = false) (i : Nat) :
    q.access i = .error .null_buffer := if_pos hq

theorem lawful_push_iff (h : q.InBuffer) (item : T) :
    q.Lawful (.Push item) ↔ q.Guarded (.Push item) := by
  unfold Lawful Guarded
  simp only [call, Push]
  by_cases hc : q.capacity_ = 0
  · have hq : q.allocated = false := by
      by_contra hne
      have := h.read (by simpa using hne)
      omega
    simp [advance, hc, hq, Except.bind, Except.map]
  · rw [advance_of_pos hc]
    simp only [Except.bind]
    by_cases hfull : q.next q.write_idx_ = q.read_idx_
    · simp [hfull, hc, Except.map, Refused]
    · cases hq : q.allocated with
      | true => simp [hfull, access_of_lt hq (h.write hq), Except.map]
      | false => simp [hfull, access_of_null hq, Except.map]

theorem lawful_pop_iff (h : q.InBuffer) : q.Lawful .Pop ↔ q.Guarded (.Pop : Call T) := by
  unfold Lawful Guarded
  simp only [call, Pop]
  by_cases hempty : q.read_idx_ = q.write_idx_
  · simp [hempty, Except.map, Refused]
  · cases hq : q.allocated with
    | true =>
      have hc : q.capacity_ ≠ 0 := by
        have := h.read hq
        omega
      simp [hempty, access_of_lt hq (h.read hq), advance_of_pos hc, Except.bind, Except.map]
    | false => simp [hempty, access_of_null hq, Except.bind, Except.map]

theorem lawful_full_iff : q.Lawful .Full ↔ q.Guarded (.Full : Call T) := by
  unfold Lawful Guarded
  simp only [call, Full]
  by_cases hc : q.capacity_ = 0
  · simp [advance, hc, Except.map]
  · simp [advance_of_pos hc, hc, Except.map, Refused]

theorem lawful_iff (h : q.InBuffer) (c : Call T) : q.Lawful c ↔ q.Guarded c := by
  cases c with
  | Push item => exact lawful_push_iff h item
  | Pop => exact lawful_pop_iff h
  | Full => exact lawful_full_iff
  | _ => exact ⟨fun _ => trivial, fun _ => ⟨_, rfl, fun _ => trivial⟩⟩

/-- The steps of a `Push` with none of the consumer between them are the call. -/
theorem push_of_steps {s : SPSCSystem T} (hidle : s.producer = .idle)
    (hq : s.queue.allocated = true) (h : s.queue.InBuffer) (item : T) :
    ∃ n t b, run SPSCSystem.step s (.push item :: List.replicate n .producer) = some t ∧
      t.producer = .returned b ∧ s.queue.Push item = .ok (b, t.queue) := by
  have hwrite := h.write hq
  have hc : s.queue.capacity_ ≠ 0 := by omega
  unfold Push
  rw [advance_of_pos hc]
  by_cases hfull : s.queue.next s.queue.write_idx_ = s.queue.read_idx_
  · refine ⟨2, { s with producer := .returned false }, false, ?_, rfl, ?_⟩
    · simp [run, SPSCSystem.step, SPSCSystem.Push, hidle, hfull]
    · simp [Except.bind, hfull]
  · refine ⟨4, { s with
      producer := .returned true
      queue := { s.queue with
        buffer_ := Function.update s.queue.buffer_ s.queue.write_idx_ item
        write_idx_ := s.queue.next s.queue.write_idx_ }
      pushed := s.pushed ++ [item]
      unpopped := insert s.queue.write_idx_ s.unpopped }, true, ?_, rfl, ?_⟩
    · simp [run, SPSCSystem.step, SPSCSystem.Push, hidle, hfull]
    · simp [Except.bind, Except.map, hfull, access_of_lt hq hwrite]

/-- The steps of a `Pop` with none of the producer between them are the call. -/
theorem pop_of_steps {s : SPSCSystem T} (hidle : s.consumer = .idle)
    (hq : s.queue.allocated = true) (h : s.queue.InBuffer) :
    ∃ n t item, run SPSCSystem.step s (.pop :: List.replicate n .consumer) = some t ∧
      t.consumer = .returned item ∧ s.queue.Pop = .ok (item, t.queue) := by
  have hread := h.read hq
  have hc : s.queue.capacity_ ≠ 0 := by omega
  unfold Pop
  by_cases hempty : s.queue.read_idx_ = s.queue.write_idx_
  · refine ⟨2, { s with consumer := .returned none }, none, ?_, rfl, ?_⟩
    · simp [run, SPSCSystem.step, SPSCSystem.Pop, hidle, hempty]
    · simp [hempty]
  · refine ⟨4, { s with
      consumer := .returned (some (s.queue.buffer_ s.queue.read_idx_))
      queue := { s.queue with read_idx_ := s.queue.next s.queue.read_idx_ }
      popped := s.popped ++ [s.queue.buffer_ s.queue.read_idx_]
      unpopped := s.unpopped.erase s.queue.read_idx_ },
      some (s.queue.buffer_ s.queue.read_idx_), ?_, rfl, ?_⟩
    · simp [run, SPSCSystem.step, SPSCSystem.Pop, hidle, hempty]
    · simp [Except.bind, Except.map, hempty, access_of_lt hq hread, advance_of_pos hc]

/-! ## Sessions -/

theorem callStep_eq_some {c : Call T} (h : q.callStep c = some q') :
    ∃ answer, q.call c = .ok (answer, q') := by
  unfold callStep at h
  cases hc : q.call c with
  | error fault => simp [hc, Except.toOption] at h
  | ok r =>
    simp only [hc, Except.toOption, Option.map_some, Option.some.injEq] at h
    exact ⟨r.1, by rw [← h]⟩

/-- Without a buffer there is nothing to hold. -/
theorem inBuffer_of_null (h : q.allocated = false) : q.InBuffer := by
  constructor <;> simp [h]

theorem inBuffer_init (q : SPSCQueue T) (capacity : Nat) (fresh : Option (Nat → T)) :
    (q.InitCall capacity fresh).2.InBuffer := by
  cases fresh with
  | none =>
    unfold InitCall
    dsimp only
    split_ifs <;> exact inBuffer_of_null rfl
  | some fresh =>
    unfold InitCall Init
    dsimp only
    split_ifs with hc
    · exact inBuffer_of_null rfl
    · exact ⟨fun _ => Nat.pos_of_ne_zero hc, fun _ => Nat.pos_of_ne_zero hc⟩

theorem inBuffer_push (h : q.InBuffer) {item : T} {b : Bool} (hs : q.Push item = .ok (b, q')) :
    q'.InBuffer := by
  unfold Push at hs
  by_cases hc : q.capacity_ = 0
  · simp [advance, hc, Except.bind] at hs
  · rw [advance_of_pos hc] at hs
    simp only [Except.bind] at hs
    split_ifs at hs with hfull
    · cases hs
      exact h
    · cases ha : q.access q.write_idx_ with
      | error fault => simp [ha, Except.map] at hs
      | ok u =>
        simp only [ha, Except.map, Except.ok.injEq] at hs
        cases hs
        exact ⟨h.read, fun _ => next_lt hc _⟩

theorem inBuffer_pop (h : q.InBuffer) {item : Option T} (hs : q.Pop = .ok (item, q')) :
    q'.InBuffer := by
  unfold Pop at hs
  split_ifs at hs with hempty
  · cases hs
    exact h
  · cases ha : q.access q.read_idx_ with
    | error fault => simp [ha, Except.bind] at hs
    | ok u =>
      by_cases hc : q.capacity_ = 0
      · simp [ha, advance, hc, Except.bind, Except.map] at hs
      · simp only [ha, advance_of_pos hc, Except.bind, Except.map, Except.ok.injEq] at hs
        cases hs
        exact ⟨fun _ => next_lt hc _, h.write⟩

theorem inBuffer_call (h : q.InBuffer) {c : Call T} (hs : q.callStep c = some q') :
    q'.InBuffer := by
  obtain ⟨answer, hcall⟩ := callStep_eq_some hs
  cases c with
  | Init capacity fresh =>
    have hinit := inBuffer_init q capacity fresh
    rwa [show q.InitCall capacity fresh = (answer, q') from Except.ok.inj hcall] at hinit
  | Destroy =>
    cases hcall
    exact inBuffer_of_null rfl
  | Push item =>
    cases hp : q.Push item with
    | error fault => simp [call, hp, Except.map] at hcall
    | ok r =>
      simp only [call, hp, Except.map, Except.ok.injEq] at hcall
      cases hcall
      exact inBuffer_push h hp
  | Pop =>
    cases hp : q.Pop with
    | error fault => simp [call, hp, Except.map] at hcall
    | ok r =>
      simp only [call, hp, Except.map, Except.ok.injEq] at hcall
      cases hcall
      exact inBuffer_pop h hp
  | Full =>
    cases hp : q.Full with
    | error fault => simp [call, hp, Except.map] at hcall
    | ok b =>
      simp only [call, hp, Except.map, Except.ok.injEq] at hcall
      cases hcall
      exact h
  | Empty =>
    cases hcall
    exact h
  | SizeApprox =>
    cases hcall
    exact h

/-- In a session of a default-constructed queue no call divides by zero or leaves the buffer, and no
`Push` or `Pop` finds anything without one, exactly when these two are called with a buffer or
where their indices say full or empty, and `Full` with a capacity that is not 0. -/
theorem calls_have_no_fault_iff [Inhabited T] (calls : List (Call T)) :
    Meets callStep Lawful empty calls ↔ Meets callStep Guarded empty calls :=
  meets_iff_of_invariant (I := InBuffer) (fun _ _ _ h hs => inBuffer_call h hs)
    (fun _ c h => lawful_iff h c) (inBuffer_of_null rfl)

/-- A `Push` before any `Init`, and a `Pop` of an item that `Destroy` has taken. -/
theorem calls_without_a_buffer_have_faults :
    ¬ Meets callStep Lawful empty [Call.Push 7] ∧
    (empty : SPSCQueue Nat).call (.Push 7) = .error .remainder_by_zero ∧
    (run callStep empty [.Init 2 (some fun _ => 0), .Push 7, .Destroy]).map
      (fun q => (q.call .Pop).toOption.isNone) = some true := by
  refine ⟨?_, rfl, rfl⟩
  rintro ⟨⟨r, hr, -⟩, -⟩
  cases hr

end SPSCQueue

end sci.bridges
