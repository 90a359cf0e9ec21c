-- The answers of `Push` and `Pop` on an `MPSCQueue`: what a call that returns false has
-- seen, and what a call returns that runs alone. A `Push` compares a sequence number with a
-- position that it may have loaded long before; the cast difference keeps its sign while
-- the positions of the window are below `2^63`.
import Scicompute.MpscQueueRuns

open Word RingBuffer Transition

namespace sci.bridges

namespace MPSCSystem

variable {ι T : Type*} [DecidableEq ι] {s t u : MPSCSystem ι T} {p : ι} {item : T}

/-! ## Calls that return false -/

/-- A `Push` is refused at its position when the ticket one round before is claimed and not yet
released. -/
theorem Inv.push_refused (hI : Inv s) (hb : s.won.length < 2 ^ 63)
    (hwin : s.released + s.queue.pool_capacity_ ≤ 2 ^ 63) {pos : Nat} (hpos : pos ≤ s.won.length)
    (hneg : difference (s.queue.node pos).sequence pos < 0) :
    s.queue.pool_capacity_ ≤ pos ∧ pos - s.queue.pool_capacity_ < s.won.length ∧
      s.released ≤ pos - s.queue.pool_capacity_ := by
  have hle := hI.le_capacity
  obtain ⟨w, hw, hw', hmod, hcase⟩ := exists_slot hI pos
  have hfree : ∀ n, (s.queue.node pos).sequence = n → n < 2 ^ 63 → n < pos := by
    intro n hn hlt
    rw [hn, difference_of_lt hlt (by omega)] at hneg
    omega
  have hlt : w < pos ∧ w < s.won.length := by
    rcases hcase with ⟨hge, hseq⟩ | ⟨hlt, hseq | hseq⟩
    · -- a free slot has a position that is not behind
      rw [Nat.mod_eq_of_lt (by simp only [wordSize]; omega)] at hseq
      have := hfree w hseq (by omega)
      omega
    · exact ⟨hfree w hseq (by omega), hlt⟩
    · have := hfree (w + 1) hseq (by omega)
      exact ⟨by omega, hlt⟩
  -- the position is one round ahead of the slot, since it is at most the next ticket
  have heq : pos = w + s.queue.pool_capacity_ := by
    by_contra hne
    have hc := hI.two_le
    have := eq_of_mod_eq (c := s.queue.pool_capacity_) (r := w) (Nat.le_refl _) (by omega)
      (by omega) (by omega) hmod
    omega
  omega

/-- A step of a `Push` that returns and pushes nothing. -/
theorem Inv.push_returns_false (hI : Inv s) (hb : s.won.length < 2 ^ 63)
    (hwin : s.released + s.queue.pool_capacity_ ≤ 2 ^ 63) {weak : Bool}
    (hs : s.step (.producer p weak) = some t) (hidle : t.producer p = .idle)
    (hpushed : t.pushed p = s.pushed p) : ∃ item pos, s.producer p = .load_sequence item pos ∧
      s.queue.pool_capacity_ ≤ pos ∧ pos - s.queue.pool_capacity_ < s.won.length ∧
      s.released ≤ pos - s.queue.pool_capacity_ := by
  have hok := hI.producers p
  simp only [step, Push] at hs
  cases hpc : s.producer p with
  | idle => simp [hpc] at hs
  | load_pos item =>
    simp only [hpc, hI.allocated, if_true, Option.some.injEq] at hs
    subst hs
    rw [setProducer_self] at hidle
    cases hidle
  | load_sequence item pos =>
    rw [hpc] at hok
    simp only [hpc] at hs
    split_ifs at hs with hzero hneg
    · cases hs
      rw [setProducer_self] at hidle
      cases hidle
    · exact ⟨item, pos, rfl, hI.push_refused hb hwin hok hneg⟩
    · cases hs
      rw [setProducer_self] at hidle
      cases hidle
  | compare_exchange item pos =>
    simp only [hpc] at hs
    split_ifs at hs <;> cases hs <;> simp [setProducer] at hidle
  | copy item pos =>
    simp only [hpc] at hs
    cases hs
    simp [setProducer] at hidle
  | publish item pos =>
    simp only [hpc] at hs
    cases hs
    simp at hpushed

/-- A position that is won and not published is with its producer. -/
def Pending (s : MPSCSystem ι T) (pos : Nat) : Prop :=
  ∃ k, s.won[pos]? = some k ∧ (s.producer k.producer).ticket = some pos

omit [DecidableEq ι] in
theorem published_or_pending (hs : s.SlotOk s.released) (hlt : s.released < s.won.length) :
    s.Published ∨ s.Pending s.released := by
  have hk := List.getElem?_eq_getElem hlt
  unfold SlotOk at hs
  rw [hk] at hs
  rcases hs with ⟨-, hticket⟩ | ⟨hseq, hdata⟩
  · exact Or.inr ⟨_, hk, hticket⟩
  · exact Or.inl ⟨_, hk, hseq, hdata⟩

/-- A step of a `Pop` that returns and pops nothing. -/
theorem Inv.pop_returns_false (hI : Inv s) (hb : s.won.length < 2 ^ 63)
    (hs : s.step .consumer = some t) (hidle : t.consumer = .idle) (hpopped : t.popped = s.popped) :
    s.consumer = .load_sequence s.queue.dequeue_pos_ ∧
      (s.won.length ≤ s.queue.dequeue_pos_ ∨ s.Pending s.queue.dequeue_pos_) := by
  have hok := hI.consumer
  have hword := released_lt_of_inv hI hb
  simp only [step, Pop] at hs
  cases hpc : s.consumer with
  | load_sequence pos =>
    rw [hpc] at hok
    obtain ⟨hdeq, rfl⟩ := hok
    rw [hdeq]
    refine ⟨rfl, ?_⟩
    simp only [hpc, add_of_lt hword] at hs
    split_ifs at hs with hdiff
    · rcases Nat.lt_or_ge s.released s.won.length with hlt | hge
      · have hcap := hI.two_le
        rcases published_or_pending (hI.slots _ (Nat.le_refl _) (by omega)) hlt with hpub | hpend
        · obtain ⟨k, -, hseq, -⟩ := hpub
          exact absurd ((difference_eq_zero_iff (sequence_lt_word hI hb _) hword).mpr hseq) hdiff
        · exact Or.inr hpend
      · exact Or.inl hge
    · cases hs
      cases hidle
  | idle => simp [hpc] at hs
  | load_pos =>
    simp only [hpc, hI.allocated, if_true, Option.some.injEq] at hs
    subst hs
    cases hidle
  | release item pos =>
    simp only [hpc] at hs
    cases hs
    simp at hpopped
  | _ =>
    simp only [hpc] at hs
    cases hs
    cases hidle

/-! ## A `Push` that runs alone -/

/-- The states of a `Push(item)` of `p` that runs alone from `s`. -/
inductive PushAlone (s : MPSCSystem ι T) (p : ι) (item : T) : MPSCSystem ι T → Prop
  | load_pos : PushAlone s p item (s.setProducer p (.load_pos item))
  | load_sequence : PushAlone s p item (s.setProducer p (.load_sequence item s.won.length))
  | compare_exchange (hroom : s.won.length < s.released + s.queue.pool_capacity_) :
      PushAlone s p item (s.setProducer p (.compare_exchange item s.won.length))
  | copy (hroom : s.won.length < s.released + s.queue.pool_capacity_) :
      PushAlone s p item (s.wins p item)
  | publish (hroom : s.won.length < s.released + s.queue.pool_capacity_) :
      PushAlone s p item ((s.wins p item).copies p item s.won.length)
  | pushed (hroom : s.won.length < s.released + s.queue.pool_capacity_) :
      PushAlone s p item (((s.wins p item).copies p item s.won.length).publishes p item s.won.length)
  | refused (hfull : s.won.length = s.released + s.queue.pool_capacity_) :
      PushAlone s p item (s.setProducer p .idle)

/-- The slot of the next ticket is free, or it is the slot of the oldest one. -/
theorem next_sequence (hI : Inv s) (hb : s.won.length < 2 ^ 63) :
    (s.won.length < s.released + s.queue.pool_capacity_ ∧
      difference (s.queue.node s.won.length).sequence s.won.length = 0) ∨
    (s.won.length = s.released + s.queue.pool_capacity_ ∧
      difference (s.queue.node s.won.length).sequence s.won.length < 0) := by
  have hle := hI.le_capacity
  have hc := hI.two_le
  obtain ⟨w, hw, hw', hmod, hcase⟩ := exists_slot hI s.won.length
  rcases Nat.lt_or_ge s.won.length (s.released + s.queue.pool_capacity_) with hroom | hfull
  · refine Or.inl ⟨hroom, ?_⟩
    obtain rfl : w = s.won.length := eq_of_mod_eq hw hw' hI.released_le hroom hmod
    rcases hcase with ⟨-, hseq⟩ | ⟨hlt, -⟩
    · have hword : s.won.length < wordSize := by simp only [wordSize]; omega
      rw [hseq, Nat.mod_eq_of_lt hword]
      exact (difference_eq_zero_iff hword hword).mpr rfl
    · exact absurd hlt (Nat.lt_irrefl _)
  · have he : s.won.length = s.released + s.queue.pool_capacity_ := Nat.le_antisymm hle hfull
    refine Or.inr ⟨he, ?_⟩
    -- the oldest ticket is one round behind, and a capacity of two keeps it there
    have hold : w = s.released := by
      refine eq_of_mod_eq hw hw' (Nat.le_refl _) (by omega) ?_
      rw [hmod, he, Nat.add_mod_right]
    rcases hcase with ⟨hge, -⟩ | ⟨-, hseq | hseq⟩
    · omega
    · rw [hseq, difference_of_lt (by omega) hb]
      omega
    · rw [hseq, difference_of_lt (by omega) hb]
      omega

theorem PushAlone.next (hI : Inv s) (hb : s.won.length < 2 ^ 63) {weak : Bool}
    (h : PushAlone s p item t) (hs : t.step (.producer p weak) = some u) : PushAlone s p item u := by
  have hset : ∀ pc pc', (s.setProducer p pc).setProducer p pc' = s.setProducer p pc' := by
    intro pc pc'
    simp [setProducer]
  have hword : s.won.length + 1 < wordSize := by simp only [wordSize]; omega
  cases h with
  | load_pos =>
    simp only [step, Push, setProducer_self, hset] at hs
    rw [show (s.setProducer p (.load_pos item)).queue = s.queue from rfl, hI.allocated,
      hI.enqueue] at hs
    cases hs
    exact .load_sequence
  | load_sequence =>
    simp only [step, Push, setProducer_self, hset] at hs
    rw [show (s.setProducer p (.load_sequence item s.won.length)).queue = s.queue from rfl] at hs
    rcases next_sequence hI hb with ⟨hroom, hzero⟩ | ⟨hfull, hneg⟩
    · rw [if_pos hzero] at hs
      cases hs
      exact .compare_exchange hroom
    · rw [if_neg (Int.ne_of_lt hneg), if_pos hneg] at hs
      cases hs
      exact .refused hfull
  | compare_exchange hroom =>
    simp only [step, Push, setProducer_self, hset] at hs
    rw [show (s.setProducer p (.compare_exchange item s.won.length)).queue = s.queue from rfl,
      hI.enqueue, add_of_lt hword] at hs
    split_ifs at hs
    · cases hs
      exact .copy hroom
    · cases hs
      exact .load_sequence
  | copy hroom =>
    have hpc : (s.wins p item).producer p = .copy item s.won.length := by simp [wins]
    simp only [step, Push, hpc] at hs
    cases hs
    exact .publish hroom
  | publish hroom =>
    have hpc : ((s.wins p item).copies p item s.won.length).producer p =
        .publish item s.won.length := by simp [copies]
    simp only [step, Push, hpc, add_of_lt hword] at hs
    cases hs
    exact .pushed hroom
  | pushed hroom =>
    simp [step, Push, publishes] at hs
  | refused hfull => simp [step, Push] at hs

/-- The calls of `p`, with the failures of its compare-exchanges. -/
def pushCall (p : ι) (item : T) (weak : List Bool) : List (MPSCAction ι T) :=
  .push p item :: weak.map (.producer p)

theorem PushAlone.of_run (hI : Inv s) (hb : s.won.length < 2 ^ 63)
    (hidle : s.producer p = .idle) {weak : List Bool}
    (hr : run step s (pushCall p item weak) = some t) : PushAlone s p item t := by
  have hrest : ∀ (weak : List Bool) u, PushAlone s p item u →
      run step u (weak.map (.producer p)) = some t → PushAlone s p item t := by
    intro weak
    induction weak with
    | nil =>
      intro u hu hr
      cases hr
      exact hu
    | cons b weak ih =>
      intro u hu hr
      obtain ⟨v, hv, hr⟩ := (run_cons ..).mp hr
      exact ih v (hu.next hI hb hv) hr
  obtain ⟨u, hu, hr⟩ := (run_cons ..).mp hr
  simp only [step, hidle] at hu
  cases hu
  exact hrest weak _ .load_pos hr

/-- A `Push` that runs alone comes to its end. -/
theorem exists_push_run (hI : Inv s) (hb : s.won.length < 2 ^ 63) (hidle : s.producer p = .idle)
    (item : T) : ∃ weak t, run step s (pushCall p item weak) = some t ∧ t.producer p = .idle := by
  have hword : s.won.length + 1 < wordSize := by simp only [wordSize]; omega
  rcases next_sequence hI hb with ⟨hroom, hzero⟩ | ⟨hfull, hneg⟩
  · refine ⟨List.replicate 5 false,
      ((s.wins p item).copies p item s.won.length).publishes p item s.won.length, ?_, ?_⟩
    · simp [pushCall, run, step, Push, hidle, setProducer, hI.allocated, hI.enqueue, hzero, add_of_lt
        hword, wins, copies, publishes]
    · simp [publishes]
  · refine ⟨List.replicate 2 false, s.setProducer p .idle, ?_, by simp⟩
    simp [pushCall, run, step, Push, hidle, setProducer, hI.allocated, hI.enqueue, hneg,
      Int.ne_of_lt hneg]

/-- A `Push` that has run alone has pushed its value exactly when there was room. -/
theorem push_alone_succeeds_iff (hI : Inv s) (hb : s.won.length < 2 ^ 63)
    (hidle : s.producer p = .idle) {weak : List Bool}
    (hr : run step s (pushCall p item weak) = some t) (ht : t.producer p = .idle) :
    t.pushed p = s.pushed p ++ [item] ↔
      s.won.length < s.released + s.queue.pool_capacity_ := by
  cases PushAlone.of_run hI hb hidle hr with
  | load_pos | load_sequence | compare_exchange | copy | publish =>
    simp [wins, copies, setProducer] at ht
  | pushed hroom => simp [publishes, copies, wins, hroom]
  | refused hfull =>
    rw [setProducer_pushed, hfull]
    simp

/-! ## A `Pop` that runs alone -/

/-- The value of the oldest ticket. -/
def front (s : MPSCSystem ι T) : T := (s.queue.node s.released).data

/-- The states of a `Pop` that runs alone from `s`. -/
inductive PopAlone (s : MPSCSystem ι T) : MPSCSystem ι T → Prop
  | load_pos : PopAlone s { s with consumer := .load_pos }
  | load_sequence : PopAlone s { s with consumer := .load_sequence s.released }
  | copy (hpub : s.Published) : PopAlone s { s with consumer := .copy s.released }
  | store_pos (hpub : s.Published) :
      PopAlone s { s with consumer := .store_pos s.front s.released }
  | release (hpub : s.Published) :
      PopAlone s { s with
        consumer := .release s.front s.released
        queue := { s.queue with dequeue_pos_ := s.released + 1 } }
  | popped (hpub : s.Published) :
      PopAlone s (releases { s with queue := { s.queue with dequeue_pos_ := s.released + 1 } } s.front)
  | refused (hnone : ¬ s.Published) : PopAlone s { s with consumer := .idle }

theorem published_iff (hI : Inv s) (hb : s.won.length < 2 ^ 63) : s.Published ↔
    difference (s.queue.node s.released).sequence (s.released + 1) = 0 := by
  have hword := released_lt_of_inv hI hb
  rw [difference_eq_zero_iff (sequence_lt_word hI hb _) hword]
  constructor
  · rintro ⟨k, -, hseq, -⟩
    exact hseq
  · intro hseq
    have hcap := hI.two_le
    have hs := hI.slots s.released (Nat.le_refl _) (by omega)
    unfold SlotOk at hs
    cases hk : s.won[s.released]? with
    | none =>
      rw [hk] at hs
      simp only [Nat.mod_eq_of_lt (by omega : s.released < wordSize)] at hs
      omega
    | some k =>
      rw [hk] at hs
      rcases hs with ⟨hs, -⟩ | ⟨-, hdata⟩
      · omega
      · exact ⟨k, hk, hseq, hdata⟩

theorem PopAlone.next (hI : Inv s) (hb : s.won.length < 2 ^ 63) (hidle : s.consumer = .idle)
    (h : PopAlone s t) (hs : t.step .consumer = some u) : PopAlone s u := by
  have hdeq : s.queue.dequeue_pos_ = s.released := by
    have hok := hI.consumer
    rwa [hidle] at hok
  have hword := released_lt_of_inv hI hb
  cases h with
  | load_pos =>
    simp only [step, Pop, hI.allocated, hdeq] at hs
    cases hs
    exact .load_sequence
  | load_sequence =>
    have hiff := published_iff hI hb
    rw [← add_of_lt hword] at hiff
    simp only [step, Pop] at hs
    split_ifs at hs with hnone
    · cases hs
      exact .refused (fun hpub => hnone (hiff.mp hpub))
    · cases hs
      exact .copy (hiff.mpr (not_not.mp hnone))
  | copy hpub =>
    simp only [step, Pop] at hs
    cases hs
    exact .store_pos hpub
  | store_pos hpub =>
    simp only [step, Pop, add_of_lt hword] at hs
    cases hs
    exact .release hpub
  | release hpub =>
    simp only [step, Pop] at hs
    cases hs
    exact .popped hpub
  | popped hpub => simp [step, Pop, releases] at hs
  | refused hnone => simp [step, Pop] at hs

def popCall (n : Nat) : List (MPSCAction ι T) := .pop :: List.replicate n .consumer

theorem PopAlone.of_run (hI : Inv s) (hb : s.won.length < 2 ^ 63) (hidle : s.consumer = .idle)
    {n : Nat} (hr : run step s (popCall n) = some t) : PopAlone s t := by
  have hrest : ∀ (n : Nat) u, PopAlone s u →
      run step u (List.replicate n .consumer) = some t → PopAlone s t := by
    intro n
    induction n with
    | zero =>
      intro u hu hr
      cases hr
      exact hu
    | succ n ih =>
      intro u hu hr
      obtain ⟨v, hv, hr⟩ := (run_cons ..).mp hr
      exact ih v (hu.next hI hb hidle hv) hr
  obtain ⟨u, hu, hr⟩ := (run_cons ..).mp hr
  simp only [step, hidle] at hu
  cases hu
  exact hrest n _ .load_pos hr

/-- A `Pop` that runs alone comes to its end. -/
theorem exists_pop_run (hI : Inv s) (hb : s.won.length < 2 ^ 63) (hidle : s.consumer = .idle) :
    ∃ n t, run step s (popCall n) = some t ∧ t.consumer = .idle := by
  have hdeq : s.queue.dequeue_pos_ = s.released := by
    have hok := hI.consumer
    rwa [hidle] at hok
  have hword := released_lt_of_inv hI hb
  by_cases hzero : difference (s.queue.node s.released).sequence (s.released + 1) = 0
  · refine ⟨5, releases { s with queue := { s.queue with dequeue_pos_ := s.released + 1 } } s.front,
      ?_, rfl⟩
    simp [popCall, run, step, Pop, hidle, hI.allocated, hdeq, add_of_lt hword, hzero]
    rfl
  · refine ⟨2, { s with consumer := .idle }, ?_, rfl⟩
    simp [popCall, run, step, Pop, hidle, hI.allocated, hdeq, add_of_lt hword, hzero]

/-- A `Pop` that has run alone has popped a value exactly when the oldest ticket was published. -/
theorem pop_alone_succeeds_iff (hI : Inv s) (hb : s.won.length < 2 ^ 63)
    (hidle : s.consumer = .idle) {n : Nat} (hr : run step s (popCall n) = some t)
    (ht : t.consumer = .idle) : (∃ item, t.popped = s.popped ++ [item]) ↔ s.Published := by
  cases PopAlone.of_run hI hb hidle hr with
  | load_pos | load_sequence | copy | store_pos | release => cases ht
  | popped hpub => exact ⟨fun _ => hpub, fun _ => ⟨s.front, rfl⟩⟩
  | refused hnone => simp [hnone]

/-! ## The laws -/

/-- No call is in progress. -/
def Quiet (s : MPSCSystem ι T) : Prop := (∀ p, s.producer p = .idle) ∧ s.consumer = .idle

theorem published_of_no_ticket (hI : Inv s) (hp : ∀ p, (s.producer p).ticket = none)
    (hlt : s.released < s.won.length) : s.Published := by
  have hcap := hI.two_le
  rcases published_or_pending (hI.slots _ (Nat.le_refl _) (by omega)) hlt with hpub | ⟨k, -, hticket⟩
  · exact hpub
  · rw [hp] at hticket
    cases hticket

theorem pool_capacity_of_step {a : MPSCAction ι T} (hs : s.step a = some t) :
    t.queue.pool_capacity_ = s.queue.pool_capacity_ := by
  cases a with
  | push p item =>
    simp only [step] at hs
    split at hs
    · cases hs; rfl
    · cases hs
  | producer p weak =>
    simp only [step, Push] at hs
    split at hs
    · cases hs
    all_goals first
      | (cases hs; rfl)
      | (split_ifs at hs <;> cases hs <;> rfl)
  | pop =>
    simp only [step] at hs
    split at hs
    · cases hs; rfl
    · cases hs
  | consumer =>
    simp only [step, Pop] at hs
    split at hs
    · cases hs
    all_goals first
      | (cases hs; rfl)
      | (split_ifs at hs <;> cases hs <;> rfl)

theorem pool_capacity_of_run (q : MPSCQueue T) {c : Nat} (fresh : Nat → T) (hc : 2 ≤ c)
    {as : List (MPSCAction ι T)} (hr : run step (start (q.Init c fresh).2) as = some s) :
    s.queue.pool_capacity_ = c := by
  refine invariant_of_run (I := fun s => s.queue.pool_capacity_ = c)
    (fun _ _ _ h hs => (pool_capacity_of_step hs).trans h) ?_ hr
  simp [start, MPSCQueue.Init, Nat.not_lt.mpr hc]

/-- In every run with fewer than `2^63` pushes: a `Push` fails only while the ticket one round before
its position is claimed and not released, as long as the positions of the window are below `2^63`; a
`Pop` fails only while the next ticket is not claimed or not published; and while no call is in
progress, a `Pop` succeeds exactly when a value is held, and a `Push` when fewer than `c` are. -/
theorem calls_fail_only_on_full_and_empty_queues (q : MPSCQueue T) (c : Nat) (fresh : Nat → T)
    (hc : 2 ≤ c) (hw : c < wordSize) (as : List (MPSCAction ι T)) (s : MPSCSystem ι T)
    (hr : run step (start (q.Init c fresh).2) as = some s) (hb : s.won.length < 2 ^ 63) :
    (∀ p weak t, s.popped.length + c ≤ 2 ^ 63 → s.step (.producer p weak) = some t →
      t.producer p = .idle → t.pushed p = s.pushed p →
      ∃ item pos, s.producer p = .load_sequence item pos ∧ c ≤ pos ∧ pos - c < s.won.length ∧
        s.popped.length ≤ pos - c) ∧
    (∀ t, s.step .consumer = some t → t.consumer = .idle → t.popped = s.popped →
      s.consumer = .load_sequence s.queue.dequeue_pos_ ∧
        (s.won.length ≤ s.queue.dequeue_pos_ ∨ s.Pending s.queue.dequeue_pos_)) ∧
    (s.Quiet →
      (∃ n t, run step s (popCall n) = some t ∧ t.consumer = .idle) ∧
      (∀ n t, run step s (popCall n) = some t → t.consumer = .idle →
        ((∃ item, t.popped = s.popped ++ [item]) ↔ s.popped.length < s.won.length)) ∧
      (∀ p item, ∃ weak t, run step s (pushCall p item weak) = some t ∧ t.producer p = .idle) ∧
      ∀ p item weak t, run step s (pushCall p item weak) = some t → t.producer p = .idle →
        (t.pushed p = s.pushed p ++ [item] ↔ s.won.length < s.popped.length + c)) := by
  have hI := inv_run q fresh hc hw hr hb
  have hcap := pool_capacity_of_run q fresh hc hr
  refine ⟨?_, fun t hs hidle hpop => hI.pop_returns_false hb hs hidle hpop, ?_⟩
  · intro p weak t hwin hs hidle hpush
    rw [← hcap] at hwin ⊢
    exact hI.push_returns_false hb hwin hs hidle hpush
  · rintro ⟨hproducers, hconsumer⟩
    refine ⟨exists_pop_run hI hb hconsumer, ?_,
      fun p item => exists_push_run hI hb (hproducers p) item, ?_⟩
    · intro n t hrun hidle
      rw [pop_alone_succeeds_iff hI hb hconsumer hrun hidle]
      constructor
      · rintro ⟨k, hk, -⟩
        exact (List.getElem?_eq_some_iff.mp hk).1
      · exact published_of_no_ticket hI (fun p => by rw [hproducers p]; rfl)
    · intro p item weak t hrun hidle
      rw [← hcap]
      exact push_alone_succeeds_iff hI hb (hproducers p) hrun hidle

/-! ## A `Push` that stalls -/

/-- A queue of `c` slots, with two producers. -/
def slots (c : Nat) : MPSCSystem Bool Nat :=
  start ((⟨false, fun _ => ⟨0, 0⟩, 0, 0, 0⟩ : MPSCQueue Nat).Init c fun _ => 0).2

/-- Two values fill the queue: what `Push` and `Pop` answer afterwards. -/
theorem two_slots_are_full : ∃ (as : List (MPSCAction Bool Nat)) (s : MPSCSystem Bool Nat),
    run step (slots 2) as = some s ∧ s.Quiet ∧ s.won.length = 2 ∧
    (∀ n t, run step s (popCall n) = some t → t.consumer = .idle →
      ((∃ item, t.popped = s.popped ++ [item]) ↔ s.popped.length < s.won.length)) ∧
    ∀ p item weak t, run step s (pushCall p item weak) = some t → t.producer p = .idle →
      (t.pushed p = s.pushed p ++ [item] ↔ s.won.length < s.popped.length + 2) := by
  obtain ⟨s, hr, hquiet, hwon⟩ : ∃ s : MPSCSystem Bool Nat, run step (slots 2)
      (pushCall false 7 (List.replicate 5 false) ++ pushCall true 8 (List.replicate 5 false)) =
      some s ∧ s.Quiet ∧ s.won.length = 2 := by
    refine ⟨_, rfl, ⟨?_, rfl⟩, rfl⟩
    intro p
    cases p <;> rfl
  have h := calls_fail_only_on_full_and_empty_queues _ 2 _ (by decide) (by decide) _ _ hr (by omega)
  exact ⟨_, s, hr, hquiet, hwon, (h.2.2 hquiet).2.1, (h.2.2 hquiet).2.2.2⟩

/-- One producer has loaded position 0, and `n` values were pushed and popped since. -/
structure Stalled (n : Nat) (s : MPSCSystem Bool Nat) : Prop where
  won : s.won.length = n
  released : s.released = n
  stalled : s.producer false = .load_sequence 7 0
  producer : s.producer true = .idle
  consumer : s.consumer = .idle

theorem inv_of_fourSlots {as : List (MPSCAction Bool Nat)} {s : MPSCSystem Bool Nat}
    (hr : run step (slots 4) as = some s) (hb : s.won.length < 2 ^ 63) : Inv s :=
  inv_run _ _ (by decide) (by decide) hr hb

/-- The other producer pushes a value, and it is popped. -/
theorem Stalled.next {n : Nat} (hn : n + 1 < 2 ^ 63) {as : List (MPSCAction Bool Nat)}
    {s : MPSCSystem Bool Nat} (hr : run step (slots 4) as = some s) (h : Stalled n s) :
    ∃ bs t, run step (slots 4) (as ++ bs) = some t ∧ Stalled (n + 1) t := by
  have hI := inv_of_fourSlots hr (by rw [h.won]; omega)
  obtain ⟨weak, t, ht, hidle⟩ := exists_push_run hI (by rw [h.won]; omega) h.producer 0
  have htwin : t.won.length = n + 1 ∧ t.released = n ∧ t.producer false = .load_sequence 7 0 ∧
      t.consumer = .idle := by
    cases PushAlone.of_run hI (by rw [h.won]; omega) h.producer ht with
    | load_pos | load_sequence | compare_exchange | copy | publish =>
      simp [wins, copies, setProducer] at hidle
    | pushed hroom =>
      refine ⟨?_, h.released, ?_, h.consumer⟩
      · simp [publishes, copies, wins, h.won]
      · simpa [publishes, copies, wins, setProducer] using h.stalled
    | refused hfull =>
      have hcap := hI.two_le
      have := h.won
      have := h.released
      omega
  obtain ⟨hwon, hreleased, hstalled, hconsumer⟩ := htwin
  have hrt := run_append hr ht
  have hJ := inv_of_fourSlots hrt (by omega)
  have hpub : t.Published := by
    apply published_of_no_ticket hJ ?_ (by omega)
    intro p
    cases p with
    | false => rw [hstalled]; rfl
    | true => rw [hidle]; rfl
  obtain ⟨m, u, hu, huidle⟩ := exists_pop_run hJ (by omega) hconsumer
  refine ⟨pushCall true 0 weak ++ popCall m, u, ?_, ?_⟩
  · rw [← List.append_assoc]
    exact run_append hrt hu
  · cases PopAlone.of_run hJ (by omega) hconsumer hu with
    | load_pos | load_sequence | copy | store_pos | release => cases huidle
    | popped _ =>
      refine ⟨hwon, ?_, hstalled, hidle, rfl⟩
      change (t.popped ++ [t.front]).length = n + 1
      rw [List.length_append, show t.popped.length = n from hreleased]
      rfl
    | refused hnone => exact absurd hpub hnone

theorem exists_stalled {n : Nat} (hn : n < 2 ^ 63) :
    ∃ as s, run step (slots 4) as = some s ∧ Stalled n s := by
  induction n with
  | zero => exact ⟨[.push false 7, .producer false false], _, rfl, rfl, rfl, rfl, rfl, rfl⟩
  | succ n ih =>
    obtain ⟨as, s, hr, h⟩ := ih (by omega)
    obtain ⟨bs, t, ht, hnext⟩ := h.next hn hr
    exact ⟨as ++ bs, t, ht, hnext⟩

/-- After `2^63 - 3` values, all popped, the slot of position 0 is that of position `2^63`, whose
cast is negative: the stalled `Push` is refused by an empty queue. -/
theorem a_stalled_push_is_refused_by_an_empty_queue : ∃ as s t, run step (slots 4) as = some s ∧
    s.won.length + 1 < 2 ^ 63 ∧ s.popped.length = s.won.length ∧
    s.producer false = .load_sequence 7 0 ∧ s.step (.producer false false) = some t ∧
    t.producer false = .idle ∧ t.pushed false = s.pushed false := by
  obtain ⟨as, s, hr, h⟩ := exists_stalled (n := 2 ^ 63 - 3) (by decide)
  have hwon := h.won
  have hreleased := h.released
  have hI := inv_of_fourSlots hr (by omega)
  have hcap : s.queue.pool_capacity_ = 4 := pool_capacity_of_run _ _ (by decide) hr
  have hnode : (s.queue.node 0).sequence = 2 ^ 63 := by
    have hslot := hI.slots (2 ^ 63) (by omega) (by omega)
    unfold SlotOk at hslot
    rw [List.getElem?_eq_none (by omega)] at hslot
    have hsame : s.queue.node 0 = s.queue.node (2 ^ 63) := by
      simp [MPSCQueue.node, hcap]
    rw [hsame, hslot]
    decide
  refine ⟨as, s, s.setProducer false .idle, hr, by omega, by rw [hwon]; exact hreleased, h.stalled, ?_,
    by simp, by simp⟩
  have hneg : difference (2 ^ 63) 0 < 0 := by decide
  simp only [step, Push, h.stalled, hnode]
  rw [if_neg (Int.ne_of_lt hneg), if_pos hneg]

end MPSCSystem

end sci.bridges
