-- The runs of the queue of many producers and one consumer. The positions that
-- are won and not yet released form a window of at most `pool_capacity_`
-- positions, and the sequence number of each slot says how far the position of
-- the window that names it has come. `Inv` states this, and each step keeps it.
import Scicompute.MpscQueue

open Word RingBuffer Transition

namespace sci.bridges

variable {ι T : Type*}

/-! ## What one thread knows -/

/-- The position that the thread has won and not yet published. -/
def PushPc.ticket : PushPc T → Option Nat
  | .copy _ pos => some pos
  | .publish _ pos => some pos
  | _ => none

/-- The value of a `Push` that has won its position and has not returned. -/
def PushPc.inHand : PushPc T → List T
  | .copy item _ => [item]
  | .publish item _ => [item]
  | _ => []

theorem PushPc.inHand_of_ticket {pc : PushPc T} (h : pc.ticket = none) : pc.inHand = [] := by
  cases pc <;> simp_all [PushPc.ticket, PushPc.inHand]

namespace MPSCSystem

/-- The number of positions that `Pop` has released. -/
def released (s : MPSCSystem ι T) : Nat := s.popped.length

/-- What the slot of position `t` of the window holds. A position that is not won has its own
number. A position that is won has it too until its producer publishes the value. -/
def SlotOk (s : MPSCSystem ι T) (t : Nat) : Prop :=
  match s.won[t]? with
  | none => (s.queue.node t).sequence = t % wordSize
  | some k =>
    ((s.queue.node t).sequence = t ∧ (s.producer k.producer).ticket = some t) ∨
      ((s.queue.node t).sequence = t + 1 ∧ (s.queue.node t).data = k.item)

/-- The producer `p` has won the position and has not published it. -/
structure Holds (s : MPSCSystem ι T) (p : ι) (item : T) (pos : Nat) : Prop where
  won : s.won[pos]? = some ⟨pos, p, item⟩
  live : s.released ≤ pos
  sequence : (s.queue.node pos).sequence = pos

def ProducerOk (s : MPSCSystem ι T) (p : ι) : PushPc T → Prop
  | .idle => True
  | .load_pos _ => True
  | .load_sequence _ pos => pos ≤ s.won.length
  | .compare_exchange _ pos => pos < s.released + s.queue.pool_capacity_
  | .copy item pos => s.Holds p item pos
  | .publish item pos => s.Holds p item pos ∧ (s.queue.node pos).data = item

/-- The first position of the window is won, and its value is published. -/
def Published (s : MPSCSystem ι T) : Prop :=
  ∃ k, s.won[s.released]? = some k ∧
    (s.queue.node s.released).sequence = s.released + 1 ∧
    (s.queue.node s.released).data = k.item

/-- The value that the consumer has read is the value of the first position of the window. -/
def ReadOut (s : MPSCSystem ι T) (item : T) : Prop :=
  s.Published ∧ (s.queue.node s.released).data = item

def ConsumerOk (s : MPSCSystem ι T) : PopPc T → Prop
  | .idle => s.queue.dequeue_pos_ = s.released
  | .load_pos => s.queue.dequeue_pos_ = s.released
  | .load_sequence pos => s.queue.dequeue_pos_ = s.released ∧ pos = s.released
  | .copy pos => s.queue.dequeue_pos_ = s.released ∧ pos = s.released ∧ s.Published
  | .store_pos item pos => s.queue.dequeue_pos_ = s.released ∧ pos = s.released ∧ s.ReadOut item
  | .release item pos => s.queue.dequeue_pos_ = s.released + 1 ∧ pos = s.released ∧ s.ReadOut item

/-! ## Facts that need no invariant -/

variable {s : MPSCSystem ι T}

theorem Holds.lt_length {p : ι} {item : T} {pos : Nat} (h : s.Holds p item pos) :
    pos < s.won.length := by
  rcases Nat.lt_or_ge pos s.won.length with hlt | hge
  · exact hlt
  · have := h.won
    rw [List.getElem?_eq_none hge] at this
    cases this

theorem SlotOk.frame {s' : MPSCSystem ι T} {t : Nat} (h : s.SlotOk t)
    (hwon : s'.won[t]? = s.won[t]?) (hnode : s'.queue.node t = s.queue.node t)
    (hticket : ∀ p, (s.producer p).ticket = some t → (s'.producer p).ticket = some t) :
    s'.SlotOk t := by
  unfold SlotOk at *
  rw [hwon, hnode]
  cases hk : s.won[t]? with
  | none => rw [hk] at h; exact h
  | some k =>
    rw [hk] at h
    rcases h with ⟨h1, h2⟩ | h1
    · exact Or.inl ⟨h1, hticket _ h2⟩
    · exact Or.inr h1

theorem ProducerOk.frame {s' : MPSCSystem ι T} {p : ι} {pc : PushPc T} (h : s.ProducerOk p pc)
    (hwon : s.won <+: s'.won) (hcap : s'.queue.pool_capacity_ = s.queue.pool_capacity_)
    (hrel : s.released ≤ s'.released)
    (hheld : ∀ item pos, s.Holds p item pos →
      s'.released ≤ pos ∧ s'.queue.node pos = s.queue.node pos) :
    s'.ProducerOk p pc := by
  have hholds : ∀ item pos, s.Holds p item pos → s'.Holds p item pos := by
    intro item pos hh
    obtain ⟨h1, h2⟩ := hheld item pos hh
    refine ⟨?_, h1, by rw [h2]; exact hh.sequence⟩
    obtain ⟨l, hl⟩ := hwon
    rw [← hl, List.getElem?_append_left hh.lt_length]
    exact hh.won
  cases pc with
  | idle => trivial
  | load_pos item => trivial
  | load_sequence item pos =>
    have := hwon.length_le
    simp only [ProducerOk] at *
    omega
  | compare_exchange item pos =>
    simp only [ProducerOk, hcap] at *
    omega
  | copy item pos => exact hholds item pos h
  | publish item pos =>
    refine ⟨hholds item pos h.1, ?_⟩
    rw [(hheld item pos h.1).2]
    exact h.2

theorem Published.frame {s' : MPSCSystem ι T} (h : s.Published) (hwon : s.won <+: s'.won)
    (hrel : s'.released = s.released)
    (hnode : s'.queue.node s.released = s.queue.node s.released) : s'.Published := by
  obtain ⟨k, hk, hseq, hdata⟩ := h
  obtain ⟨l, hl⟩ := hwon
  have hlt : s.released < s.won.length := (List.getElem?_eq_some_iff.mp hk).1
  refine ⟨k, ?_, ?_, ?_⟩
  · rw [hrel, ← hl, List.getElem?_append_left hlt]
    exact hk
  · rw [hrel, hnode]; exact hseq
  · rw [hrel, hnode]; exact hdata

theorem ConsumerOk.frame {s' : MPSCSystem ι T} {pc : PopPc T} (h : s.ConsumerOk pc)
    (hwon : s.won <+: s'.won) (hrel : s'.released = s.released)
    (hdeq : s'.queue.dequeue_pos_ = s.queue.dequeue_pos_)
    (hnode : s.Published → s'.queue.node s.released = s.queue.node s.released) :
    s'.ConsumerOk pc := by
  have hread : ∀ item, s.ReadOut item → s'.ReadOut item := fun item hr =>
    ⟨hr.1.frame hwon hrel (hnode hr.1), by rw [hrel, hnode hr.1]; exact hr.2⟩
  cases pc with
  | idle => simp only [ConsumerOk] at *; rw [hdeq, hrel, h]
  | load_pos => simp only [ConsumerOk] at *; rw [hdeq, hrel, h]
  | load_sequence pos =>
    simp only [ConsumerOk] at *
    rw [hdeq, hrel]
    exact h
  | copy pos =>
    obtain ⟨h1, h2, h3⟩ := h
    exact ⟨by rw [hdeq, hrel, h1], by rw [hrel, h2], h3.frame hwon hrel (hnode h3)⟩
  | store_pos item pos =>
    obtain ⟨h1, h2, h3⟩ := h
    exact ⟨by rw [hdeq, hrel, h1], by rw [hrel, h2], hread item h3⟩
  | release item pos =>
    obtain ⟨h1, h2, h3⟩ := h
    exact ⟨by rw [hdeq, hrel, h1], by rw [hrel, h2], hread item h3⟩

/-! ## The invariant of the system -/

structure Inv [DecidableEq ι] (s : MPSCSystem ι T) : Prop where
  allocated : s.queue.allocated = true
  two_le : 2 ≤ s.queue.pool_capacity_
  lt_word : s.queue.pool_capacity_ < wordSize
  enqueue : s.queue.enqueue_pos_ = s.won.length
  tickets : ∀ (t : Nat) k, s.won[t]? = some k → k.pos = t
  released_le : s.released ≤ s.won.length
  le_capacity : s.won.length ≤ s.released + s.queue.pool_capacity_
  slots : ∀ t, s.released ≤ t → t < s.released + s.queue.pool_capacity_ → s.SlotOk t
  producers : ∀ p, s.ProducerOk p (s.producer p)
  consumer : s.ConsumerOk s.consumer
  popped : s.popped = (s.won.take s.released).map (·.item)
  pushed : ∀ p, (s.won.filter (fun k => k.producer = p)).map (·.item) =
    s.pushed p ++ (s.producer p).inHand

variable [DecidableEq ι]

theorem inv_start (q : MPSCQueue T) (c : Nat) (fresh : Nat → T) (hc : 2 ≤ c) (hw : c < wordSize) :
    Inv (start (ι := ι) (q.Init c fresh).2) := by
  have hn : ¬ c < 2 := by omega
  simp only [MPSCQueue.Init, hn, if_false, start]
  constructor <;> simp [released, hc, hw, ProducerOk, ConsumerOk, PushPc.inHand]
  intro t ht
  simp [SlotOk, MPSCQueue.node, Nat.mod_eq_of_lt ht, Nat.mod_eq_of_lt (ht.trans hw)]

/-! ## Facts about one state -/

theorem Holds.lt_window (hI : Inv s) {p : ι} {item : T} {pos : Nat} (h : s.Holds p item pos) :
    pos < s.released + s.queue.pool_capacity_ :=
  h.lt_length.trans_le hI.le_capacity

theorem holds_of_ticket (hI : Inv s) {p : ι} {pos : Nat} (h : (s.producer p).ticket = some pos) :
    ∃ item, s.Holds p item pos := by
  have hp := hI.producers p
  cases hpc : s.producer p with
  | copy item pos' =>
    rw [hpc] at h hp
    cases h
    exact ⟨item, hp⟩
  | publish item pos' =>
    rw [hpc] at h hp
    cases h
    exact ⟨item, hp.1⟩
  | _ => rw [hpc] at h; cases h

/-- Two producers never hold the same slot. -/
theorem Holds.unique (hI : Inv s) {p p' : ι} {item item' : T} {pos pos' : Nat}
    (h : s.Holds p item pos) (h' : s.Holds p' item' pos')
    (he : pos % s.queue.pool_capacity_ = pos' % s.queue.pool_capacity_) : p = p' ∧ pos = pos' := by
  have hpos : pos = pos' :=
    eq_of_mod_eq h.live (h.lt_window hI) h'.live (h'.lt_window hI) he
  subst hpos
  have hk := h.won.symm.trans h'.won
  simp only [Option.some.injEq, Ticket.mk.injEq] at hk
  exact ⟨hk.2.1, rfl⟩

/-- The first slot of the window is not held while it is published. -/
theorem Published.not_held (hI : Inv s) (hpub : s.Published) {p : ι} {item : T} {pos : Nat}
    (h : s.Holds p item pos) : pos % s.queue.pool_capacity_ ≠ s.released % s.queue.pool_capacity_ := by
  intro he
  have hc := hI.two_le
  have hpos : pos = s.released :=
    eq_of_mod_eq h.live (h.lt_window hI) (Nat.le_refl _) (by omega) he
  obtain ⟨k, -, hseq, -⟩ := hpub
  have := h.sequence
  rw [hpos, hseq] at this
  omega

/-- The slot of any position is that of a position of the window, which its number tells of. -/
theorem exists_slot (hI : Inv s) (pos : Nat) :
    ∃ t, s.released ≤ t ∧ t < s.released + s.queue.pool_capacity_ ∧
      t % s.queue.pool_capacity_ = pos % s.queue.pool_capacity_ ∧
      ((s.won.length ≤ t ∧ (s.queue.node pos).sequence = t % wordSize) ∨
        (t < s.won.length ∧
          ((s.queue.node pos).sequence = t ∨ (s.queue.node pos).sequence = t + 1))) := by
  have hc := hI.two_le
  obtain ⟨t, ht, ht', hmod⟩ := exists_in_window (by omega : 0 < s.queue.pool_capacity_) s.released pos
  refine ⟨t, ht, ht', hmod, ?_⟩
  have hnode : s.queue.node t = s.queue.node pos := by simp [MPSCQueue.node, hmod]
  have hs := hI.slots t ht ht'
  unfold SlotOk at hs
  rw [hnode] at hs
  cases hk : s.won[t]? with
  | none =>
    rw [hk] at hs
    exact Or.inl ⟨List.getElem?_eq_none_iff.mp hk, hs⟩
  | some k =>
    rw [hk] at hs
    exact Or.inr ⟨(List.getElem?_eq_some_iff.mp hk).1, hs.imp And.left And.left⟩

/-- A slot whose sequence number is `pos` belongs to the window at `pos` or before. -/
theorem lt_of_sequence_eq (hI : Inv s) {pos : Nat} (h : (s.queue.node pos).sequence = pos) :
    pos < s.released + s.queue.pool_capacity_ := by
  obtain ⟨t, -, ht, hmod, ⟨-, hseq⟩ | ⟨-, hseq | hseq⟩⟩ := exists_slot hI pos
  · have := Nat.mod_le t wordSize
    omega
  · omega
  · -- no position is the one behind its own slot
    rw [h] at hseq
    rw [hseq] at hmod
    exact absurd hmod.symm (succ_mod_ne hI.two_le t)

/-! ## The steps of a producer -/

/-- A step of a producer that holds no position before or after changes no shared field. -/
theorem inv_setProducer (hI : Inv s) {p : ι} {pc : PushPc T} (hold : (s.producer p).ticket = none)
    (hnew : pc.ticket = none) (hok : s.ProducerOk p pc) : Inv (s.setProducer p pc) where
  allocated := hI.allocated
  two_le := hI.two_le
  lt_word := hI.lt_word
  enqueue := hI.enqueue
  tickets := hI.tickets
  released_le := hI.released_le
  le_capacity := hI.le_capacity
  slots := by
    intro t ht ht'
    refine (hI.slots t ht ht').frame rfl rfl ?_
    intro p' hp'
    have hne : p' ≠ p := by rintro rfl; rw [hold] at hp'; cases hp'
    simpa [setProducer_of_ne s p pc hne] using hp'
  producers := by
    intro p'
    have hframe : ∀ pc', s.ProducerOk p' pc' → (s.setProducer p pc).ProducerOk p' pc' :=
      fun pc' h => h.frame (List.prefix_refl _) rfl (Nat.le_refl _) (fun _ _ hh => ⟨hh.live, rfl⟩)
    by_cases hp : p' = p
    · subst hp
      simpa using hframe pc hok
    · simpa [setProducer_of_ne s p pc hp] using hframe _ (hI.producers p')
  consumer := hI.consumer
  popped := hI.popped
  pushed := by
    intro p'
    by_cases hp : p' = p
    · subst hp
      simpa [PushPc.inHand_of_ticket hold, PushPc.inHand_of_ticket hnew] using hI.pushed p'
    · simpa [setProducer_of_ne s p pc hp] using hI.pushed p'

/-- The state after a compare-exchange that succeeds. -/
def wins (s : MPSCSystem ι T) (p : ι) (item : T) : MPSCSystem ι T :=
  { s.setProducer p (.copy item s.won.length) with
    queue := { s.queue with enqueue_pos_ := s.won.length + 1 }
    won := s.won ++ [⟨s.won.length, p, item⟩] }

theorem inv_wins (hI : Inv s) {p : ι} {item : T} (hold : (s.producer p).ticket = none)
    (hroom : s.won.length < s.released + s.queue.pool_capacity_) (hword : s.won.length < wordSize) :
    Inv (s.wins p item) where
  allocated := hI.allocated
  two_le := hI.two_le
  lt_word := hI.lt_word
  enqueue := by simp [wins]
  tickets := by
    intro t k hk
    simp only [wins] at hk
    rcases Nat.lt_or_ge t s.won.length with h | h
    · rw [List.getElem?_append_left h] at hk
      exact hI.tickets t k hk
    · rw [List.getElem?_append_right h] at hk
      obtain ⟨hlt, rfl⟩ := List.getElem?_eq_some_iff.mp hk
      simp only [List.length_singleton] at hlt
      simp only [List.getElem_singleton]
      omega
  released_le := by
    have := hI.released_le
    simp only [released, wins, setProducer_popped, List.length_append] at *
    omega
  le_capacity := by
    simp only [released, wins, setProducer_popped, List.length_append, List.length_singleton] at *
    exact hroom
  slots := by
    intro t ht ht'
    have hs : s.SlotOk t := hI.slots t ht ht'
    by_cases he : t = s.won.length
    · subst he
      unfold SlotOk at hs
      rw [List.getElem?_eq_none (Nat.le_refl _)] at hs
      simp only [Nat.mod_eq_of_lt hword] at hs
      unfold SlotOk
      simp only [wins, List.getElem?_append_right (Nat.le_refl _), Nat.sub_self,
        List.getElem?_cons_zero, setProducer_self, PushPc.ticket, and_true]
      exact Or.inl hs
    · refine hs.frame ?_ rfl ?_
      · rcases Nat.lt_or_ge t s.won.length with h | h
        · simp only [wins, List.getElem?_append_left h]
        · rw [List.getElem?_eq_none h, List.getElem?_eq_none]
          simp only [wins, List.length_append, List.length_singleton]
          omega
      · intro p' hp'
        have hne : p' ≠ p := by rintro rfl; rw [hold] at hp'; cases hp'
        simpa [wins, setProducer_of_ne s p _ hne] using hp'
  producers := by
    intro p'
    by_cases hp : p' = p
    · subst hp
      have hs := hI.slots s.won.length hI.released_le hroom
      unfold SlotOk at hs
      rw [List.getElem?_eq_none (Nat.le_refl _)] at hs
      simp only [Nat.mod_eq_of_lt hword] at hs
      simp only [wins, setProducer_self, ProducerOk]
      exact ⟨by simp, hI.released_le, hs⟩
    · have : (s.wins p item).ProducerOk p' (s.producer p') :=
        (hI.producers p').frame ⟨_, rfl⟩ rfl (Nat.le_refl _)
          (fun _ _ hh => ⟨hh.live, rfl⟩)
      simpa [wins, setProducer_of_ne s p _ hp] using this
  consumer := hI.consumer.frame ⟨_, rfl⟩ rfl rfl (fun _ => rfl)
  popped := by
    have h1 := hI.popped
    have h2 := hI.released_le
    simp only [released, wins, setProducer_popped] at *
    rw [List.take_append_of_le_length h2]
    exact h1
  pushed := by
    intro p'
    have h := hI.pushed p'
    by_cases hp : p' = p
    · subst hp
      rw [PushPc.inHand_of_ticket hold, List.append_nil] at h
      simp [wins, PushPc.inHand, h]
    · have hne : ¬ p = p' := fun h => hp h.symm
      simp [wins, setProducer_of_ne s p _ hp, hne, h]

/-- A write to a held slot leaves the slots of the other positions of the window as they were. -/
theorem Holds.node_of_ne (hI : Inv s) {p : ι} {item : T} {pos t : Nat} (h : s.Holds p item pos)
    (n : Node T) (ht : s.released ≤ t) (ht' : t < s.released + s.queue.pool_capacity_)
    (hne : t ≠ pos) : (s.queue.setNode pos n).node t = s.queue.node t :=
  s.queue.node_setNode_of_ne n
    (fun he => hne (eq_of_mod_eq ht ht' h.live (h.lt_window hI) he))

theorem Holds.node_of_other (hI : Inv s) {p p' : ι} {item item' : T} {pos pos' : Nat}
    (h : s.Holds p item pos) (n : Node T) (h' : s.Holds p' item' pos') (hne : p' ≠ p) :
    (s.queue.setNode pos n).node pos' = s.queue.node pos' :=
  s.queue.node_setNode_of_ne n (fun he => hne (h'.unique hI h he).1)

theorem Holds.node_of_published (hI : Inv s) {p : ι} {item : T} {pos : Nat}
    (h : s.Holds p item pos) (n : Node T) (hpub : s.Published) :
    (s.queue.setNode pos n).node s.released = s.queue.node s.released :=
  s.queue.node_setNode_of_ne n (fun he => hpub.not_held hI h he.symm)

/-- The state after the copy of the value into the slot. -/
def copies (s : MPSCSystem ι T) (p : ι) (item : T) (pos : Nat) : MPSCSystem ι T :=
  { s.setProducer p (.publish item pos) with
    queue := s.queue.setNode pos { s.queue.node pos with data := item } }

theorem inv_copies (hI : Inv s) {p : ι} {item : T} {pos : Nat}
    (hp : s.producer p = .copy item pos) : Inv (s.copies p item pos) := by
  have hh : s.Holds p item pos := by
    have := hI.producers p
    rwa [hp] at this
  have hself : (s.copies p item pos).queue.node pos = { s.queue.node pos with data := item } :=
    s.queue.node_setNode_of_eq _ rfl
  exact
  { allocated := hI.allocated
    two_le := hI.two_le
    lt_word := hI.lt_word
    enqueue := hI.enqueue
    tickets := hI.tickets
    released_le := hI.released_le
    le_capacity := hI.le_capacity
    slots := by
      intro t ht ht'
      have hticket : ∀ p', (s.producer p').ticket = some t →
          ((s.copies p item pos).producer p').ticket = some t := by
        intro p' hp'
        by_cases he : p' = p
        · subst he
          rw [hp] at hp'
          simpa [copies, PushPc.ticket] using hp'
        · simpa [copies, setProducer_of_ne s p _ he] using hp'
      by_cases he : t = pos
      · subst he
        unfold SlotOk
        rw [show (s.copies p item t).won = s.won from rfl, hh.won, hself]
        exact Or.inl ⟨hh.sequence, hticket p (by rw [hp]; rfl)⟩
      · exact (hI.slots t ht ht').frame rfl (hh.node_of_ne hI _ ht ht' he) hticket
    producers := by
      intro p'
      by_cases he : p' = p
      · subst he
        rw [show (s.copies p' item pos).producer p' = .publish item pos by simp [copies]]
        exact ⟨⟨hh.won, hh.live, by rw [hself]; exact hh.sequence⟩, by rw [hself]⟩
      · have : (s.copies p item pos).ProducerOk p' (s.producer p') :=
          (hI.producers p').frame (List.prefix_refl _) rfl (Nat.le_refl _)
            (fun _ _ h' => ⟨h'.live, hh.node_of_other hI _ h' he⟩)
        simpa [copies, setProducer_of_ne s p _ he] using this
    consumer := hI.consumer.frame (List.prefix_refl _) rfl rfl (hh.node_of_published hI _)
    popped := hI.popped
    pushed := by
      intro p'
      have h := hI.pushed p'
      by_cases he : p' = p
      · subst he
        rw [hp] at h
        simpa [copies, PushPc.inHand] using h
      · simpa [copies, setProducer_of_ne s p _ he] using h }

/-- The state after the producer has published its slot. -/
def publishes (s : MPSCSystem ι T) (p : ι) (item : T) (pos : Nat) : MPSCSystem ι T :=
  { s.setProducer p .idle with
    queue := s.queue.setNode pos { s.queue.node pos with sequence := pos + 1 }
    pushed := Function.update s.pushed p (s.pushed p ++ [item]) }

theorem inv_publishes (hI : Inv s) {p : ι} {item : T} {pos : Nat}
    (hp : s.producer p = .publish item pos) : Inv (s.publishes p item pos) := by
  obtain ⟨hh, hdata⟩ : s.Holds p item pos ∧ (s.queue.node pos).data = item := by
    have := hI.producers p
    rwa [hp] at this
  have hself : (s.publishes p item pos).queue.node pos =
      { s.queue.node pos with sequence := pos + 1 } := s.queue.node_setNode_of_eq _ rfl
  exact
  { allocated := hI.allocated
    two_le := hI.two_le
    lt_word := hI.lt_word
    enqueue := hI.enqueue
    tickets := hI.tickets
    released_le := hI.released_le
    le_capacity := hI.le_capacity
    slots := by
      intro t ht ht'
      by_cases he : t = pos
      · subst he
        unfold SlotOk
        rw [show (s.publishes p item t).won = s.won from rfl, hh.won, hself]
        exact Or.inr ⟨rfl, hdata⟩
      · refine (hI.slots t ht ht').frame rfl (hh.node_of_ne hI _ ht ht' he) ?_
        intro p' hp'
        have hne : p' ≠ p := by
          rintro rfl
          rw [hp] at hp'
          cases hp'
          exact he rfl
        simpa [publishes, setProducer_of_ne s p _ hne] using hp'
    producers := by
      intro p'
      by_cases he : p' = p
      · subst he
        simp [publishes, ProducerOk]
      · have : (s.publishes p item pos).ProducerOk p' (s.producer p') :=
          (hI.producers p').frame (List.prefix_refl _) rfl (Nat.le_refl _)
            (fun _ _ h' => ⟨h'.live, hh.node_of_other hI _ h' he⟩)
        simpa [publishes, setProducer_of_ne s p _ he] using this
    consumer := hI.consumer.frame (List.prefix_refl _) rfl rfl (hh.node_of_published hI _)
    popped := hI.popped
    pushed := by
      intro p'
      have h := hI.pushed p'
      by_cases he : p' = p
      · subst he
        rw [hp] at h
        simpa [publishes, PushPc.inHand] using h
      · simpa [publishes, setProducer_of_ne s p _ he, Function.update_of_ne he] using h }

/-! ## The steps of the consumer -/

theorem inv_consumer (hI : Inv s) {pc : PopPc T} (hok : s.ConsumerOk pc) :
    Inv { s with consumer := pc } where
  allocated := hI.allocated
  two_le := hI.two_le
  lt_word := hI.lt_word
  enqueue := hI.enqueue
  tickets := hI.tickets
  released_le := hI.released_le
  le_capacity := hI.le_capacity
  slots := hI.slots
  producers := fun p => (hI.producers p).frame (List.prefix_refl _) rfl (Nat.le_refl _)
    (fun _ _ hh => ⟨hh.live, rfl⟩)
  consumer := hok.frame (List.prefix_refl _) rfl rfl (fun _ => rfl)
  popped := hI.popped
  pushed := hI.pushed

/-- The store of `dequeue_pos_`, before the slot is released. -/
theorem inv_store_pos (hI : Inv s) {item : T} (hread : s.ReadOut item) :
    Inv { s with
      consumer := .release item s.released
      queue := { s.queue with dequeue_pos_ := s.released + 1 } } where
  allocated := hI.allocated
  two_le := hI.two_le
  lt_word := hI.lt_word
  enqueue := hI.enqueue
  tickets := hI.tickets
  released_le := hI.released_le
  le_capacity := hI.le_capacity
  slots := hI.slots
  producers := fun p => (hI.producers p).frame (List.prefix_refl _) rfl (Nat.le_refl _)
    (fun _ _ hh => ⟨hh.live, rfl⟩)
  consumer := ⟨rfl, rfl, hread⟩
  popped := hI.popped
  pushed := hI.pushed

/-- The state after the consumer has released the first slot of the window. -/
def releases (s : MPSCSystem ι T) (item : T) : MPSCSystem ι T :=
  { s with
    consumer := .idle
    queue := s.queue.setNode s.released
      { s.queue.node s.released with sequence := add s.released s.queue.pool_capacity_ }
    popped := s.popped ++ [item] }

theorem inv_releases (hI : Inv s) {item : T} (hc : s.consumer = .release item s.released) :
    Inv (s.releases item) := by
  obtain ⟨hdeq, -, hpub, hitem⟩ : s.ConsumerOk (.release item s.released) := hc ▸ hI.consumer
  obtain ⟨k, hk, hseq, hdata⟩ := hpub
  have hlt : s.released < s.won.length := (List.getElem?_eq_some_iff.mp hk).1
  have hcap := hI.two_le
  have hrel : (s.releases item).released = s.released + 1 := by
    simp [released, releases]
  have hnode : ∀ t, t % s.queue.pool_capacity_ ≠ s.released % s.queue.pool_capacity_ →
      (s.releases item).queue.node t = s.queue.node t :=
    fun t h => s.queue.node_setNode_of_ne _ h
  exact
  { allocated := hI.allocated
    two_le := hI.two_le
    lt_word := hI.lt_word
    enqueue := hI.enqueue
    tickets := hI.tickets
    released_le := by rw [hrel]; exact hlt
    le_capacity := by
      have := hI.le_capacity
      rw [hrel]
      simp only [releases, MPSCQueue.setNode_pool_capacity_]
      omega
    slots := by
      intro t ht ht'
      rw [hrel] at ht ht'
      change t < s.released + 1 + s.queue.pool_capacity_ at ht'
      by_cases he : t = s.released + s.queue.pool_capacity_
      · have hw : s.won[t]? = none := List.getElem?_eq_none (by have := hI.le_capacity; omega)
        have hn : (s.releases item).queue.node t =
            { s.queue.node s.released with sequence := add s.released s.queue.pool_capacity_ } :=
          s.queue.node_setNode_of_eq _ (by rw [he, Nat.add_mod_right])
        unfold SlotOk
        rw [show (s.releases item).won = s.won from rfl, hw, hn, he]
        rfl
      · refine (hI.slots t (by omega) (by omega)).frame rfl (hnode t ?_) (fun _ h => h)
        intro hmod
        have := eq_of_mod_eq (by omega) (by omega) (Nat.le_refl s.released) (by omega) hmod
        omega
    producers := by
      intro p
      refine (hI.producers p).frame (List.prefix_refl _) rfl (by omega) ?_
      intro item' pos hh
      have hne := Published.not_held hI ⟨k, hk, hseq, hdata⟩ hh
      refine ⟨?_, hnode pos hne⟩
      have hlive := hh.live
      have : pos ≠ s.released := fun he => hne (by rw [he])
      omega
    consumer := by
      change s.queue.dequeue_pos_ = (s.releases item).released
      rw [hrel, hdeq]
    popped := by
      have hget : s.won[s.released] = k := (List.getElem?_eq_some_iff.mp hk).2
      rw [hrel]
      simp only [releases]
      rw [List.take_add_one, hk, Option.toList_some, List.map_append, ← hI.popped]
      simp [← hdata, hitem]
    pushed := hI.pushed }

/-! ## Every step keeps the invariant -/

theorem released_lt_of_inv (hI : Inv s) (hb : s.won.length < 2 ^ 63) : s.released + 1 < wordSize := by
  have := hI.released_le
  simp only [wordSize]
  omega

theorem sequence_lt_word (hI : Inv s) (hb : s.won.length < 2 ^ 63) (pos : Nat) :
    (s.queue.node pos).sequence < wordSize := by
  have hword : (2 : Nat) ^ 63 < wordSize := by decide
  obtain ⟨t, -, -, -, ⟨-, hseq⟩ | ⟨ht, hseq | hseq⟩⟩ := exists_slot hI pos
  · rw [hseq]
    exact Nat.mod_lt _ (by decide)
  · omega
  · omega

theorem inv_Push (hI : Inv s) (hb : s.won.length < 2 ^ 63) {p : ι} {weak : Bool}
    {s' : MPSCSystem ι T} (hstep : s.Push p weak = some s') : Inv s' := by
  have hok := hI.producers p
  unfold MPSCSystem.Push at hstep
  cases hp : s.producer p with
  | idle => rw [hp] at hstep; cases hstep
  | load_pos item =>
    have ht : (s.producer p).ticket = none := by rw [hp]; rfl
    rw [hp] at hstep
    simp only [hI.allocated, if_true, Option.some.injEq] at hstep
    subst hstep
    exact inv_setProducer hI ht rfl (by simp [ProducerOk, hI.enqueue])
  | load_sequence item pos =>
    have ht : (s.producer p).ticket = none := by rw [hp]; rfl
    rw [hp] at hstep hok
    simp only [ProducerOk] at hok
    simp only at hstep
    split_ifs at hstep with hzero hneg
    · cases hstep
      have hseq : (s.queue.node pos).sequence = pos :=
        (difference_eq_zero_iff (sequence_lt_word hI hb pos)
          (by simp only [wordSize]; omega)).mp hzero
      exact inv_setProducer hI ht rfl (lt_of_sequence_eq hI hseq)
    · cases hstep
      exact inv_setProducer hI ht rfl trivial
    · cases hstep
      exact inv_setProducer hI ht rfl trivial
  | compare_exchange item pos =>
    have ht : (s.producer p).ticket = none := by rw [hp]; rfl
    rw [hp] at hstep hok
    simp only [ProducerOk] at hok
    simp only at hstep
    split_ifs at hstep with hwin
    · cases hstep
      have hpos : pos = s.won.length := by rw [← hwin.1, hI.enqueue]
      subst hpos
      have hw : s.won.length + 1 < wordSize := by simp only [wordSize]; omega
      rw [add_of_lt hw]
      exact inv_wins hI ht hok (by omega)
    · cases hstep
      exact inv_setProducer hI ht rfl (by simp [ProducerOk, hI.enqueue])
  | copy item pos =>
    rw [hp] at hstep
    cases hstep
    exact inv_copies hI hp
  | publish item pos =>
    rw [hp] at hstep hok
    have hlt : pos + 1 < wordSize := by
      have := hok.1.lt_length
      simp only [wordSize]
      omega
    simp only [add_of_lt hlt] at hstep
    cases hstep
    exact inv_publishes hI hp

theorem inv_Pop (hI : Inv s) (hb : s.won.length < 2 ^ 63) {s' : MPSCSystem ι T}
    (hstep : s.Pop = some s') : Inv s' := by
  have hok := hI.consumer
  have hword := released_lt_of_inv hI hb
  unfold MPSCSystem.Pop at hstep
  cases hc : s.consumer with
  | idle => rw [hc] at hstep; cases hstep
  | load_pos =>
    rw [hc] at hstep hok
    simp only [hI.allocated, if_true, Option.some.injEq] at hstep
    subst hstep
    exact inv_consumer hI ⟨hok, hok⟩
  | load_sequence pos =>
    rw [hc] at hstep hok
    obtain ⟨hdeq, rfl⟩ := hok
    simp only [add_of_lt hword] at hstep
    split_ifs at hstep with hdiff
    · cases hstep
      exact inv_consumer hI hdeq
    · cases hstep
      have hseq : (s.queue.node s.released).sequence = s.released + 1 :=
        (difference_eq_zero_iff (sequence_lt_word hI hb _) hword).mp (not_not.mp hdiff)
      refine inv_consumer hI ⟨hdeq, rfl, ?_⟩
      have hcap := hI.two_le
      have hs := hI.slots s.released (Nat.le_refl _) (by omega)
      unfold SlotOk at hs
      cases hk : s.won[s.released]? with
      | none =>
        rw [hk] at hs
        simp only [Nat.mod_eq_of_lt (by omega : s.released < wordSize)] at hs
        omega
      | some k =>
        rw [hk] at hs
        rcases hs with ⟨hs, -⟩ | ⟨-, hdata⟩
        · omega
        · exact ⟨k, hk, hseq, hdata⟩
  | copy pos =>
    rw [hc] at hstep hok
    obtain ⟨hdeq, rfl, hpub⟩ := hok
    cases hstep
    exact inv_consumer hI ⟨hdeq, rfl, hpub, rfl⟩
  | store_pos item pos =>
    rw [hc] at hstep hok
    obtain ⟨hdeq, rfl, hread⟩ := hok
    simp only [add_of_lt hword] at hstep
    cases hstep
    exact inv_store_pos hI hread
  | release item pos =>
    rw [hc] at hstep hok
    obtain ⟨-, rfl, -⟩ := hok
    cases hstep
    exact inv_releases hI hc

theorem inv_step (hI : Inv s) (hb : s.won.length < 2 ^ 63) {a : MPSCAction ι T}
    {s' : MPSCSystem ι T} (hstep : s.step a = some s') : Inv s' := by
  cases a with
  | push p item =>
    simp only [step] at hstep
    cases hp : s.producer p with
    | idle =>
      rw [hp] at hstep
      cases hstep
      exact inv_setProducer hI (by rw [hp]; rfl) rfl trivial
    | _ => rw [hp] at hstep; cases hstep
  | producer p weak => exact inv_Push hI hb hstep
  | pop =>
    have hok := hI.consumer
    simp only [step] at hstep
    cases hc : s.consumer with
    | idle =>
      rw [hc] at hstep hok
      cases hstep
      exact inv_consumer hI hok
    | _ => rw [hc] at hstep; cases hstep
  | consumer => exact inv_Pop hI hb hstep

/-- No step takes a ticket back. -/
theorem won_prefix_of_step {a : MPSCAction ι T} {s' : MPSCSystem ι T}
    (hstep : s.step a = some s') : s.won <+: s'.won := by
  cases a with
  | push p item =>
    simp only [step] at hstep
    split at hstep
    · cases hstep; exact List.prefix_refl _
    · cases hstep
  | producer p weak =>
    simp only [step, MPSCSystem.Push] at hstep
    split at hstep
    · cases hstep
    · split_ifs at hstep <;> cases hstep <;> exact List.prefix_refl _
    · split_ifs at hstep <;> cases hstep <;> exact List.prefix_refl _
    · split_ifs at hstep
      · cases hstep; exact List.prefix_append _ _
      · cases hstep; exact List.prefix_refl _
    · cases hstep; exact List.prefix_refl _
    · cases hstep; exact List.prefix_refl _
  | pop =>
    simp only [step] at hstep
    split at hstep
    · cases hstep; exact List.prefix_refl _
    · cases hstep
  | consumer =>
    simp only [step, MPSCSystem.Pop] at hstep
    split at hstep
    · cases hstep
    all_goals first
      | (cases hstep; exact List.prefix_refl _)
      | (split_ifs at hstep <;> cases hstep <;> exact List.prefix_refl _)

/-- In every run with fewer than `2^63` pushes, every state keeps the invariant. -/
theorem inv_run (q : MPSCQueue T) {c : Nat} (fresh : Nat → T) (hc : 2 ≤ c) (hw : c < wordSize)
    {as : List (MPSCAction ι T)} {s' : MPSCSystem ι T}
    (hr : run step (start (q.Init c fresh).2) as = some s') (hb : s'.won.length < 2 ^ 63) :
    Inv s' := by
  have hinv : s'.won.length < 2 ^ 63 → Inv s' := by
    refine invariant_of_run (I := fun s => s.won.length < 2 ^ 63 → Inv s) ?_ ?_ hr
    · intro s a t hs hstep ht
      have hle := (won_prefix_of_step hstep).length_le
      exact inv_step (hs (by omega)) (by omega) hstep
    · intro _
      exact inv_start q c fresh hc hw
  exact hinv hb

/-! ## The laws -/

theorem raceFree_of_inv (hI : Inv s) : s.RaceFree := by
  have hholds : ∀ p i, s.Writes p i →
      ∃ item pos, s.Holds p item pos ∧ pos % s.queue.pool_capacity_ = i := by
    rintro p i ⟨item, pos, hp, hi⟩
    have hok := hI.producers p
    rw [hp] at hok
    exact ⟨item, pos, hok, hi⟩
  intro p i hw
  obtain ⟨item, pos, hh, hi⟩ := hholds p i hw
  constructor
  · rintro ⟨pos', hc, hi'⟩
    have hok := hI.consumer
    rw [hc] at hok
    obtain ⟨-, rfl, hpub⟩ := hok
    exact hpub.not_held hI hh (hi.trans hi'.symm)
  · intro p' hw'
    obtain ⟨item', pos', hh', hi'⟩ := hholds p' i hw'
    exact (hh'.unique hI hh (hi'.trans hi.symm)).1

/-- A popped value of a producer is of a call that returned, so the popped values of one
producer are the first of the values that it pushed. -/
theorem popped_of_producer (hI : Inv s) (p : ι) :
    ((s.won.take s.released).filter (fun k => k.producer = p)).map (·.item) <+: s.pushed p := by
  have hsplit : ((s.won.take s.released).filter (fun k => k.producer = p)).map (·.item) ++
      ((s.won.drop s.released).filter (fun k => k.producer = p)).map (·.item) =
      s.pushed p ++ (s.producer p).inHand := by
    rw [← hI.pushed p, ← List.map_append, ← List.filter_append, List.take_append_drop]
  cases ht : (s.producer p).ticket with
  | none =>
    rw [PushPc.inHand_of_ticket ht, List.append_nil] at hsplit
    exact ⟨_, hsplit⟩
  | some pos =>
    obtain ⟨item, hh⟩ := holds_of_ticket hI ht
    have hone : (s.producer p).inHand.length = 1 := by
      cases hp : s.producer p <;> rw [hp] at ht <;> first | cases ht; rfl | cases ht
    -- the ticket in hand is not released, so it is in the part that is dropped
    have hmem : (⟨pos, p, item⟩ : Ticket ι T) ∈ s.won.drop s.released := by
      refine List.mem_iff_getElem?.mpr ⟨pos - s.released, ?_⟩
      have hlive := hh.live
      rw [List.getElem?_drop, show s.released + (pos - s.released) = pos by omega, hh.won]
    have hpos : 0 < (((s.won.drop s.released).filter (fun k => k.producer = p)).map
        (·.item)).length := by
      rw [List.length_map, List.length_pos_iff_exists_mem]
      exact ⟨_, List.mem_filter.mpr ⟨hmem, by simp⟩⟩
    have hlen := congrArg List.length hsplit
    rw [List.length_append, List.length_append] at hlen
    exact List.prefix_of_prefix_length_le ⟨_, hsplit⟩ ⟨_, rfl⟩ (by omega)

/-- In every run of any number of producers and one consumer, with fewer than `2^63` pushes:
the positions are won in order, the popped values are a prefix of the pushed values in the order
of their positions, the popped values of a producer are a prefix of the values it pushed, and no
slot is written while another thread reads or writes it. -/
theorem pops_are_a_prefix_of_the_pushes_in_ticket_order (q : MPSCQueue T) (c : Nat)
    (fresh : Nat → T) (hc : 2 ≤ c) (hw : c < wordSize) (as : List (MPSCAction ι T))
    (s : MPSCSystem ι T) (hr : run step (start (q.Init c fresh).2) as = some s)
    (hb : s.won.length < 2 ^ 63) :
    s.won.map (·.pos) = List.range s.won.length ∧
    s.popped <+: s.won.map (·.item) ∧
    (∀ p, (s.won.filter (fun k => k.producer = p)).map (·.item) =
      s.pushed p ++ (s.producer p).inHand) ∧
    (∀ p, ((s.won.take s.popped.length).filter (fun k => k.producer = p)).map (·.item) <+:
      s.pushed p) ∧
    s.RaceFree := by
  have hI := inv_run q fresh hc hw hr hb
  refine ⟨?_, ?_, hI.pushed, popped_of_producer hI, raceFree_of_inv hI⟩
  · apply List.ext_getElem
    · simp
    · intro i h1 h2
      simp only [List.length_map] at h1
      simp only [List.getElem_map, List.getElem_range]
      exact hI.tickets i _ (List.getElem?_eq_getElem h1)
  · rw [hI.popped]
    exact (List.take_prefix _ _).map _

/-- Two producers of a queue of two slots: the second wins the first position while the first
is at its compare-exchange, and the consumer pops its value. -/
theorem pops_are_a_prefix_with_two_producers :
    ∃ (q : MPSCQueue Nat) (as : List (MPSCAction Bool Nat)) (s : MPSCSystem Bool Nat),
      run step (start (q.Init 2 fun _ => 0).2) as = some s ∧
      s.popped = [8] ∧ s.popped <+: s.won.map (·.item) ∧ s.RaceFree := by
  have hr : run step
      (start ((⟨false, fun _ => ⟨0, 0⟩, 0, 0, 0⟩ : MPSCQueue Nat).Init 2 fun _ => 0).2)
      [.push false 7, .push true 8, .producer false false, .producer false false,
        .producer true false, .producer true false, .producer true false,
        .producer false false, .producer true false, .producer true false,
        .pop, .consumer, .consumer, .consumer, .consumer, .consumer] = some _ := rfl
  have h := pops_are_a_prefix_of_the_pushes_in_ticket_order _ 2 _ (by decide) (by decide) _ _
    hr (by decide)
  exact ⟨_, _, _, hr, rfl, h.2.1, h.2.2.2.2⟩

end MPSCSystem

end sci.bridges
