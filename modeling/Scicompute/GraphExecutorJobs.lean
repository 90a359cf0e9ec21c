-- The jobs of a call of `execute`. A task that the call has picked is with the
-- calling thread, in the queue, with one worker, counted, or lost, and never in two of these
-- places. Each step of a job keeps that, and changes the state of its own task only.
import Scicompute.Holding
import Scicompute.GraphExecutor

open Holding

namespace sci

open sci.Task (Id)

variable {ι : Type*}

/-! ## Who has a job -/

inductive Thread (ι : Type*)
  | caller
  | queue
  | worker (w : ι)
  deriving DecidableEq

inductive Holder (ι : Type*)
  | thread (t : Thread ι)
  | counted
  | lost

/-- The tasks that each thread holds, and those that the call is done with. -/
def holds (m : Memory) (jobs : Thread ι → List (Id × JobPc)) : Holder ι → List Id
  | .thread t => (jobs t).map Prod.fst
  | .counted => m.counted
  | .lost => m.lost

/-- The task may be picked: it was pending, and its dependencies are completed. -/
def Ready (g : TaskGraph) (m : Memory) (id : Id) : Prop :=
  id ∈ g.tasks_ ∧ m.initial id = .kPending ∧
    ∀ dep ∈ g.get_dependencies id, dep ∈ g.tasks_ ∧ m.status dep = .kCompleted

/-- How far the run of the task is when its job stands there. -/
def JobOk (m : Memory) (id : Id) : JobPc → Prop
  | .execute => id ∉ m.started ∧ id ∉ m.ended
  | .run => id ∉ m.ended
  | .set_status status => id ∉ m.ended ∧ (status = .kCompleted ∨ status = .kFailed)
  | _ => id ∈ m.ended

/-- What holds of the jobs throughout a call. -/
structure Facts (g : TaskGraph) (m : Memory) (jobs : Thread ι → List (Id × JobPc)) : Prop where
  apart : Apart (holds m jobs)
  sets : ∀ id, id ∈ m.running_tasks_ ∨ id ∈ m.completed_tasks_ ↔ ∃ h, id ∈ holds m jobs h
  count : m.completed_ = m.counted.length
  ready : ∀ h, ∀ id ∈ holds m jobs h, Ready g m id
  job : ∀ t, ∀ j ∈ jobs t, JobOk m j.1 j.2
  past : ∀ id, id ∈ m.counted ∨ id ∈ m.lost → id ∈ m.ended
  untouched : ∀ id, id ∉ m.ended → m.status id = m.initial id
  written : ∀ id, m.status id = m.initial id ∨ m.status id ≠ .kPending
  nodup : m.started.Nodup
  known : ∀ id, id ∈ m.started ∨ id ∈ m.ended → ∃ h, id ∈ holds m jobs h

/-! ## What a step of a job changes -/

/-- Memory that differs in the state of one task only, and keeps what was completed. -/
structure OnlyAt (id : Id) (m m' : Memory) : Prop where
  initial : m'.initial = m.initial
  status : ∀ x, x ≠ id → m'.status x = m.status x
  started : ∀ x, x ≠ id → (x ∈ m'.started ↔ x ∈ m.started)
  ended : ∀ x, x ≠ id → (x ∈ m'.ended ↔ x ∈ m.ended)
  sets : ∀ x, (x ∈ m'.running_tasks_ ∨ x ∈ m'.completed_tasks_) ↔
    (x ∈ m.running_tasks_ ∨ x ∈ m.completed_tasks_)
  cancelled : m'.cancelled_ = m.cancelled_

/-- What `execute` relies on while others run: what was completed, counted or cancelled stays so. -/
structure Later (m m' : Memory) : Prop where
  initial : m'.initial = m.initial
  completed : ∀ id, m.status id = .kCompleted → m'.status id = .kCompleted
  counted : m.counted.length ≤ m'.counted.length
  cancelled : m.cancelled_ = true → m'.cancelled_ = true

theorem Later.ready {g : TaskGraph} {m m' : Memory} (h : Later m m') {id : Id}
    (hr : Ready g m id) : Ready g m' id := by
  obtain ⟨h1, h2, h3⟩ := hr
  exact ⟨h1, by rw [h.initial, h2], fun dep hd => ⟨(h3 dep hd).1, h.completed dep (h3 dep hd).2⟩⟩

theorem JobOk.frame {id x : Id} {m m' : Memory} (h : OnlyAt id m m') (hne : x ≠ id) {pc : JobPc}
    (hok : JobOk m x pc) : JobOk m' x pc := by
  have hs := h.started x hne
  have he := h.ended x hne
  cases pc with
  | execute => exact ⟨fun hm => hok.1 (hs.mp hm), fun hm => hok.2 (he.mp hm)⟩
  | run => exact fun hm => hok (he.mp hm)
  | set_status status => exact ⟨fun hm => hok.1 (he.mp hm), hok.2⟩
  | _ => exact he.mpr hok

variable {g : TaskGraph} {m m' : Memory} {jobs : Thread ι → List (Id × JobPc)}

theorem Facts.ne (h : Facts g m jobs) {t u : Thread ι} {i j : Id × JobPc} (hi : i ∈ jobs t)
    (hj : j ∈ jobs u) (htu : u ≠ t) : j.1 ≠ i.1 := by
  intro he
  have h1 : i.1 ∈ holds m jobs (.thread t) := List.mem_map_of_mem hi
  have h2 : i.1 ∈ holds m jobs (.thread u) := he ▸ List.mem_map_of_mem hj
  cases h.apart.unique h1 h2
  exact htu rfl

/-! ## The steps of a job -/

variable [DecidableEq ι] {t : Thread ι} {id : Id} {pc : JobPc}

/-- What a thread does next with its job, or nothing of it that counts. -/
def rest (id : Id) (next : Option JobPc) : List (Id × JobPc) :=
  (next.filter fun pc => ExecutorSystem.uncounted pc).toList.map (id, ·)

theorem Facts.of_only (h : Facts g m jobs) (hj : jobs t = [(id, pc)]) (honly : OnlyAt id m m')
    (hlater : Later m m') {l : List (Id × JobPc)} (hl : ∀ j ∈ l, j.1 = id ∧ JobOk m' id j.2)
    (hapart : Apart (holds m' (Function.update jobs t l)))
    (hmem : ∀ x, (∃ k, x ∈ holds m' (Function.update jobs t l) k) ↔ ∃ k, x ∈ holds m jobs k)
    (hcount : m'.completed_ = m'.counted.length)
    (hpast : ∀ x, x ∈ m'.counted ∨ x ∈ m'.lost → x ∈ m'.ended)
    (huntouched : id ∉ m'.ended → m'.status id = m'.initial id)
    (hwritten : m'.status id = m'.initial id ∨ m'.status id ≠ .kPending)
    (hnodup : m'.started.Nodup) : Facts g m' (Function.update jobs t l) := by
  have hid : (id, pc) ∈ jobs t := by rw [hj]; exact List.mem_singleton_self _
  refine ⟨hapart, ?_, hcount, ?_, ?_, hpast, ?_, ?_, hnodup, ?_⟩
  · intro x
    rw [honly.sets, h.sets, hmem]
  · intro k x hx
    obtain ⟨k', hk'⟩ := (hmem x).mp ⟨k, hx⟩
    exact hlater.ready (h.ready k' x hk')
  · intro u j hu
    by_cases hut : u = t
    · subst hut
      rw [Function.update_self] at hu
      obtain ⟨h1, h2⟩ := hl j hu
      rw [h1]
      exact h2
    · rw [Function.update_of_ne hut] at hu
      exact (h.job u j hu).frame honly (h.ne hid hu hut)
  · intro x hx
    by_cases hxi : x = id
    · subst hxi
      exact huntouched hx
    · rw [honly.status x hxi, honly.initial]
      exact h.untouched x (fun hm => hx ((honly.ended x hxi).mpr hm))
  · intro x
    by_cases hxi : x = id
    · subst hxi
      exact hwritten
    · rw [honly.status x hxi, honly.initial]
      exact h.written x
  · intro x hx
    rw [hmem]
    by_cases hxi : x = id
    · subst hxi
      exact ⟨.thread t, List.mem_map_of_mem hid⟩
    · rw [honly.started x hxi, honly.ended x hxi] at hx
      exact h.known x hx

/-- The job goes on with the same thread. -/
theorem Facts.keep (h : Facts g m jobs) (hj : jobs t = [(id, pc)]) (honly : OnlyAt id m m')
    (hlater : Later m m') {pc' : JobPc} (hok : JobOk m' id pc')
    (hcounted : m'.counted = m.counted) (hlost : m'.lost = m.lost)
    (hcompleted : m'.completed_ = m.completed_) (hended : ∀ x, x ∈ m.ended → x ∈ m'.ended)
    (huntouched : id ∉ m'.ended → m'.status id = m'.initial id)
    (hwritten : m'.status id = m'.initial id ∨ m'.status id ≠ .kPending)
    (hnodup : m'.started.Nodup) : Facts g m' (Function.update jobs t [(id, pc')]) := by
  have hsame : holds m' (Function.update jobs t [(id, pc')]) = holds m jobs := by
    funext k
    cases k with
    | thread u =>
      by_cases hu : u = t
      · subst hu
        simp [holds, hj]
      · simp [holds, hu]
    | counted => exact hcounted
    | lost => exact hlost
  refine h.of_only hj honly hlater ?_ ?_ ?_ ?_ ?_ huntouched hwritten hnodup
  · intro j hm
    rw [List.mem_singleton] at hm
    subst hm
    exact ⟨rfl, hok⟩
  · rw [hsame]
    exact h.apart
  · intro x
    rw [hsame]
  · rw [hcompleted, hcounted]
    exact h.count
  · intro x hx
    rw [hcounted, hlost] at hx
    exact hended x (h.past x hx)

/-- The thread is done with its job, which is now counted, or lost. -/
theorem Facts.leave (h : Facts g m jobs) (hj : jobs t = [(id, pc)]) (honly : OnlyAt id m m')
    (hlater : Later m m') {k : Holder ι}
    (hk : (k = .counted ∧ m'.counted = id :: m.counted ∧ m'.lost = m.lost) ∨
      (k = .lost ∧ m'.counted = m.counted ∧ m'.lost = id :: m.lost))
    (hcount : m'.completed_ = m'.counted.length) (hended : ∀ x, x ∈ m.ended → x ∈ m'.ended)
    (hid : id ∈ m'.ended) (hwritten : m'.status id = m'.initial id ∨ m'.status id ≠ .kPending)
    (hnodup : m'.started.Nodup) : Facts g m' (Function.update jobs t []) := by
  have hne : (Holder.thread t : Holder ι) ≠ k := by
    rcases hk with ⟨rfl, -, -⟩ | ⟨rfl, -, -⟩ <;> simp
  have hfrom : (holds m jobs (.thread t)).Perm
      (id :: holds m' (Function.update jobs t []) (.thread t)) := by
    simp [holds, hj]
  have hto : (holds m' (Function.update jobs t []) k).Perm (id :: holds m jobs k) := by
    rcases hk with ⟨rfl, hc, -⟩ | ⟨rfl, -, hl⟩
    · simp [holds, hc]
    · simp [holds, hl]
  have hother : ∀ j, j ≠ .thread t → j ≠ k →
      holds m' (Function.update jobs t []) j = holds m jobs j := by
    intro j hj1 hj2
    cases j with
    | thread u =>
      have hu : u ≠ t := fun he => hj1 (he ▸ rfl)
      simp [holds, hu]
    | counted =>
      rcases hk with ⟨rfl, -, -⟩ | ⟨rfl, hc, -⟩
      · exact absurd rfl hj2
      · exact hc
    | lost =>
      rcases hk with ⟨rfl, -, hl⟩ | ⟨rfl, -, -⟩
      · exact hl
      · exact absurd rfl hj2
  refine h.of_only hj honly hlater (fun j hm => by cases hm) (h.apart.move hne hfrom hto hother)
    (exists_mem_move hne hfrom hto hother) hcount ?_ (fun hm => absurd hid hm) hwritten hnodup
  intro x hx
  have : x = id ∨ x ∈ m.counted ∨ x ∈ m.lost := by
    rcases hk with ⟨-, hc, hl⟩ | ⟨-, hc, hl⟩
    · rw [hc, hl, List.mem_cons] at hx
      tauto
    · rw [hc, hl, List.mem_cons] at hx
      tauto
  rcases this with rfl | hx
  · exact hid
  · exact hended x (h.past x hx)

/-- Only the state of the task of the job changes. -/
theorem runJob_onlyAt {o : Outcome} {next : Option JobPc}
    (hin : id ∈ m.running_tasks_ ∨ id ∈ m.completed_tasks_)
    (hr : runJob m id o pc = some (m', next)) : OnlyAt id m m' := by
  have hcons : ∀ (l : List Id) (x : Id), x ≠ id → (x ∈ id :: l ↔ x ∈ l) := by
    intro l x hx
    rw [List.mem_cons, or_iff_right hx]
  have hnone : ∀ l : List Id, ∀ x, x ≠ id → (x ∈ l ↔ x ∈ l) := fun _ _ _ => Iff.rfl
  cases pc with
  | execute =>
    cases hr
    exact ⟨rfl, fun _ _ => rfl, hcons _, hnone _, fun _ => Iff.rfl, rfl⟩
  | run =>
    simp only [runJob] at hr
    split at hr
    · cases hr
      exact ⟨rfl, fun _ _ => rfl, hnone _, hnone _, fun _ => Iff.rfl, rfl⟩
    · cases hr
      exact ⟨rfl, fun _ _ => rfl, hnone _, hcons _, fun _ => Iff.rfl, rfl⟩
  | set_status status =>
    cases hr
    exact ⟨rfl, fun x hx => Function.update_of_ne hx _ _, hnone _, hcons _, fun _ => Iff.rfl, rfl⟩
  | lock =>
    simp only [runJob] at hr
    split_ifs at hr
    cases hr
    exact ⟨rfl, fun _ _ => rfl, hnone _, hnone _, fun _ => Iff.rfl, rfl⟩
  | mark =>
    cases hr
    refine ⟨rfl, fun _ _ => rfl, hnone _, hnone _, ?_, rfl⟩
    intro x
    by_cases hx : x = id
    · subst hx
      simpa using hin
    · simp [hx]
  | _ =>
    cases hr
    exact ⟨rfl, fun _ _ => rfl, hnone _, hnone _, fun _ => Iff.rfl, rfl⟩

omit [DecidableEq ι] in
/-- The task of a job is completed by its own run only. -/
theorem Facts.later (h : Facts g m jobs) (hj : jobs t = [(id, pc)]) {o : Outcome}
    {next : Option JobPc} (hr : runJob m id o pc = some (m', next)) : Later m m' := by
  have hid : (id, pc) ∈ jobs t := by rw [hj]; exact List.mem_singleton_self _
  cases pc with
  | set_status status =>
    cases hr
    refine ⟨rfl, ?_, Nat.le_refl _, fun hc => hc⟩
    intro x hx
    -- the task is still pending
    have hne : x ≠ id := by
      rintro rfl
      have hpend := (h.ready (.thread t) x (List.mem_map_of_mem hid)).2.1
      rw [h.untouched x (h.job t _ hid).1, hpend] at hx
      cases hx
    exact (Function.update_of_ne hne _ _).trans hx
  | run =>
    simp only [runJob] at hr
    split at hr
    all_goals
      cases hr
      exact ⟨rfl, fun _ hx => hx, Nat.le_refl _, fun hc => hc⟩
  | lock =>
    simp only [runJob] at hr
    split_ifs at hr
    cases hr
    exact ⟨rfl, fun _ hx => hx, Nat.le_refl _, fun hc => hc⟩
  | add_completed =>
    cases hr
    exact ⟨rfl, fun _ hx => hx, Nat.le_succ _, fun hc => hc⟩
  | _ =>
    cases hr
    exact ⟨rfl, fun _ hx => hx, Nat.le_refl _, fun hc => hc⟩

/-- A step of a job keeps the facts. -/
theorem Facts.runJob (h : Facts g m jobs) (hj : jobs t = [(id, pc)])
    (hpc : ExecutorSystem.uncounted pc = true) {o : Outcome} {next : Option JobPc}
    (hr : runJob m id o pc = some (m', next)) :
    Facts g m' (Function.update jobs t (rest id next)) := by
  have hid : (id, pc) ∈ jobs t := by rw [hj]; exact List.mem_singleton_self _
  have hheld : id ∈ holds m jobs (.thread t) := List.mem_map_of_mem hid
  have honly := runJob_onlyAt ((h.sets id).mpr ⟨_, hheld⟩) hr
  have hlater := h.later hj hr
  have hok := h.job t _ hid
  have hself : ∀ x, x ∈ m.ended → x ∈ m.ended := fun _ hx => hx
  have hmore : ∀ x, x ∈ m.ended → x ∈ id :: m.ended := fun _ hx => List.mem_cons_of_mem _ hx
  have hfirst : id ∈ id :: m.ended := List.mem_cons_self ..
  cases pc with
  | execute =>
    cases hr
    exact h.keep hj honly hlater hok.2 rfl rfl rfl hself (h.untouched id) (h.written id)
      (List.nodup_cons.mpr ⟨hok.1, h.nodup⟩)
  | run =>
    simp only [sci.runJob] at hr
    split at hr
    · rename_i status hst
      cases hr
      refine h.keep hj honly hlater ⟨hok, ?_⟩ rfl rfl rfl hself (h.untouched id) (h.written id)
        h.nodup
      revert hst
      unfold FunctionalTask.execute
      split <;> simp_all
    · cases hr
      exact h.leave hj honly hlater (Or.inr ⟨rfl, rfl, rfl⟩) h.count hmore hfirst (h.written id)
        h.nodup
  | set_status status =>
    cases hr
    refine h.keep hj honly hlater hfirst rfl rfl rfl hmore (fun hm => absurd hfirst hm) (Or.inr ?_)
      h.nodup
    change Function.update m.status id status id ≠ _
    rw [Function.update_self]
    rcases hok.2 with rfl | rfl <;> simp
  | lock =>
    simp only [sci.runJob] at hr
    split_ifs at hr
    cases hr
    exact h.keep hj honly hlater hok rfl rfl rfl hself (h.untouched id) (h.written id) h.nodup
  | mark =>
    cases hr
    exact h.keep hj honly hlater hok rfl rfl rfl hself (h.untouched id) (h.written id) h.nodup
  | sub_running =>
    cases hr
    exact h.keep hj honly hlater hok rfl rfl rfl hself (h.untouched id) (h.written id) h.nodup
  | add_completed =>
    cases hr
    refine h.leave hj honly hlater (Or.inl ⟨rfl, rfl, rfl⟩) ?_ hself hok (h.written id) h.nodup
    rw [h.count]
    rfl
  | unlock => cases hpc
  | notify => cases hpc

/-- `Q` holds of every status that a run stored or is about to store. -/
def Stored (Q : Id → Task.Status → Prop) (m : Memory) (jobs : Thread ι → List (Id × JobPc)) :
    Prop :=
  (∀ t id status, (id, .set_status status) ∈ jobs t → Q id status) ∧
    ∀ id ∈ m.ended, id ∉ m.lost → Q id (m.status id)

theorem Stored.runJob {Q : Id → Task.Status → Prop} (h : Stored Q m jobs)
    (hj : jobs t = [(id, pc)]) {o : Outcome} {next : Option JobPc}
    (hq : pc = .run → ∀ status, FunctionalTask.execute o = some status → Q id status)
    (hr : runJob m id o pc = some (m', next)) :
    Stored Q m' (Function.update jobs t (rest id next)) := by
  have hother : ∀ l : List (Id × JobPc), (∀ status, (id, .set_status status) ∈ l → Q id status) →
      (∀ j ∈ l, j.1 = id) →
      ∀ u x status, (x, .set_status status) ∈ Function.update jobs t l u → Q x status := by
    intro l hl hfst u x status hm
    by_cases hu : u = t
    · subst hu
      rw [Function.update_self] at hm
      cases hfst _ hm
      exact hl status hm
    · rw [Function.update_of_ne hu] at hm
      exact h.1 u x status hm
  have hrest : ∀ j ∈ rest id next, j.1 = id := by
    intro j hm
    obtain ⟨pc', -, rfl⟩ := List.mem_map.mp hm
    rfl
  cases pc with
  | run =>
    simp only [sci.runJob] at hr
    split at hr
    · rename_i status hst
      cases hr
      refine ⟨hother _ ?_ hrest, h.2⟩
      intro status' hm
      simp only [rest, ExecutorSystem.uncounted, Option.filter, Option.toList, List.map_cons,
        List.map_nil, if_true, List.mem_singleton, Prod.mk.injEq, JobPc.set_status.injEq,
        true_and] at hm
      subst hm
      exact hq rfl _ hst
    · cases hr
      refine ⟨hother _ (fun status hm => by cases hm) hrest, ?_⟩
      intro x hx hl
      rw [List.mem_cons, not_or] at hl
      exact h.2 x ((List.mem_cons.mp hx).resolve_left hl.1) hl.2
  | set_status status =>
    cases hr
    have hstatus : Q id status := h.1 t id status (by rw [hj]; exact List.mem_singleton_self _)
    refine ⟨hother _ ?_ hrest, ?_⟩
    · intro status' hm
      simp [rest, ExecutorSystem.uncounted] at hm
    · intro x hx hl
      by_cases hxi : x = id
      · subst hxi
        simpa using hstatus
      · simp only [Function.update_of_ne hxi]
        exact h.2 x ((List.mem_cons.mp hx).resolve_left hxi) hl
  | lock =>
    simp only [sci.runJob] at hr
    split_ifs at hr
    cases hr
    refine ⟨hother _ ?_ hrest, h.2⟩
    intro status' hm
    simp [rest, ExecutorSystem.uncounted] at hm
  | _ =>
    cases hr
    refine ⟨hother _ ?_ hrest, h.2⟩
    intro status' hm
    simp [rest, ExecutorSystem.uncounted] at hm

/-! ## The steps that hand jobs over -/

omit [DecidableEq ι] in
/-- The lock, the count of running tasks and the request to cancel are no part of the facts. -/
theorem Facts.flags (h : Facts g m jobs) (mtx cancelled : Bool) (running : Nat) :
    Facts g { m with mtx_ := mtx, cancelled_ := cancelled, running_ := running } jobs :=
  ⟨h.apart, h.sets, h.count, h.ready, h.job, h.past, h.untouched, h.written, h.nodup, h.known⟩

omit [DecidableEq ι] in
/-- One thread gives a job to another. -/
theorem Facts.pass (h : Facts g m jobs) {jobs' : Thread ι → List (Id × JobPc)} {a b : Thread ι}
    (hab : a ≠ b) (ha : (jobs a).Perm ((id, pc) :: jobs' a))
    (hb : (jobs' b).Perm ((id, pc) :: jobs b))
    (hother : ∀ u, u ≠ a → u ≠ b → jobs' u = jobs u) : Facts g m jobs' := by
  have hne : (Holder.thread a : Holder ι) ≠ .thread b := fun he => hab (Holder.thread.inj he)
  have ha' : (holds m jobs (.thread a)).Perm (id :: holds m jobs' (.thread a)) := ha.map Prod.fst
  have hb' : (holds m jobs' (.thread b)).Perm (id :: holds m jobs (.thread b)) := hb.map Prod.fst
  have hother' : ∀ k, k ≠ .thread a → k ≠ .thread b → holds m jobs' k = holds m jobs k := by
    intro k hka hkb
    cases k with
    | thread u =>
      simp only [holds]
      rw [hother u (fun he => hka (he ▸ rfl)) (fun he => hkb (he ▸ rfl))]
    | counted => rfl
    | lost => rfl
  have hmem := exists_mem_move hne ha' hb' hother'
  have hjobs : ∀ u, ∀ j ∈ jobs' u, ∃ v, j ∈ jobs v := fun u j hj =>
    (exists_mem_move hab ha hb hother j).mp ⟨u, hj⟩
  refine ⟨h.apart.move hne ha' hb' hother', ?_, h.count, ?_, ?_, h.past, h.untouched, h.written,
    h.nodup, ?_⟩
  · intro x
    rw [h.sets, hmem]
  · intro k x hx
    obtain ⟨k', hk'⟩ := (hmem x).mp ⟨k, hx⟩
    exact h.ready k' x hk'
  · intro u j hj
    obtain ⟨v, hv⟩ := hjobs u j hj
    exact h.job v j hv
  · intro x hx
    exact (hmem x).mpr (h.known x hx)

/-- The caller picks a task that is in neither set. -/
theorem Facts.pick (h : Facts g m jobs) (hcaller : jobs .caller = [])
    (hnew : ¬ (id ∈ m.running_tasks_ ∨ id ∈ m.completed_tasks_)) (hready : Ready g m id) :
    Facts g { m with running_tasks_ := insert id m.running_tasks_ }
      (Function.update jobs .caller [(id, .execute)]) := by
  have hfree : ∀ k, id ∉ holds m jobs k := fun k hk => hnew ((h.sets id).mpr ⟨k, hk⟩)
  let m' : Memory := { m with running_tasks_ := insert id m.running_tasks_ }
  have hother : ∀ k, k ≠ .thread .caller →
      holds m' (Function.update jobs .caller [(id, .execute)]) k = holds m jobs k := by
    intro k hk
    cases k with
    | thread u =>
      have hu : u ≠ .caller := fun he => hk (he ▸ rfl)
      simp [holds, hu]
    | counted => rfl
    | lost => rfl
  have hhere : holds m' (Function.update jobs .caller [(id, .execute)]) (.thread .caller) =
      [id] := by
    simp [holds]
  have hmem : ∀ x, (∃ k, x ∈ holds m' (Function.update jobs .caller [(id, .execute)]) k) ↔
      x = id ∨ ∃ k, x ∈ holds m jobs k := by
    intro x
    constructor
    · rintro ⟨k, hk⟩
      by_cases hkc : k = .thread .caller
      · rw [hkc, hhere, List.mem_singleton] at hk
        exact Or.inl hk
      · exact Or.inr ⟨k, hother k hkc ▸ hk⟩
    · rintro (rfl | ⟨k, hk⟩)
      · exact ⟨.thread .caller, by rw [hhere]; exact List.mem_singleton_self _⟩
      · have hkc : k ≠ .thread .caller := by
          rintro rfl
          simp [holds, hcaller] at hk
        exact ⟨k, (hother k hkc).symm ▸ hk⟩
  refine ⟨?_, ?_, h.count, ?_, ?_, h.past, h.untouched, h.written, h.nodup, ?_⟩
  · refine h.apart.add (a := .thread .caller) hfree ?_ hother
    rw [hhere]
    simp [holds, hcaller]
  · intro x
    rw [hmem, ← h.sets, Finset.mem_insert, or_assoc]
  · intro k x hx
    rcases (hmem x).mp ⟨k, hx⟩ with rfl | ⟨k', hk'⟩
    · exact hready
    · exact h.ready k' x hk'
  · intro u j hj
    by_cases hu : u = .caller
    · subst hu
      rw [Function.update_self, List.mem_singleton] at hj
      subst hj
      -- a task that was started or ended would have a holder
      refine ⟨?_, ?_⟩
      · intro hs
        obtain ⟨k, hk⟩ := h.known id (Or.inl hs)
        exact hfree k hk
      · intro he
        obtain ⟨k, hk⟩ := h.known id (Or.inr he)
        exact hfree k hk
    · rw [Function.update_of_ne hu] at hj
      exact h.job u j hj
  · intro x hx
    exact (hmem x).mpr (Or.inr (h.known x hx))

end sci
