import Stm32Templet.Core.Safety

/-! # Delays and time limits

`OSTimeTick` comes to every task exactly once in every tick, whatever interrupts its loop
(`Machine.Reachable.tick_once`).  A task that calls `OSTimeDly` therefore does not run before as
many ticks have come to it as it has asked for, and is ready then; a pend reports
`OS_ERR_TIMEOUT` no earlier, and does not wait any longer. -/

namespace Stm32Templet.Core

open Bitmap Linked Os Runs

variable {A A' : Model} {m m' : Machine} {e i n p : ℕ} {as : List Act}

/-! ### Phases -/

namespace Phase

/-- What a tick does to a task. -/
def tick (ph : Phase) : Phase :=
  if ph.dly = 0 then ph else if ph.dly = 1 then ph.expire else ph.countdown

@[simp] theorem tick_run (n : ℕ) : (run n).tick = run (n - 1) := by
  unfold tick
  rcases n with _ | _ | n <;> rfl

theorem tick_wait_zero (e : ℕ) : (wait e 0).tick = wait e 0 := rfl

theorem tick_wait_one (e : ℕ) : (wait e 1).tick = ended e .timeout := rfl

theorem tick_wait (e : ℕ) (h : n > 1) : (wait e n).tick = wait e (n - 1) := by
  have h0 : (wait e n).dly ≠ 0 := Nat.ne_of_gt (Nat.zero_lt_of_lt h)
  have h1 : (wait e n).dly ≠ 1 := Nat.ne_of_gt h
  rw [tick, if_neg h0, if_neg h1, countdown]

end Phase

/-! ### Steps that leave a task where it is -/

/-- The step does not concern the delay or the pend of task `i`, unless it wakes it. -/
def Act.Still (i : ℕ) : Act → Prop
  | delete j => j ≠ i
  | change j .countdown => j ≠ i
  | change j .expire => j ≠ i
  | change j (.finish _ _) => j ≠ i
  | change j .stop => j ≠ i
  | _ => True

/-- All steps but those that resume a task, count its ticks down, end its delay, leave its pend or
delete it. -/
def Act.Plain : Act → Prop
  | delete _ => False
  | change _ .resume => False
  | change _ .countdown => False
  | change _ .expire => False
  | change _ (.finish _ _) => False
  | change _ .stop => False
  | _ => True

theorem Act.Plain.still {a : Act} (h : a.Plain) : a.Still i := by
  cases a with
  | delete j => exact h.elim
  | change j c =>
      cases c with
      | countdown => exact h.elim
      | expire => exact h.elim
      | finish e o => exact h.elim
      | stop => exact h.elim
      | _ => trivial
  | _ => trivial

/-- A task remains in its phase, or is woken. -/
def Phase.Next (ph ph' : Phase) : Prop :=
  ph' = ph ∨ ∃ e o, ph.listed = some e ∧ o ≠ .timeout ∧ ph' = ended e o

theorem Phase.Next.trans {ph ph₁ ph₂ : Phase} (h : ph.Next ph₁) (h' : ph₁.Next ph₂) :
    ph.Next ph₂ := by
  rcases h with rfl | ⟨e, o, hl, ho, rfl⟩
  · exact h'
  · rcases h' with rfl | ⟨e', o', hl', _⟩
    · exact Or.inr ⟨e, o, hl, ho, rfl⟩
    · cases o with
      | timeout => exact absurd rfl ho
      | got pmsg => cases hl'
      | abort => cases hl'

namespace Model

theorem still_step {a : Act} (hok : A.Ok) (hs : A.step a = some A') (ha : a.Still i)
    (hi : i ∈ A.list) (hne : (A.task i).phase ≠ .run 0) :
    i ∈ A'.list ∧ (A.task i).phase.Next (A'.task i).phase := by
  obtain ⟨hallowed, rfl⟩ := step_eq_some.mp hs
  cases a with
  | reserve prio => exact ⟨hi, Or.inl rfl⟩
  | release prio => exact ⟨hi, Or.inl rfl⟩
  | alloc j => exact ⟨hi, Or.inl rfl⟩
  | create j prio =>
      refine ⟨List.mem_cons_of_mem j hi, Or.inl ?_⟩
      rw [create_task_of_mem (hok.mem_create hallowed) hi]
  | delete j => exact ⟨(List.mem_erase_of_ne ha.symm).mpr hi, Or.inl rfl⟩
  | put e pmsg => exact ⟨hi, Or.inl rfl⟩
  | take e pmsg => exact ⟨hi, Or.inl rfl⟩
  | change j c =>
      refine ⟨hi, ?_⟩
      change Phase.Next _ ((A.edit j _).task i).phase
      by_cases hji : i = j
      · subst hji
        rw [edit_task_self]
        obtain ⟨_, hc⟩ := hallowed
        cases c with
        | setPrio prio => exact Or.inl rfl
        | suspend => exact Or.inl rfl
        | resume => exact Or.inl rfl
        | delay n => exact absurd hc.2 hne
        | wait e n => exact absurd hc.2.1 hne
        | wake e o => exact Or.inr ⟨e, o, hc.1, hc.2.1, rfl⟩
        | countdown => exact absurd rfl ha
        | expire => exact absurd rfl ha
        | finish e o => exact absurd rfl ha
        | stop => exact absurd rfl ha
      · rw [edit_task_of_ne hji]
        exact Or.inl rfl

theorem still_exec (hok : A.Ok) (hexec : exec Model.step A as = some A')
    (has : ∀ a ∈ as, a.Still i) (hi : i ∈ A.list) (hne : (A.task i).phase ≠ .run 0) :
    i ∈ A'.list ∧ (A.task i).phase.Next (A'.task i).phase := by
  induction as generalizing A with
  | nil =>
      cases hexec
      exact ⟨hi, Or.inl rfl⟩
  | cons a as ih =>
      obtain ⟨B, hB, hexec⟩ := exec_cons.mp hexec
      obtain ⟨hi', hnext⟩ := still_step hok hB (has a List.mem_cons_self) hi hne
      have hne' : (B.task i).phase ≠ .run 0 := by
        rcases hnext with he | ⟨_, _, _, _, he⟩
        · rwa [he]
        · rw [he]
          exact nofun
      obtain ⟨hi'', hnext'⟩ :=
        ih (hok.step hB) hexec (fun b hb => has b (List.mem_cons_of_mem a hb)) hi' hne'
      exact ⟨hi'', hnext.trans hnext'⟩

theorem mem_exec (hexec : exec Model.step A as = some A') (has : .delete i ∉ as)
    (hi : i ∈ A.list) : i ∈ A'.list := by
  induction as generalizing A with
  | nil =>
      cases hexec
      exact hi
  | cons a as ih =>
      obtain ⟨B, hB, hexec⟩ := exec_cons.mp hexec
      refine ih hexec (fun hmem => has (List.mem_cons_of_mem a hmem)) ?_
      obtain ⟨_, rfl⟩ := step_eq_some.mp hB
      cases a with
      | create j prio => exact List.mem_cons_of_mem j hi
      | delete j =>
          have hij : i ≠ j := by
            rintro rfl
            exact has List.mem_cons_self
          exact (List.mem_erase_of_ne hij).mpr hi
      | _ => exact hi

theorem tick_exec (hi : i ∈ A.list)
    (hexec : exec Model.step A (tickActs i (A.task i).phase) = some A') :
    i ∈ A'.list ∧ (A'.task i).phase = (A.task i).phase.tick := by
  unfold tickActs at hexec
  unfold Phase.tick
  split
  · rename_i h0
    rw [if_pos h0] at hexec
    cases hexec
    exact ⟨hi, rfl⟩
  · rename_i h0
    rw [if_neg h0] at hexec
    split
    · rename_i h1
      rw [if_pos h1] at hexec
      obtain ⟨_, rfl⟩ := exec_one_iff.mp hexec
      exact ⟨hi, congrArg Task.phase edit_task_self⟩
    · rename_i h1
      rw [if_neg h1] at hexec
      obtain ⟨_, rfl⟩ := exec_one_iff.mp hexec
      exact ⟨hi, congrArg Task.phase edit_task_self⟩

end Model

/-! ### Events -/

namespace Machine

/-- The ticks: the beginning of one is `none`, and the other entries are the tasks that its loop
comes to. -/
def tickLog (m : Machine) : Event → List (Option ℕ)
  | .tick => [none]
  | .tickTcb => [m.tick.join]
  | _ => []

/-- The deletion of task `i` begins or ends. -/
def Deletes (i : ℕ) (m : Machine) : Event → Prop
  | .call (.del prio) => m.kern.OSTCBPrioTbl (m.kern.self prio) = .tcb i
  | .proceed => m.deleting = some i
  | _ => False

/-- The event ends the delay of task `i`. -/
def Resumes (i : ℕ) (m : Machine) : Event → Prop
  | .call (.dlyResume prio) => m.kern.OSTCBPrioTbl prio = .tcb i
  | .isr (.dlyResume prio) => m.kern.OSTCBPrioTbl prio = .tcb i
  | _ => False

instance (i : ℕ) (m : Machine) : (ev : Event) → Decidable (m.Deletes i ev)
  | .call (.del _) => inferInstanceAs (Decidable (_ = _))
  | .proceed => inferInstanceAs (Decidable (_ = _))
  | .call .lock | .call .unlock | .call (.create _) | .call (.changePrio _ _)
  | .call (.suspend _) | .call (.resume _) | .call (.dly _) | .call (.dlyResume _)
  | .call (.timeSet _) | .call (.pend _ _ _) | .call (.post _ _ _) | .call (.accept _ _)
  | .call (.pendAbort _ _ _) | .sched | .pendEnd | .pendSV | .intEnter | .intExit | .isr _
  | .tick | .tickTcb => isFalse id

instance (i : ℕ) (m : Machine) : (ev : Event) → Decidable (m.Resumes i ev)
  | .call (.dlyResume _) | .isr (.dlyResume _) => inferInstanceAs (Decidable (_ = _))
  | .call .lock | .call .unlock | .call (.create _) | .call (.del _) | .call (.changePrio _ _)
  | .call (.suspend _) | .call (.resume _) | .call (.dly _) | .call (.timeSet _)
  | .call (.pend _ _ _) | .call (.post _ _ _) | .call (.accept _ _) | .call (.pendAbort _ _ _)
  | .isr .lock | .isr .unlock | .isr (.create _) | .isr (.del _) | .isr (.changePrio _ _)
  | .isr (.suspend _) | .isr (.resume _) | .isr (.dly _) | .isr (.timeSet _)
  | .isr (.pend _ _ _) | .isr (.post _ _ _) | .isr (.accept _ _) | .isr (.pendAbort _ _ _)
  | .sched | .pendEnd | .proceed | .pendSV | .intEnter | .intExit | .tick | .tickTcb =>
      isFalse id

end Machine

theorem Call.Acts.plain {c : Call} {k : Kern} {x : Exit} {a : Act} (hacts : c.Acts k A x as)
    (h : k.Rep A) (ha : a ∈ as) :
    a.Plain ∨ ∃ prio j, k.OSTCBPrioTbl prio = .tcb j ∧
      (c = .resume prio ∧ a = .change j .resume ∨ c = .dlyResume prio ∧ a = .change j .expire) := by
  cases c with
  | lock => exact hacts.elim
  | unlock => exact hacts.elim
  | create prio => exact hacts.elim
  | del prio => exact hacts.elim
  | timeSet ticks =>
      obtain ⟨rfl, _⟩ := hacts
      cases ha
  | changePrio oldprio newprio =>
      obtain ⟨_, _, j, _, _, rfl⟩ := hacts
      obtain rfl := List.mem_singleton.mp ha
      exact Or.inl trivial
  | suspend prio =>
      obtain ⟨_, j, _, _, rfl, _⟩ := hacts
      obtain rfl := List.mem_singleton.mp ha
      exact Or.inl trivial
  | resume prio =>
      obtain ⟨_, j, hj, hprio, rfl, _⟩ := hacts
      exact Or.inr ⟨prio, j, hprio ▸ h.prioTbl_of hj, Or.inl ⟨rfl, List.mem_singleton.mp ha⟩⟩
  | dly ticks =>
      obtain ⟨_, _, _, _, _, rfl⟩ := hacts
      obtain rfl := List.mem_singleton.mp ha
      exact Or.inl trivial
  | dlyResume prio =>
      obtain ⟨_, j, hj, hprio, rfl, _⟩ := hacts
      exact Or.inr ⟨prio, j, hprio ▸ h.prioTbl_of hj, Or.inr ⟨rfl, List.mem_singleton.mp ha⟩⟩
  | pend kd e timeout =>
      obtain ⟨_, _, _, ⟨rfl, _⟩ | ⟨rfl, _⟩⟩ := hacts
      · obtain rfl := List.mem_singleton.mp ha
        exact Or.inl trivial
      · obtain rfl := List.mem_singleton.mp ha
        exact Or.inl trivial
  | post kd e pmsg =>
      obtain ⟨_, _, _, ⟨rfl, _⟩ | ⟨_, j, rfl⟩⟩ := hacts
      · obtain rfl := List.mem_singleton.mp ha
        exact Or.inl trivial
      · obtain rfl := List.mem_singleton.mp ha
        exact Or.inl trivial
  | accept kd e =>
      obtain ⟨_, _, _, _, pmsg, rfl, _⟩ := hacts
      obtain rfl := List.mem_singleton.mp ha
      exact Or.inl trivial
  | pendAbort kd e broadcast =>
      obtain ⟨_, _, _, l, rfl⟩ := hacts
      obtain ⟨j, _, rfl⟩ := List.mem_map.mp ha
      exact Or.inl trivial

theorem Call.Acts.still {c : Call} {k : Kern} {x : Exit} (hacts : c.Acts k A x as) (h : k.Rep A)
    (hresume : ∀ prio, c = .dlyResume prio → k.OSTCBPrioTbl prio ≠ .tcb i) :
    ∀ a ∈ as, a.Still i := by
  intro a ha
  rcases hacts.plain h ha with hplain | ⟨prio, j, htask, ⟨rfl, rfl⟩ | ⟨rfl, rfl⟩⟩
  · exact hplain.still
  · trivial
  · rintro rfl
    exact hresume prio rfl htask

theorem Call.Begins.still {c : Call} {k : Kern} {x : Exit} (hbegins : c.Begins k A x as)
    (h : k.Rep A) (hdel : ∀ prio, c = .del prio → k.OSTCBPrioTbl (k.self prio) ≠ .tcb i) :
    ∀ a ∈ as, a.Still i := by
  cases c with
  | create prio =>
      obtain ⟨_, _, _, rfl⟩ := hbegins
      exact List.forall_mem_singleton.mpr trivial
  | del prio =>
      obtain ⟨_, _, j, hj, hprio, _, rfl⟩ := hbegins
      refine List.forall_mem_singleton.mpr ?_
      rintro rfl
      exact hdel prio rfl (hprio ▸ h.prioTbl_of hj)
  | _ => exact hbegins.elim

theorem Section.Acts.plain {s : Section} {k : Kern} {x : Exit} {a : Act} (hacts : s.Acts k A x as)
    (ha : a ∈ as) : a.Plain ∨ ∃ prio ptcb, s = .delete prio ptcb ∧ a = .delete ptcb := by
  cases s with
  | tcbInit prio =>
      obtain ⟨_, ⟨_, rfl, _⟩ | ⟨j, rfl, _⟩⟩ := hacts
      · cases ha
      · obtain rfl := List.mem_singleton.mp ha
        exact Or.inl trivial
  | tcbLink prio ptcb =>
      obtain ⟨_, _, _, _, _, rfl⟩ := hacts
      obtain rfl := List.mem_singleton.mp ha
      exact Or.inl trivial
  | release prio =>
      obtain ⟨_, _, _, _, _, rfl⟩ := hacts
      obtain rfl := List.mem_singleton.mp ha
      exact Or.inl trivial
  | delete prio ptcb =>
      obtain ⟨_, _, _, _, _, rfl⟩ := hacts
      exact Or.inr ⟨prio, ptcb, rfl, List.mem_singleton.mp ha⟩

theorem Section.Acts.still {s : Section} {k : Kern} {x : Exit} (hacts : s.Acts k A x as)
    (hdel : ∀ prio, s ≠ .delete prio i) : ∀ a ∈ as, a.Still i := by
  intro a ha
  rcases hacts.plain ha with hplain | ⟨prio, ptcb, rfl, rfl⟩
  · exact hplain.still
  · rintro rfl
    exact hdel prio rfl

namespace Machine

theorem deleting_of_at {prio ptcb : ℕ} (hat : m.at.sec = some (.delete prio ptcb)) :
    m.deleting = some ptcb := by
  rw [deleting, hat]

theorem Inv.acts_still (h : m.Inv A) {ev : Event} (he : m.Enabled ev) (hacts : m.Acts A as ev)
    (hdel : ¬ m.Deletes i ev) (hresume : ¬ m.Resumes i ev)
    (hend : ev = .pendEnd → m.kern.OSTCBCur ≠ i) (hlog : some i ∉ m.tickLog ev) :
    ∀ a ∈ as, a.Still i := by
  cases ev with
  | call c =>
      obtain ⟨x, _, ⟨rfl, _⟩ | ⟨_, hacts⟩ | ⟨_, hbegins⟩⟩ := hacts
      · exact nofun
      · refine hacts.still h.rep ?_
        rintro prio rfl
        exact hresume
      · refine hbegins.still h.rep ?_
        rintro prio rfl
        exact hdel
  | isr c =>
      obtain ⟨x, _, ⟨rfl, _⟩ | ⟨_, hacts⟩ | ⟨_, hbegins⟩⟩ := hacts
      · exact nofun
      · refine hacts.still h.rep ?_
        rintro prio rfl
        exact hresume
      · refine hbegins.still h.rep ?_
        rintro prio rfl
        exact absurd hbegins.1 (Nat.ne_of_gt he)
  | proceed =>
      obtain ⟨s, x, hat, _, _, hacts⟩ := hacts
      refine hacts.still ?_
      rintro prio rfl
      exact hdel (deleting_of_at hat)
  | pendEnd =>
      obtain ⟨e, o, _, _, _, rfl⟩ := hacts
      exact List.forall_mem_singleton.mpr (hend rfl)
  | tickTcb =>
      obtain ⟨j, hj, htick, rfl⟩ := hacts
      have hji : j ≠ i := by
        rintro rfl
        exact hlog (by rw [tickLog, htick]; exact List.mem_cons_self)
      unfold tickActs
      split
      · exact nofun
      · split
        · exact List.forall_mem_singleton.mpr hji
        · exact List.forall_mem_singleton.mpr hji
  | _ =>
      rw [show as = [] from hacts]
      exact nofun

/-- A task that is delayed or in a pend remains so or is woken, unless the tick comes to it. -/
theorem Inv.phase_next (h : m.Inv A) {ev : Event} (he : m.Enabled ev) (hacts : m.Acts A as ev)
    (hexec : exec Model.step A as = some A') (hdel : ¬ m.Deletes i ev)
    (hresume : ¬ m.Resumes i ev) (hend : ev = .pendEnd → m.kern.OSTCBCur ≠ i) (hi : i ∈ A.list)
    (hne : (A.task i).phase ≠ .run 0) :
    i ∈ A'.list ∧ if some i ∈ m.tickLog ev then (A'.task i).phase = (A.task i).phase.tick
      else (A.task i).phase.Next (A'.task i).phase := by
  split
  · rename_i hlog
    cases ev with
    | tickTcb =>
        obtain ⟨j, hj, htick, rfl⟩ := hacts
        obtain rfl : i = j := by simpa [tickLog, htick] using hlog
        exact Model.tick_exec hi hexec
    | tick => simp [tickLog] at hlog
    | _ => exact absurd hlog List.not_mem_nil
  · rename_i hlog
    exact Model.still_exec h.rep.ok hexec (h.acts_still he hacts hdel hresume hend hlog) hi hne

theorem Inv.not_delete (h : m.Inv A) {ev : Event} (hacts : m.Acts A as ev)
    (hdel : ¬ m.Deletes i ev) : .delete i ∉ as := by
  intro hmem
  have hcall : ∀ {c : Call} {x : Exit}, c.Effect m.kern A x as → False := by
    rintro c x (⟨rfl, _⟩ | ⟨_, hacts⟩ | ⟨_, hbegins⟩)
    · cases hmem
    · rcases hacts.plain h.rep hmem with hplain | ⟨_, _, _, ⟨_, he⟩ | ⟨_, he⟩⟩
      · exact hplain
      · cases he
      · cases he
    · cases c with
      | create prio =>
          obtain ⟨_, _, _, rfl⟩ := hbegins
          cases List.mem_singleton.mp hmem
      | del prio =>
          obtain ⟨_, _, j, _, _, _, rfl⟩ := hbegins
          cases List.mem_singleton.mp hmem
      | _ => exact hbegins.elim
  cases ev with
  | call c =>
      obtain ⟨x, _, heffect⟩ := hacts
      exact hcall heffect
  | isr c =>
      obtain ⟨x, _, heffect⟩ := hacts
      exact hcall heffect
  | pendEnd =>
      obtain ⟨e, o, _, _, _, rfl⟩ := hacts
      cases List.mem_singleton.mp hmem
  | proceed =>
      obtain ⟨s, x, hat, _, _, hacts⟩ := hacts
      refine hacts.still (i := i) ?_ _ hmem rfl
      rintro prio rfl
      exact hdel (deleting_of_at hat)
  | tickTcb =>
      obtain ⟨j, _, _, rfl⟩ := hacts
      exact tickActs_remote j _ 0 _ hmem
  | _ =>
      rw [show as = [] from hacts] at hmem
      cases hmem

theorem Inv.mem_next (h : m.Inv A) {ev : Event} (hacts : m.Acts A as ev)
    (hdel : ¬ m.Deletes i ev) (hexec : exec Model.step A as = some A') (hi : i ∈ A.list) :
    i ∈ A'.list :=
  Model.mem_exec hexec (h.not_delete hacts hdel) hi

/-! ### The loop of the tick -/

/-- The tasks that the loop of `OSTimeTick` has still to come to. -/
def Rest (m : Machine) (A : Model) (rest : List ℕ) : Prop :=
  match m.tick with
  | none => rest = []
  | some cur => cur = rest.head? ∧ rest <:+ A.list

theorem Inv.list_eq (h : m.Inv A) {ev : Event} (he : m.Enabled ev) (hc : m.Contract ev)
    (hacts : m.Acts A as ev) (hexec : exec Model.step A as = some A') {cur : Option ℕ}
    (htick : m.tick = some cur) : A'.list = A.list := by
  have hint : m.kern.OSIntNesting ≠ 0 := Nat.ne_of_gt (h.tick cur htick).1
  cases ev with
  | call c => exact absurd he.1.1 hint
  | pendEnd => exact absurd he.1.1 hint
  | proceed => exact absurd he.1.1 hint
  | isr c =>
      obtain ⟨x, _, ⟨rfl, _⟩ | ⟨_, hacts⟩ | ⟨_, hbegins⟩⟩ := hacts
      · cases hexec
        rfl
      · rcases hacts.cases h.rep hc.1 hexec with ⟨_, hremote⟩ | ⟨h0, _⟩
        · exact (Model.Near.exec hremote hexec).list
        · exact absurd h0 hint
      · cases c with
        | create prio => exact absurd hbegins.1 hint
        | del prio => exact absurd hbegins.1 hint
        | _ => exact hbegins.elim
  | tickTcb =>
      obtain ⟨j, _, _, rfl⟩ := hacts
      exact (Model.Near.exec (tickActs_remote j _ m.kern.OSPrioCur) hexec).list
  | _ =>
      rw [show as = [] from hacts] at hexec
      cases hexec
      rfl

theorem next_tick_eq {ev : Event} (hs : m.next ev = some m') (hev : m.tickLog ev = []) :
    m'.tick = m.tick := by
  cases ev with
  | tick => cases hev
  | tickTcb => cases hev
  | call c =>
      obtain ⟨x, _, hs⟩ := Option.bind_eq_some_iff.mp hs
      cases hs
      rfl
  | isr c =>
      obtain ⟨x, _, hs⟩ := Option.bind_eq_some_iff.mp hs
      cases hs
      rfl
  | pendEnd =>
      obtain ⟨x, _, hs⟩ := Option.bind_eq_some_iff.mp hs
      cases hs
      rfl
  | proceed =>
      obtain ⟨s, _, hs⟩ := Option.bind_eq_some_iff.mp hs
      obtain ⟨x, _, hs⟩ := Option.bind_eq_some_iff.mp hs
      cases hs
      rfl
  | pendSV =>
      obtain ⟨x, _, hs⟩ := Option.bind_eq_some_iff.mp hs
      cases hs
      rfl
  | _ =>
      cases hs
      rfl

theorem Inv.rest_idle (h : m.Inv A) (hi : i ∈ A.list)
    (hprio : (m.kern.OSTCBTbl i).OSTCBPrio = OS_TASK_IDLE_PRIO) {l rest : List ℕ}
    (hlist : A.list = l ++ i :: rest) : rest = [] := by
  obtain ⟨idle, hlast, htask⟩ := h.idle
  obtain rfl : i = idle := by
    refine h.rep.ok.unique i hi idle (List.mem_of_getLast? hlast) ?_
    rw [htask, ← (h.rep.task i hi).prio, hprio]
  have hnodup := h.rep.ok.nodup_list
  rw [hlist] at hlast hnodup
  rcases List.eq_nil_or_concat rest with hnil | ⟨rest', j, rfl⟩
  · exact hnil
  · rw [show l ++ i :: rest'.concat j = (l ++ i :: rest').concat j by simp,
      List.concat_eq_append, List.getLast?_concat] at hlast
    obtain rfl := Option.some.inj hlast
    exact absurd (by simp) (List.nodup_cons.mp (List.nodup_append.mp hnodup).2.1).1

theorem Inv.rest_next (h : m.Inv A) (hs : m.step .tickTcb = some m') (hacts : m.Acts A as .tickTcb)
    (hexec : exec Model.step A as = some A') (h' : m'.Inv A') {rest : List ℕ}
    (hrest : m.Rest A rest) :
    ∃ j rest', m.tick = some (some j) ∧ rest = j :: rest' ∧ m'.Rest A' rest' := by
  have he := enabled_of_step hs
  rw [Machine.step, if_pos he] at hs
  obtain ⟨j, hj, htick, rfl⟩ := hacts
  unfold Rest at hrest
  rw [htick] at hrest
  obtain ⟨hhead, l, hlist⟩ := hrest
  obtain ⟨rest', rfl⟩ := List.head?_eq_some_iff.mp hhead.symm
  refine ⟨j, rest', htick, rfl, ?_⟩
  unfold next at hs
  simp only [htick, Option.bind_eq_bind, Option.bind_some] at hs
  unfold Rest
  split at hs
  · rename_i hprio
    obtain rfl := Option.some.inj hs
    exact h.rest_idle hj hprio hlist.symm
  · obtain rfl := Option.some.inj hs
    have hlist' := (h.list_eq he trivial ⟨j, hj, htick, rfl⟩ hexec htick).trans hlist.symm
    exact ⟨(hlist' ▸ h'.rep.links).next_eq, l ++ [j], by rw [hlist', List.append_assoc]; rfl⟩

theorem Inv.rest_step (h : m.Inv A) {ev : Event} (hs : m.step ev = some m') (hc : m.Contract ev)
    (hacts : m.Acts A as ev) (hexec : exec Model.step A as = some A') (h' : m'.Inv A')
    (hi : i ∈ A.list) {rest : List ℕ} (hrest : m.Rest A rest) :
    ∃ rest', m'.Rest A' rest' ∧
      (m.tickLog ev).count (some i) + rest'.count i =
        rest.count i + (m.tickLog ev).count none := by
  have he := enabled_of_step hs
  cases ev with
  | tick =>
      obtain rfl : as = [] := hacts
      cases hexec
      have hnone : rest = [] := by
        unfold Rest at hrest
        rwa [he.2] at hrest
      have htick : m'.tick = some m.kern.OSTCBList := by
        rw [Machine.step, if_pos he] at hs
        cases hs
        exact if_pos h.run
      refine ⟨A.list, ?_, ?_⟩
      · unfold Rest
        rw [htick]
        exact ⟨h.rep.links.first_eq, List.suffix_refl _⟩
      · rw [hnone, h.rep.ok.nodup_list.count, if_pos hi]
        rfl
  | tickTcb =>
      obtain ⟨j, rest', htick, rfl, hrest'⟩ := h.rest_next hs hacts hexec h' hrest
      refine ⟨rest', hrest', ?_⟩
      have hlog : m.tickLog .tickTcb = [some j] := congrArg (fun t => [t]) (by rw [htick]; rfl)
      rw [hlog, List.count_cons]
      by_cases hij : j = i <;> simp [hij]
      omega
  | _ =>
      refine ⟨rest, ?_, by simp [tickLog]⟩
      rw [Machine.step, if_pos he] at hs
      have htick : m'.tick = m.tick := next_tick_eq hs rfl
      unfold Rest at hrest ⊢
      rw [htick]
      cases hm : m.tick with
      | none => rwa [hm] at hrest
      | some cur =>
          rw [hm] at hrest
          rwa [h.list_eq he hc hacts hexec hm]

theorem Inv.tick_count (h : m.Inv A) (hi : i ∈ A.list) (htick : m.tick = none)
    {es : List Event} (hC : Along Machine.step (fun m ev => m.Contract ev ∧ ¬ m.Deletes i ev) m es)
    (hes : exec Machine.step m es = some m') (htick' : m'.tick = none) :
    (trace Machine.step tickLog m es).count (some i) =
      (trace Machine.step tickLog m es).count none := by
  have hrest : m.Rest A [] := by
    unfold Rest
    rw [htick]
  obtain ⟨A', hA', _, rest, hrest', hcount⟩ := exec_trace (f := tickLog)
    (R := fun m A out => m.Inv A ∧ i ∈ A.list ∧ ∃ rest, m.Rest A rest ∧
      out.count (some i) + rest.count i = out.count none)
    (fun m A out ev m' ⟨hA, hi, rest, hrest, hcount⟩ ⟨hc, hdel⟩ hs => by
      obtain ⟨m'', as, A', hs', hacts, hexec, hA'⟩ := hA.step (enabled_of_step hs) hc
      obtain rfl := Option.some.inj (hs.symm.trans hs')
      obtain ⟨rest', hrest', hcount'⟩ := hA.rest_step hs hc hacts hexec hA' hi hrest
      refine ⟨A', hA', hA.mem_next hacts hdel hexec hi, rest', hrest', ?_⟩
      rw [List.count_append, List.count_append]
      omega) [] ⟨h, hi, [], hrest, rfl⟩ hC hes
  have hnone : rest = [] := by
    unfold Rest at hrest'
    rwa [htick'] at hrest'
  rw [hnone, List.nil_append] at hcount
  exact hcount

/-- In the loop of a tick an interrupt changes a priority. -/
def nestedTick : List Event :=
  [.intEnter, .tick, .tickTcb, .intEnter, .isr (.changePrio 5 4), .intExit, .tickTcb, .tickTcb,
    .tickTcb, .intExit]

theorem count_tickLog (m : Machine) (ev : Event) (i : ℕ) :
    (m.tickLog ev).count (some i) = if some i ∈ m.tickLog ev then 1 else 0 := by
  cases ev with
  | tick => simp [tickLog]
  | tickTcb =>
      change List.count (some i) [m.tick.join] = _
      by_cases h : m.tick.join = some i
      · simp [tickLog, h]
      · simp [tickLog, h, Ne.symm h]
  | _ => rfl

/-! ### Delays -/

theorem Inv.delay (h : m.Inv A) (hi : i ∈ A.list) (hph : (A.task i).phase = .run n)
    {es : List Event} (hC : Along Machine.step
      (fun m ev => m.Contract ev ∧ ¬ m.Deletes i ev ∧ ¬ m.Resumes i ev) m es)
    (hes : exec Machine.step m es = some m')
    (hlt : (trace Machine.step tickLog m es).count (some i) < n) :
    ∃ A', m'.Inv A' ∧ i ∈ A'.list ∧
      (A'.task i).phase = .run (n - (trace Machine.step tickLog m es).count (some i)) := by
  obtain ⟨A', hA', hi', hph'⟩ := exec_trace (f := tickLog)
    (R := fun m A out => m.Inv A ∧ i ∈ A.list ∧
      (out.count (some i) < n → (A.task i).phase = .run (n - out.count (some i))))
    (fun m A out ev m' ⟨hA, hi, hph⟩ ⟨hc, hdel, hresume⟩ hs => by
      have he := enabled_of_step hs
      obtain ⟨m'', as, A', hs', hacts, hexec, hA'⟩ := hA.step he hc
      obtain rfl := Option.some.inj (hs.symm.trans hs')
      refine ⟨A', hA', hA.mem_next hacts hdel hexec hi, fun hlt => ?_⟩
      rw [List.count_append, count_tickLog] at hlt ⊢
      have hph := hph (by omega)
      have hend : ev = .pendEnd → m.kern.OSTCBCur ≠ i := by
        rintro rfl rfl
        obtain ⟨e, o, _, hover, _⟩ := hacts
        cases hover.symm.trans hph
      obtain ⟨_, hnext⟩ := hA.phase_next he hacts hexec hdel hresume hend hi (by
        rw [hph]
        exact fun hz => absurd (Phase.run.inj hz) (by omega))
      rw [hph] at hnext
      split at hnext
      · rename_i hlog
        rw [if_pos hlog, hnext, Phase.tick_run]
        congr 1
      · rename_i hlog
        rw [if_neg hlog]
        rcases hnext with hsame | ⟨_, _, hl, _⟩
        · exact hsame
        · cases hl) [] ⟨h, hi, fun _ => hph⟩ hC hes
  exact ⟨A', hA', hi', hph' hlt⟩

end Machine

theorem osTimeDly_sched {k : Kern} (hint : k.OSIntNesting = 0) (hlock : k.OSLockNesting = 0)
    (hn : n > 0) : (osTimeDly n k).sched = true := by
  unfold osTimeDly
  rw [if_neg (by omega), if_neg (by omega), if_pos hn]
  rfl

namespace Machine

theorem Inv.step_dly (h : m.Inv A) (hlock : m.kern.OSLockNesting = 0) (hn : n > 0)
    (hs : m.step (.call (.dly n)) = some m') :
    ∃ A', m'.Inv A' ∧ m.kern.OSTCBCur ∈ A'.list ∧
      (A'.task m.kern.OSTCBCur).phase = .run n ∧ m'.tick = none := by
  have he := enabled_of_step hs
  have hcur := (h.running_run he.1 he.2.1).1
  obtain ⟨m'', as, A', hs', ⟨x, hx, heffect⟩, hexec, hA'⟩ := h.step he trivial
  obtain rfl := Option.some.inj (hs.symm.trans hs')
  obtain rfl := Option.some.inj hx
  have hsched := osTimeDly_sched he.1.1 hlock hn
  rcases heffect with ⟨_, ⟨hfail, _⟩ | hlocks⟩ | ⟨_, _, _, _, _, _, rfl⟩ | ⟨_, hbegins⟩
  · rw [hfail] at hsched
    cases hsched
  · exact hlocks.elim
  · obtain ⟨_, rfl⟩ := Model.exec_one_iff.mp hexec
    rw [Machine.step, if_pos he] at hs
    refine ⟨_, hA', hcur, congrArg Task.phase Model.edit_task_self, ?_⟩
    rw [next_tick_eq hs rfl]
    exact h.tick_none he.1.1
  · exact hbegins.elim

/-- A task that pends for `n` ticks, or without a limit if `n` is zero, after as many as
`ticks`. -/
def Pending (e n ticks : ℕ) (ph : Phase) : Prop :=
  ph = .wait e (n - ticks) ∧ (n = 0 ∨ ticks < n) ∨ ph = .ended e .timeout ∧ 0 < n ∧ n ≤ ticks ∨
    ∃ o ≠ Outcome.timeout, ph = .ended e o

theorem Pending.tick {ticks : ℕ} {ph : Phase} (h : Pending e n ticks ph) :
    Pending e n (ticks + 1) ph.tick := by
  rcases h with ⟨rfl, hn | hlt⟩ | ⟨rfl, hn, hle⟩ | ⟨o, ho, rfl⟩
  · subst hn
    rw [Nat.zero_sub, Phase.tick_wait_zero]
    exact Or.inl ⟨by rw [Nat.zero_sub], Or.inl rfl⟩
  · by_cases hlast : n - ticks = 1
    · rw [hlast, Phase.tick_wait_one]
      exact Or.inr (Or.inl ⟨rfl, by omega, by omega⟩)
    · rw [Phase.tick_wait e (by omega), Nat.sub_sub]
      exact Or.inl ⟨rfl, Or.inr (by omega)⟩
  · exact Or.inr (Or.inl ⟨rfl, hn, Nat.le_succ_of_le hle⟩)
  · exact Or.inr (Or.inr ⟨o, ho, rfl⟩)

theorem Pending.next {ticks : ℕ} {ph ph' : Phase} (h : Pending e n ticks ph)
    (hnext : ph.Next ph') : Pending e n ticks ph' := by
  rcases hnext with rfl | ⟨e', o, hl, ho, rfl⟩
  · exact h
  · have he : e' = e := by
      rcases h with ⟨rfl, _⟩ | ⟨rfl, _⟩ | ⟨o', ho', rfl⟩
      · exact (Option.some.inj hl).symm
      · exact (Option.some.inj hl).symm
      · cases o' with
        | timeout => exact absurd rfl ho'
        | got pmsg => cases hl
        | abort => cases hl
    subst he
    exact Or.inr (Or.inr ⟨o, ho, rfl⟩)

theorem Pending.ne_run {ticks : ℕ} {ph : Phase} (h : Pending e n ticks ph) : ph ≠ .run 0 := by
  rcases h with ⟨rfl, _⟩ | ⟨rfl, _⟩ | ⟨_, _, rfl⟩
  all_goals exact nofun

theorem Inv.pending (h : m.Inv A) (hi : i ∈ A.list) (hph : (A.task i).phase = .wait e n)
    {es : List Event} (hC : Along Machine.step (fun m ev => m.Contract ev ∧ ¬ m.Deletes i ev ∧
      ¬ m.Resumes i ev ∧ (ev = .pendEnd → m.kern.OSTCBCur ≠ i)) m es)
    (hes : exec Machine.step m es = some m') :
    ∃ A', m'.Inv A' ∧ i ∈ A'.list ∧
      Pending e n ((trace Machine.step tickLog m es).count (some i)) (A'.task i).phase := by
  have hstart : Pending e n 0 (A.task i).phase :=
    Or.inl ⟨hph, (Nat.eq_zero_or_pos n)⟩
  obtain ⟨A', hA'⟩ := exec_trace (f := tickLog)
    (R := fun m A out => m.Inv A ∧ i ∈ A.list ∧
      Pending e n (out.count (some i)) (A.task i).phase)
    (fun m A out ev m' ⟨hA, hi, hph⟩ ⟨hc, hdel, hresume, hend⟩ hs => by
      have he := enabled_of_step hs
      obtain ⟨m'', as, A', hs', hacts, hexec, hA'⟩ := hA.step he hc
      obtain rfl := Option.some.inj (hs.symm.trans hs')
      obtain ⟨hi', hnext⟩ := hA.phase_next he hacts hexec hdel hresume hend hi hph.ne_run
      refine ⟨A', hA', hi', ?_⟩
      rw [List.count_append, count_tickLog]
      split at hnext
      · rename_i hlog
        rw [if_pos hlog, hnext]
        exact hph.tick
      · rename_i hlog
        rw [if_neg hlog]
        exact hph.next hnext) [] ⟨h, hi, hstart⟩ hC hes
  exact ⟨A', hA'⟩

theorem Inv.step_pend (h : m.Inv A) {kd : Kind} (hs : m.step (.call (.pend kd e n)) = some m')
    (hwait : (m'.pc m.kern.OSTCBCur).pend ≠ none) :
    ∃ A', m'.Inv A' ∧ m.kern.OSTCBCur ∈ A'.list ∧ A'.kind e = kd ∧
      (A'.task m.kern.OSTCBCur).phase = .wait e n := by
  have he := enabled_of_step hs
  have hcur := (h.running_run he.1 he.2.1).1
  obtain ⟨m'', as, A', hs', ⟨x, hx, heffect⟩, hexec, hA'⟩ := h.step he trivial
  obtain rfl := Option.some.inj (hs.symm.trans hs')
  rw [Machine.step, if_pos he, next_call hx] at hs
  obtain rfl := Option.some.inj hs
  rw [exit_pc_self] at hwait
  rcases heffect with ⟨_, ⟨hfail, _⟩ | hlocks⟩ | ⟨_, hk, _, _, hacts⟩ | ⟨_, hbegins⟩
  · rw [hfail] at hwait
    exact absurd rfl hwait
  · exact hlocks.elim
  · rcases hacts with ⟨_, _, hnone, _⟩ | ⟨rfl, _⟩
    · exact absurd hnone hwait
    · obtain ⟨_, rfl⟩ := Model.exec_one_iff.mp hexec
      exact ⟨_, hA', hcur, hk, congrArg Task.phase Model.edit_task_self⟩
  · exact hbegins.elim

theorem pendEnd_timeout {kd : Kind} {k : Kern} (h : (pendEnd kd e k).1.1 = OS_ERR_TIMEOUT) :
    k.cur.OSTCBStatPend = .TO := by
  unfold pendEnd at h
  cases hs : k.cur.OSTCBStatPend with
  | TO => rfl
  | OK =>
      simp only [hs] at h
      cases h
  | ABORT =>
      simp only [hs] at h
      cases h

end Machine

end Stm32Templet.Core
