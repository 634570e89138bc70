import Stm32Templet.Core.Start

/-! # What holds in every state

The kernel's variables are consistent in every state that the machine gets into
(`Kern.Consistent`), and no function follows a pointer that is none.  Unless the scheduler is
locked, the task that has the processor is the ready task of the highest priority, and no task
waits for something that is there. -/

namespace Stm32Templet.Core

open Bitmap Linked Os Runs

variable {k : Kern} {A A' : Model} {m m' : Machine} {e i q : ℕ}

/-! ### Refinement -/

/-- The task control blocks `l` are in use, `free` are free, and `taken` have been taken by
creations that have not ended; `d` is the one that is being deleted, if any. -/
structure Kern.Consistent (k : Kern) (d : Option ℕ) (l free taken : List ℕ) : Prop where
  perm : (l ++ (free ++ taken)).Perm (List.range (OS_MAX_TASKS + OS_N_SYS_TASKS))
  links : Links k.tcbNext k.tcbPrev none k.OSTCBList l
  chain : Chain k.tcbNext k.OSTCBFreeList free
  ctr : k.OSTaskCtr = l.length
  prioTbl : ∀ p i, k.OSTCBPrioTbl p = .tcb i ↔ i ∈ l ∧ (k.OSTCBTbl i).OSTCBPrio = p
  reserved_le : ∀ p, k.OSTCBPrioTbl p = .reserved → p ≤ OS_LOWEST_PRIO
  prio_le : ∀ i ∈ l, (k.OSTCBTbl i).OSTCBPrio ≤ OS_LOWEST_PRIO
  rdy : k.rdy.Is { p | ∃ i ∈ l, (k.OSTCBTbl i).OSTCBPrio = p ∧ d ≠ some i ∧
    (k.OSTCBTbl i).OSTCBStat = OS_STAT_RDY ∧ (k.OSTCBTbl i).OSTCBDly = 0 }
  /-- After its time limit a task is on the waiting list until it runs. -/
  wait : ∀ e, (k.OSEventTbl e).wait.Is { p | ∃ i ∈ l, (k.OSTCBTbl i).OSTCBPrio = p ∧
    (k.OSTCBTbl i).OSTCBEventPtr = some e ∧
      ((k.OSTCBTbl i).OSTCBStat &&& OS_STAT_PEND_ANY ≠ OS_STAT_RDY ∨
        (k.OSTCBTbl i).OSTCBStatPend = .TO) }
  stat : ∀ i ∈ l, (k.OSTCBTbl i).OSTCBStat &&& OS_STAT_PEND_ANY ≠ OS_STAT_RDY →
    ∃ e, (k.OSTCBTbl i).OSTCBEventPtr = some e ∧
      (k.OSTCBTbl i).OSTCBStat &&& OS_STAT_PEND_ANY = (k.OSEventTbl e).obj.kind.msk

/-- The priority that a task has reserved is so in `OSTCBPrioTbl`, and the task control block that
it has taken is one of those taken; no other task has them. -/
structure Machine.Creations (m : Machine) (l taken : List ℕ) : Prop where
  reserved : ∀ i ∈ l, ∀ p, (m.pc i).reserved = some p →
    m.kern.OSTCBPrioTbl p = .reserved ∧ ∀ j ∈ l, (m.pc j).reserved = some p → j = i
  taken : Claims l (fun i => (m.pc i).taken) taken

theorem OsTcb.Rep.listed_iff {kind : ℕ → Kind} {ptcb : OsTcb} {t : Task} (h : ptcb.Rep kind t) :
    t.Listed e ↔ ptcb.OSTCBEventPtr = some e ∧
      (ptcb.OSTCBStat &&& OS_STAT_PEND_ANY ≠ OS_STAT_RDY ∨ ptcb.OSTCBStatPend = .TO) := by
  have hpend := h.pend
  rw [Task.Listed, h.event, h.stat, Ne, stat_and_pend, Option.map_eq_none_iff]
  cases hph : t.phase with
  | run n => simp
  | wait e' n => simp
  | ended e' o =>
      rw [hph] at hpend
      cases o with
      | got pmsg => simp [hpend.1]
      | timeout => simp [show ptcb.OSTCBStatPend = .TO from hpend]
      | abort => simp [show ptcb.OSTCBStatPend = .ABORT from hpend]
  | stopped e' =>
      rw [hph] at hpend
      simp [show ptcb.OSTCBStatPend = .OK from hpend]

theorem stat_and_pend_any (kd : Kind) (s : Bool) :
    stat (some kd) s &&& OS_STAT_PEND_ANY = kd.msk := by
  cases kd <;> cases s <;> decide

theorem Kern.Rep.consistent_of_perm (h : k.Rep A)
    (hperm : A.tcbs.Perm (List.range (OS_MAX_TASKS + OS_N_SYS_TASKS))) {d : Option ℕ}
    (hd : ∀ i, d = some i ↔ i ∈ A.list ∧ (A.task i).phase.stops = true) :
    k.Consistent d A.list A.free A.taken where
  perm := hperm
  links := h.links
  chain := h.chain
  ctr := h.ctr
  prioTbl p i := (h.prioTbl p i).trans (and_congr_right fun hi => by rw [(h.task i hi).prio])
  reserved_le p hp := h.ok.reserved_le p ((h.reserved p).mp hp)
  prio_le i hi := (h.task i hi).prio ▸ h.ok.prio_le i hi
  rdy := h.rdy.congr fun p => exists_congr fun i => and_congr_right fun hi => by
    rw [(h.task i hi).prio]
    refine and_congr_right fun _ => ?_
    by_cases hs : (A.task i).phase.stops = true
    · exact iff_of_false (fun hr => by cases hr.2.2.2.symm.trans hs) fun hne =>
        hne.1 ((hd i).mpr ⟨hi, hs⟩)
    · rw [(h.task i hi).ready_iff (Bool.eq_false_of_not_eq_true hs)]
      exact (and_iff_right fun he => hs ((hd i).mp he).2).symm
  wait e := (h.wait e).congr fun p => exists_congr fun i => and_congr_right fun hi => by
    rw [(h.task i hi).prio, (h.task i hi).listed_iff]
  stat i hi hne := by
    have ht := h.task i hi
    rw [ht.stat] at hne ⊢
    rw [ht.event]
    cases hph : (A.task i).phase with
    | wait e n =>
        refine ⟨e, rfl, ?_⟩
        rw [h.kind_eq]
        exact stat_and_pend_any _ _
    | run n =>
        rw [hph] at hne
        exact absurd ((stat_and_pend _ _).mpr rfl) hne
    | ended e o =>
        rw [hph] at hne
        exact absurd ((stat_and_pend _ _).mpr rfl) hne
    | stopped e =>
        rw [hph] at hne
        exact absurd ((stat_and_pend _ _).mpr rfl) hne

theorem Kern.Rep.wait_has (h : k.Rep A) (hq : q < 64) :
    (k.OSEventTbl e).wait.Has q ↔ ∃ i ∈ A.list, (A.task i).prio = q ∧ (A.task i).Listed e :=
  (h.wait e).2 q hq

theorem Kern.Rep.rdy_has (h : k.Rep A) (hq : q < 64) :
    k.rdy.Has q ↔ ∃ i ∈ A.list, (A.task i).prio = q ∧ (A.task i).Ready :=
  h.rdy.2 q hq

theorem Kern.Rep.wait_has_prio (h : k.Rep A) (hi : i ∈ A.list) :
    (k.OSEventTbl e).wait.Has (A.task i).prio ↔ (A.task i).Listed e := by
  rw [h.wait_has (Nat.lt_succ_of_le (h.ok.prio_le i hi))]
  exact Model.prio_mem_prios h.ok hi

theorem Kern.Rep.rdy_has_prio (h : k.Rep A) (hi : i ∈ A.list) :
    k.rdy.Has (A.task i).prio ↔ (A.task i).Ready := by
  rw [h.rdy_has (Nat.lt_succ_of_le (h.ok.prio_le i hi))]
  exact Model.prio_mem_prios h.ok hi

/-! ### Scheduling -/

theorem Call.Effect.ctl {c : Call} {x : Exit} {as : List Act} (heffect : c.Effect k A x as)
    (h : k.Rep A) : x.kern.ctl = k.ctl := by
  obtain ⟨_, _, _, hctl⟩ := heffect.exec h
  exact hctl

theorem osSched_cur (k : Kern) : (osSched k).OSTCBCur = k.OSTCBCur := by
  obtain ⟨prio, high, pend, he⟩ := osSched_eq k
  rw [he]

theorem pendEnd_cur (kd : Kind) (e : ℕ) (k : Kern) :
    (pendEnd kd e k).2.OSTCBCur = k.OSTCBCur := by
  unfold pendEnd
  cases k.cur.OSTCBStatPend <;> rfl

theorem osIntExit_cur (k : Kern) : (osIntExit k).OSTCBCur = k.OSTCBCur := by
  obtain ⟨int, prio, high, pend, he⟩ := osIntExit_eq k
  rw [he]

namespace Machine

theorem Inv.step_cur (h : m.Inv A) {ev : Event} (hc : m.Contract ev) (hne : ev ≠ .pendSV)
    (hs : m.step ev = some m') : m'.kern.OSTCBCur = m.kern.OSTCBCur := by
  have he : m.Enabled ev := enabled_of_step hs
  rw [Machine.step, if_pos he] at hs
  cases ev with
  | pendSV => exact absurd rfl hne
  | call c =>
      obtain ⟨x, as, A', hx, heffect, _⟩ := h.call he.1 he.2.1 he.2.2 hc
      rw [next_call hx] at hs
      cases hs
      exact congrArg Ctl.OSTCBCur (heffect.ctl h.rep)
  | sched =>
      cases hs
      exact osSched_cur _
  | pendEnd =>
      obtain ⟨e, o, hat, _⟩ := h.pend_end he.1 he.2.1 he.2.2
      unfold next at hs
      rw [hat] at hs
      cases hs
      exact pendEnd_cur _ _ _
  | proceed =>
      obtain ⟨s, x, as, A', hat, hx, hgoes, _⟩ := h.proceed he.1 he.2.1 he.2.2
      rw [next_proceed hat hx] at hs
      cases hs
      exact congrArg Ctl.OSTCBCur hgoes.ctl
  | intEnter =>
      cases hs
      change (osIntEnter m.kern).OSTCBCur = _
      unfold osIntEnter
      rw [if_pos h.run]
      split <;> rfl
  | intExit =>
      cases hs
      exact osIntExit_cur _
  | isr c =>
      obtain ⟨x, as, A', hx, heffect, _⟩ := h.isr he hc.1 hc.2
      unfold next at hs
      simp only [hx] at hs
      cases hs
      have hcur : x.kern.OSTCBCur = m.kern.OSTCBCur := congrArg Ctl.OSTCBCur (heffect.ctl h.rep)
      change (if x.sched then osSched x.kern else x.kern).OSTCBCur = _
      split
      · exact (osSched_cur _).trans hcur
      · exact hcur
  | tick =>
      cases hs
      rfl
  | tickTcb =>
      obtain ⟨cur, hcur⟩ := Option.ne_none_iff_exists'.mp he.2
      obtain ⟨i, _, rfl, _⟩ := h.tick_loop hcur
      obtain ⟨tbl, rdy, heq⟩ := tickTcb_eq i m.kern
      unfold next at hs
      simp only [hcur, Option.bind_eq_bind, Option.bind_some, heq] at hs
      split at hs
      · cases hs
        rfl
      · cases hs
        rfl

end Machine

end Stm32Templet.Core
