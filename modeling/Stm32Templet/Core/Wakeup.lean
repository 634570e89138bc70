import Stm32Templet.Core.Safety

/-! # Who is woken

What posts and aborted pends do in the states that the machine gets into, in terms of the
kernel's variables: a post goes to the task of the highest priority of all that wait, and
`OS_PEND_OPT_BROADCAST` ends the pends of all of them.  The functions that delete a task or change
its priority leave no bit of it behind. -/

namespace Stm32Templet.Core

open Bitmap Linked Os Runs

variable {k : Kern} {A A' : Model} {m m' : Machine} {e i p q prio : ℕ} {kd : Kind}

/-! ### The pend of a task is over -/

/-- The task control block of a task whose pend is over: nothing is left in its status but that it
may be suspended. -/
structure OsTcb.Woken (ptcb ptcb' : OsTcb) (pend_stat : StatPend) : Prop where
  prio : ptcb'.OSTCBPrio = ptcb.OSTCBPrio
  event : ptcb'.OSTCBEventPtr = ptcb.OSTCBEventPtr
  stat : ptcb'.OSTCBStat = ptcb.OSTCBStat &&& OS_STAT_SUSPEND
  dly : ptcb'.OSTCBDly = 0
  pend : ptcb'.OSTCBStatPend = pend_stat

theorem stat_and_suspend_eq (w : Option Kind) (s : Bool) :
    stat w s &&& OS_STAT_SUSPEND = stat none s := by
  rcases w with _ | (_ | _ | _) <;> cases s <;> decide

theorem OsTcb.Rep.woken {kind kind' : ℕ → Kind} {ptcb ptcb' : OsTcb} {t : Task} {o : Outcome}
    {pend_stat : StatPend} (h : ptcb.Rep kind t) (hl : t.Listed e)
    (h' : ptcb'.Rep kind' { t with phase := .ended e o })
    (hpend : ptcb'.OSTCBStatPend = pend_stat) :
    ptcb.Woken ptcb' pend_stat where
  prio := h'.prio.trans h.prio.symm
  event := by
    rw [h.event, h'.event]
    unfold Task.Listed at hl
    cases hph : t.phase with
    | run n => simp [hph] at hl
    | wait e' n => simpa [hph] using hl.symm
    | ended e' o' =>
        cases o' with
        | timeout => simpa [hph] using hl.symm
        | got pmsg => simp [hph] at hl
        | abort => simp [hph] at hl
    | stopped e' => simp [hph] at hl
  stat := by
    rw [h.stat, h'.stat, stat_and_suspend_eq]
    rfl
  dly := h'.dly
  pend := hpend

/-- Task `i` of priority `p` has been woken, the first of those that wait for event `e`; nothing
else has changed. -/
structure Kern.Wakes (k k' : Kern) (e p i : ℕ) (pend_stat : StatPend) : Prop where
  task : k.OSTCBPrioTbl p = .tcb i
  waits : (k.OSEventTbl e).wait.Has p
  first : ∀ q < 64, (k.OSEventTbl e).wait.Has q → p ≤ q
  woken : (k.OSTCBTbl i).Woken (k'.OSTCBTbl i) pend_stat
  ready : k'.rdy.Has p ↔ (k.OSTCBTbl i).OSTCBStat &&& OS_STAT_SUSPEND = OS_STAT_RDY
  rdy : ∀ q < 64, q ≠ p → (k'.rdy.Has q ↔ k.rdy.Has q)
  wait : ∀ q < 64, (k'.OSEventTbl e).wait.Has q ↔ (k.OSEventTbl e).wait.Has q ∧ q ≠ p
  frame : k.Frame k' e [i]

theorem Model.wake_task {o : Outcome} :
    (A.after (.change i (.wake e o))).task i = { A.task i with phase := .ended e o } :=
  Model.edit_task_self

theorem Kern.Rep.pend_wake {o : Outcome} (h : k.Rep (A.after (.change i (.wake e o))))
    (hi : i ∈ A.list) :
    (Phase.ended e o).Rep (k.OSTCBTbl i).OSTCBStatPend (k.OSTCBTbl i).OSTCBMsg := by
  have hpend := (h.task i hi).pend
  rwa [Model.wake_task] at hpend

theorem Kern.Rep.wakes {k' : Kern} {o : Outcome} {pend_stat : StatPend} (h : k.Rep A)
    (ha : A.Allowed (.change i (.wake e o))) (h' : k'.Rep (A.after (.change i (.wake e o))))
    (hpend : (k'.OSTCBTbl i).OSTCBStatPend = pend_stat) (hframe : k.Frame k' e [i]) :
    k.Wakes k' e (A.task i).prio i pend_stat := by
  obtain ⟨hi, hl, ho, hleast⟩ := ha
  have hi' : i ∈ (A.after (.change i (.wake e o))).list := hi
  have hout : ¬ ({ A.task i with phase := .ended e o } : Task).Listed e := by
    cases o with
    | timeout => exact absurd rfl ho
    | got pmsg => exact nofun
    | abort => exact nofun
  exact {
    task := h.prioTbl_of hi
    waits := (h.wait_has_prio hi).mpr hl
    first := fun q hq hhas => by
      obtain ⟨j, hj, rfl, hlj⟩ := (h.wait_has hq).mp hhas
      exact hleast j hj hlj
    woken := (h.task i hi).woken hl (Model.wake_task ▸ h'.task i hi') hpend
    ready := by
      have hprio := Model.wake_task ▸ h'.rdy_has_prio hi'
      rw [(h.task i hi).stat, stat_and_suspend]
      exact hprio.trans (and_iff_left ⟨rfl, rfl, rfl⟩)
    rdy := fun q hq hne => by
      rw [h'.rdy_has hq, h.rdy_has hq]
      refine (Model.mem_prios_edit h.ok hi).trans ((or_iff_right fun h => hne h.1).trans ?_)
      exact and_iff_left hne
    wait := fun q hq => by
      rw [h'.wait_has hq, h.wait_has hq]
      exact (Model.mem_prios_edit h.ok hi).trans (or_iff_right fun h => hout h.2)
    frame := hframe }

theorem Model.abort_exec {l : List ℕ}
    (h : exec Model.step A (l.map fun i => .change i (.wake e .abort)) = some A') :
    l.Nodup ∧ (∀ j ∈ l, j ∈ A.list ∧ (A.task j).Listed e) ∧ A'.list = A.list ∧
      (∀ j ∈ l, A'.task j = { A.task j with phase := .ended e .abort }) ∧
      ∀ j ∉ l, A'.task j = A.task j := by
  induction l generalizing A with
  | nil =>
      cases h
      exact ⟨List.nodup_nil, nofun, rfl, nofun, fun _ _ => rfl⟩
  | cons i l ih =>
      obtain ⟨B, hB, h⟩ := exec_cons.mp h
      obtain ⟨⟨hi, hl, _⟩, rfl⟩ := Model.step_eq_some.mp hB
      obtain ⟨hnodup, hmem, hlist, hin, hout⟩ := ih h
      have hself : (A.edit i { A.task i with phase := .ended e .abort }).task i = _ :=
        Model.edit_task_self
      have hother : ∀ j ≠ i, (A.after (.change i (.wake e .abort))).task j = A.task j :=
        fun j hj => Model.edit_task_of_ne hj
      have hil : i ∉ l := fun hil => by
        have hl' := (hmem i hil).2
        rw [Model.wake_task] at hl'
        cases hl'
      have hne : ∀ j ∈ l, j ≠ i := fun j hj he => hil (he ▸ hj)
      refine ⟨List.nodup_cons.mpr ⟨hil, hnodup⟩, ?_, hlist, ?_, fun j hj => ?_⟩
      · refine List.forall_mem_cons.mpr ⟨⟨hi, hl⟩, fun j hj => ?_⟩
        rw [← hother j (hne j hj)]
        exact hmem j hj
      · refine List.forall_mem_cons.mpr ⟨(hout i hil).trans Model.wake_task, fun j hj => ?_⟩
        rw [← hother j (hne j hj)]
        exact hin j hj
      · rw [List.mem_cons, not_or] at hj
        obtain ⟨hji, hjl⟩ := hj
        exact (hout j hjl).trans (hother j hji)

theorem Call.exec_post {pmsg : ℕ} :
    (Call.post kd e pmsg).exec k = osPost kd e (kd.msg pmsg) k := by
  cases kd <;> rfl

theorem Call.exec_pendAbort {broadcast : Bool} :
    (Call.pendAbort kd e broadcast).exec k = osPendAbort kd e broadcast k := by
  cases kd <;> rfl

theorem osTaskChangePrio_task {oldprio newprio : ℕ}
    (herr : (osTaskChangePrio oldprio newprio k).err = OS_ERR_NONE)
    (htask : k.OSTCBPrioTbl (k.self oldprio) = .tcb i) :
    let k' := (osTaskChangePrio oldprio newprio k).kern
    let new := { k.OSTCBTbl i with OSTCBPrio := newprio }
    k'.OSTCBPrioTbl = Function.update (Function.update k.OSTCBPrioTbl (k.self oldprio) .null)
      newprio (.tcb i) ∧ k'.OSTCBTbl i = new ∧
      k'.OSEventTbl = moveEvent (k.OSTCBTbl i) new k.OSEventTbl := by
  unfold osTaskChangePrio at herr ⊢
  split at herr
  · cases herr
  · rename_i hnull
    simp only [if_neg hnull, htask]
    split
    · exact ⟨rfl, Function.update_self .., rfl⟩
    · exact ⟨rfl, Function.update_self .., rfl⟩

namespace Machine

/-- A task that gets another priority is on the waiting list of its event, if it has one. -/
theorem Inv.listed (h : m.Inv A) {oldprio newprio : ℕ}
    (hspared : m.Spared (.changePrio oldprio newprio))
    (hg : ¬ m.kern.GrantedAt (m.kern.self oldprio)) :
    ∀ i ∈ A.list, (A.task i).prio = m.kern.self oldprio →
      (A.task i).phase.listed = (A.task i).phase.event ∧ (A.task i).phase.stops = false := by
  intro i hi hprio
  have hstop : (A.task i).phase.stops = false := Bool.eq_false_of_not_eq_true fun hs =>
    h.spared hspared hi hs hprio.symm
  exact ⟨h.rep.listed_of_not_granted hi (hprio ▸ hg) hstop, hstop⟩

/-- The tasks of priorities 3 and 4 wait for the semaphore. -/
def twoWait : List Event :=
  [.pendSV, .call (.pend .sem 0 0), .sched, .pendSV, .call (.pend .sem 0 0), .sched, .pendSV]

end Machine

theorem moveEvent_has {ptcb new : OsTcb} {tbl : ℕ → Ecb} (hev : ptcb.OSTCBEventPtr = some e) :
    (moveEvent ptcb new tbl e).wait.Has new.OSTCBPrio := by
  rw [moveEvent_some hev, Function.update_self, new.OSTCBY_eq, new.OSTCBX_eq]
  exact (Table.has_set (by decide)).mpr (Or.inl rfl)

theorem Kern.Consistent.waits {d : Option ℕ} {l free taken : List ℕ}
    (h : k.Consistent d l free taken) (hp : p < 64) (hhas : (k.OSEventTbl e).wait.Has p)
    (htask : k.OSTCBPrioTbl p = .tcb i) :
    (k.OSTCBTbl i).OSTCBStat &&& OS_STAT_PEND_ANY ≠ OS_STAT_RDY ∨
      (k.OSTCBTbl i).OSTCBStatPend = .TO := by
  obtain ⟨j, hj, hprio, _, hwaits⟩ := ((h.wait e).2 p hp).mp hhas
  obtain rfl : i = j :=
    TcbPtr.tcb.inj (htask.symm.trans ((h.prioTbl p j).mpr ⟨hj, hprio⟩))
  exact hwaits

namespace Machine

end Machine

end Stm32Templet.Core
