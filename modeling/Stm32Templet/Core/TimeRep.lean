import Stm32Templet.Core.TaskRep

/-! # Priorities, suspension and time

`OSTaskChangePrio`, `OSTaskSuspend`, `OSTaskResume`, `OSTimeDly`, `OSTimeDlyResume` and the tick:
the changes of one task that they are. -/

namespace Stm32Templet.Core

open Bitmap Os Runs

variable {k : Kern} {A : Model} {i prio : ℕ}

/-! ### Change of a priority -/

theorem Kern.Rep.prioTbl_setPrio (h : k.Rep A) (hi : i ∈ A.list) {new : ℕ}
    (hfresh : ∀ j ∈ A.list, (A.task j).prio ≠ new) (p j : ℕ) :
    Function.update (Function.update k.OSTCBPrioTbl (A.task i).prio .null) new (.tcb i) p = .tcb j ↔
      j ∈ A.list ∧ ((A.edit i { A.task i with prio := new }).task j).prio = p := by
  have hother : ∀ j ≠ i, (A.edit i { A.task i with prio := new }).task j = A.task j := fun j hj =>
    Model.edit_task_of_ne hj
  by_cases hp : p = new
  · subst hp
    rw [Function.update_self]
    constructor
    · rintro he
      obtain rfl := TcbPtr.tcb.inj he
      exact ⟨hi, by rw [Model.edit_task_self]⟩
    · rintro ⟨hj, he⟩
      by_cases hji : j = i
      · rw [hji]
      · rw [hother j hji] at he
        exact absurd he (hfresh j hj)
  · rw [Function.update_of_ne hp]
    by_cases hold : p = (A.task i).prio
    · subst hold
      rw [Function.update_self]
      refine iff_of_false nofun ?_
      rintro ⟨hj, he⟩
      by_cases hji : j = i
      · subst hji
        rw [Model.edit_task_self] at he
        exact hp he.symm
      · rw [hother j hji] at he
        exact hji (h.ok.unique j hj i hi he)
    · rw [Function.update_of_ne hold, h.prioTbl p j]
      by_cases hji : j = i
      · subst hji
        rw [Model.edit_task_self]
        exact iff_of_false (fun hj => hold hj.2.symm) fun hj => hp hj.2.symm
      · rw [hother j hji]

theorem Kern.Rep.ready_bit (h : k.Rep A) (hi : i ∈ A.list) :
    (k.rdy.tbl (k.OSTCBTbl i).OSTCBY).getLsbD (k.OSTCBTbl i).OSTCBX = true ↔
      (A.task i).Ready := by
  rw [OsTcb.OSTCBY_eq, OsTcb.OSTCBX_eq, (h.task i hi).prio]
  exact (h.rdy.2 _ (Nat.lt_succ_of_le (h.ok.prio_le i hi))).trans (Model.prio_mem_prios h.ok hi)

theorem Kern.Rep.moveReady (h : k.Rep A) (hi : i ∈ A.list) {newprio : ℕ} :
    (Core.moveReady (k.OSTCBTbl i) { k.OSTCBTbl i with OSTCBPrio := newprio } k.rdy).Is
      ((A.edit i { A.task i with prio := newprio }).prios Task.Ready) := by
  unfold Core.moveReady
  simp only [h.ready_bit hi]
  split
  · rename_i hready
    exact h.is_move hi h.rdy (t := { A.task i with prio := newprio }) rfl hready
  · rename_i hready
    exact h.is_none hi h.rdy (t := { A.task i with prio := newprio }) hready hready

theorem moveEvent_none {ptcb new : OsTcb} {tbl : ℕ → Ecb} (hev : ptcb.OSTCBEventPtr = none) :
    moveEvent ptcb new tbl = tbl := by
  unfold moveEvent
  rw [hev]

theorem moveEvent_some {ptcb new : OsTcb} {tbl : ℕ → Ecb} {e : ℕ}
    (hev : ptcb.OSTCBEventPtr = some e) :
    moveEvent ptcb new tbl = Function.update tbl e { tbl e with
      wait := ((tbl e).wait.clear ptcb.OSTCBY ptcb.OSTCBX).set new.OSTCBY new.OSTCBX } := by
  unfold moveEvent
  rw [hev]

theorem moveEvent_obj {ptcb new : OsTcb} {tbl : ℕ → Ecb} (e : ℕ) :
    (moveEvent ptcb new tbl e).obj = (tbl e).obj := by
  obtain hev | ⟨e', hev⟩ := ptcb.OSTCBEventPtr.eq_none_or_eq_some
  · rw [moveEvent_none hev]
  · rw [moveEvent_some hev]
    by_cases he : e = e' <;> simp [he]

/-- A task that has an event is on its waiting list, or it may not get another priority. -/
theorem Kern.Rep.moveEvent (h : k.Rep A) (hi : i ∈ A.list) {newprio : ℕ}
    (hl : (A.task i).phase.listed = (A.task i).phase.event) (e : ℕ) :
    (Core.moveEvent (k.OSTCBTbl i) { k.OSTCBTbl i with OSTCBPrio := newprio } k.OSEventTbl
      e).wait.Is ((A.edit i { A.task i with prio := newprio }).prios (Task.Listed e)) := by
  rw [← (h.task i hi).event] at hl
  obtain hev | ⟨e', hev⟩ := (k.OSTCBTbl i).OSTCBEventPtr.eq_none_or_eq_some
  · rw [moveEvent_none hev]
    have hnot : ¬ (A.task i).Listed e := fun he => nomatch (hl.trans hev).symm.trans he
    exact h.is_none hi (h.wait e) hnot hnot
  · rw [moveEvent_some hev]
    by_cases he : e = e'
    · subst he
      rw [Function.update_self]
      exact h.is_move hi (h.wait e) rfl (hl.trans hev)
    · have hnot : ¬ (A.task i).Listed e := fun h' =>
        he (Option.some.inj (h'.symm.trans (hl.trans hev)))
      rw [Function.update_of_ne he]
      exact h.is_none hi (h.wait e) hnot hnot

theorem osTaskChangePrio_spec (h : k.Rep A) {oldprio newprio : ℕ}
    (hidle : k.self oldprio ≠ OS_TASK_IDLE_PRIO) (hlt : newprio < OS_TASK_IDLE_PRIO)
    (hlisted : ∀ i ∈ A.list, (A.task i).prio = k.self oldprio →
      (A.task i).phase.listed = (A.task i).phase.event ∧ (A.task i).phase.stops = false) :
    let x := osTaskChangePrio oldprio newprio k
    x = k.ret x.err ∧ x.err ≠ OS_ERR_NONE ∨
      ∃ i ∈ A.list, (A.task i).prio = k.self oldprio ∧
        x.Does k A [.change i (.setPrio newprio)] ∧ x.err = OS_ERR_NONE ∧ x.pend = none ∧
        x.sched = k.OSRunning := by
  unfold osTaskChangePrio
  simp only
  split
  · exact Or.inl ⟨rfl, (by decide : OS_ERR_PRIO_EXIST ≠ OS_ERR_NONE)⟩
  rename_i hnull
  have hfresh := h.prioTbl_null.mp (not_not.mp hnull)
  split
  · exact Or.inl ⟨rfl, (by decide : OS_ERR_PRIO ≠ OS_ERR_NONE)⟩
  · exact Or.inl ⟨rfl, (by decide : OS_ERR_TASK_NOT_EXIST ≠ OS_ERR_NONE)⟩
  · rename_i i hp
    obtain ⟨hi, hprio⟩ := h.mem_of_prioTbl hp
    obtain ⟨hl, hstop⟩ := hlisted i hi hprio
    have ht := h.task i hi
    have ha : A.Allowed (.change i (.setPrio newprio)) :=
      ⟨hi, fun he => hidle (hprio ▸ he), hlt, hfresh, hl, hstop⟩
    have hrep : OsTcb.Rep A.kind { k.OSTCBTbl i with OSTCBPrio := newprio }
        { A.task i with prio := newprio } := ⟨rfl, ht.dly, ht.event, ht.stat, ht.pend⟩
    have htbl := h.prioTbl_setPrio hi hfresh.1
    rw [hprio] at htbl
    have hold : k.self oldprio ∉ A.reserved := hprio ▸ h.ok.fresh i hi
    have hres : ∀ p, Function.update (Function.update k.OSTCBPrioTbl (k.self oldprio) .null) newprio
        (.tcb i) p = .reserved ↔ p ∈ A.reserved := by
      intro p
      rw [Function.update_apply, Function.update_apply]
      split
      · rename_i hp
        exact iff_of_false nofun (hp ▸ hfresh.2)
      split
      · rename_i hp
        exact iff_of_false nofun (hp ▸ hold)
      · exact h.reserved p
    have hk := h.edit hi hrep rfl rfl (h.ok.change hi ha.2) htbl hres moveEvent_obj
      (h.moveReady hi) (h.moveEvent hi hl)
    exact Or.inr ⟨i, hi, hprio, Exit.does_run (k := k) ha hk rfl rfl OS_ERR_NONE⟩

/-! ### Suspension -/

theorem osTaskSuspend_spec (h : k.Rep A) (hidle : k.self prio ≠ OS_TASK_IDLE_PRIO)
    (hstop : ∀ i ∈ A.list, (A.task i).prio = k.self prio → (A.task i).phase.stops = false) :
    let x := osTaskSuspend prio k
    x = k.ret x.err ∨
      ∃ i ∈ A.list, (A.task i).prio = k.self prio ∧ x.Does k A [.change i .suspend] ∧
        x.pend = none ∧ (x.sched = false → k.self prio ≠ k.cur.OSTCBPrio) := by
  unfold osTaskSuspend
  simp only
  split
  · exact Or.inl rfl
  · exact Or.inl rfl
  · rename_i i hp
    obtain ⟨hi, hprio⟩ := h.mem_of_prioTbl hp
    have ht := h.task i hi
    refine Or.inr ⟨i, hi, hprio, ?_, ?_, ?_⟩
    · have ha : A.Allowed (.change i .suspend) :=
        ⟨hi, fun he => hidle (hprio ▸ he), hstop i hi hprio⟩
      have hrep : Kern.Rep _ (A.after (.change i .suspend)) :=
        h.edit_unready hi (show OsTcb.Rep A.kind { k.OSTCBTbl i with
            OSTCBStat := (k.OSTCBTbl i).OSTCBStat ||| OS_STAT_SUSPEND } _ from
          ⟨ht.prio, ht.dly, ht.event, by simp [ht.stat], ht.pend⟩) rfl rfl (h.ok.change hi ha.2) rfl
          (fun hr => by cases hr.1) rfl
      split
      · exact Exit.does_one ha hrep rfl rfl rfl
      · exact Exit.does_one ha hrep rfl rfl rfl
    · split <;> rfl
    · split
      · exact fun hs => by cases hs
      · rename_i hself
        exact fun _ he => hself (decide_eq_true he)

theorem osTaskResume_spec (prio : ℕ) (h : k.Rep A) :
    let x := osTaskResume prio k
    x = k.ret x.err ∨
      ∃ i ∈ A.list, (A.task i).prio = prio ∧ x.Does k A [.change i .resume] ∧ x.pend = none ∧
        (x.sched = false → k.OSRunning = true →
          ¬ ({ A.task i with susp := false } : Task).Ready) := by
  unfold osTaskResume
  simp only
  split
  · exact Or.inl rfl
  · exact Or.inl rfl
  · rename_i i hp
    obtain ⟨hi, hprio⟩ := h.mem_of_prioTbl hp
    have ht := h.task i hi
    split
    · rename_i hs
      have hs' : (A.task i).susp = true := by simpa [ht.stat] using hs
      have ha : A.Allowed (.change i .resume) := ⟨hi, hs'⟩
      have hold : ¬ (A.task i).Ready := fun hr => by rw [hr.1] at hs'; cases hs'
      have hrep : OsTcb.Rep A.kind { k.OSTCBTbl i with
          OSTCBStat := (k.OSTCBTbl i).OSTCBStat &&& ~~~OS_STAT_SUSPEND }
          { A.task i with susp := false } :=
        ⟨ht.prio, ht.dly, ht.event, by simp [ht.stat], ht.pend⟩
      have hstop : (A.task i).phase.stops = false := Bool.eq_false_of_not_eq_true fun hstop => by
        rw [h.ok.live i hi hstop] at hs'
        cases hs'
      have hok := h.ok.change hi ha.2
      refine Or.inr ⟨i, hi, hprio, ?_⟩
      by_cases hready : ({ A.task i with susp := false } : Task).Ready
      · obtain ⟨hstat, hdly⟩ := (hrep.ready_iff hstop).mp hready
        rw [if_pos hstat, if_pos hdly]
        have hk := h.edit_ready hi hrep rfl rfl hok rfl hready rfl
        split
        · exact ⟨Exit.does_one ha hk rfl rfl rfl, rfl, fun hs => by cases hs⟩
        · rename_i hrun
          exact ⟨Exit.does_one ha hk rfl rfl rfl, rfl, fun _ h' => absurd h' hrun⟩
      · have hk := h.edit_same hi hrep rfl rfl hok rfl (iff_of_false hready hold) rfl
        split
        · rename_i hstat
          rw [if_neg fun hdly => hready ((hrep.ready_iff hstop).mpr ⟨hstat, hdly⟩)]
          exact ⟨Exit.does_one ha hk rfl rfl rfl, rfl, fun _ _ => hready⟩
        · exact ⟨Exit.does_one ha hk rfl rfl rfl, rfl, fun _ _ => hready⟩
    · exact Or.inl rfl

/-! ### Time -/

theorem osTimeDly_spec (ticks : ℕ) (h : k.Rep A)
    (hcur : k.OSIntNesting = 0 → k.OSLockNesting = 0 → k.OSTCBCur ∈ A.list ∧
      (A.task k.OSTCBCur).prio ≠ OS_TASK_IDLE_PRIO ∧ (A.task k.OSTCBCur).phase = .run 0) :
    let x := osTimeDly ticks k
    x = k.ret x.err ∨
      k.OSIntNesting = 0 ∧ k.OSLockNesting = 0 ∧ ticks > 0 ∧
        x.Does k A [.change k.OSTCBCur (.delay ticks)] ∧ x.pend = none ∧ x.sched = true := by
  unfold osTimeDly
  simp only
  split
  · exact Or.inl rfl
  split
  · exact Or.inl rfl
  split
  · rename_i hint hlock hticks
    obtain ⟨hcur, hidle, hrun⟩ := hcur (by omega) (by omega)
    have ht := h.task _ hcur
    rw [← Kern.cur] at ht
    have hrep : OsTcb.Rep A.kind { k.cur with OSTCBDly := ticks }
        { A.task k.OSTCBCur with phase := .run ticks } :=
      ⟨ht.prio, rfl, by rw [ht.event, hrun]; rfl, by rw [ht.stat, hrun]; rfl, trivial⟩
    have hnot : ¬ ({ A.task k.OSTCBCur with phase := .run ticks } : Task).Ready := by
      rintro ⟨_, _, hd, _⟩
      exact absurd hd hticks.ne'
    have ha : A.Allowed (.change k.OSTCBCur (.delay ticks)) := ⟨hcur, hidle, hrun⟩
    have hk := h.edit_unready hcur hrep rfl rfl (h.ok.change hcur ha.2) rfl hnot (by rw [hrun]; rfl)
    exact Or.inr ⟨by omega, by omega, hticks, Exit.does_one ha hk rfl rfl rfl, rfl, rfl⟩
  · exact Or.inl rfl

theorem OsTcb.Rep.expire {kind : ℕ → Kind} {ptcb : OsTcb} {t : Task} (h : ptcb.Rep kind t)
    (hdly : t.phase.dly > 0) :
    (Core.expire ptcb).Rep kind { t with phase := t.phase.expire } := by
  have hstat := h.stat
  have hevent := h.event
  unfold Core.expire
  cases hph : t.phase with
  | run n =>
      rw [hph] at hstat hevent
      rw [if_neg (by simp [hstat])]
      exact ⟨h.prio, rfl, hevent, hstat, trivial⟩
  | wait e n =>
      rw [hph] at hstat hevent
      rw [if_pos (by simp [hstat])]
      exact ⟨h.prio, rfl, hevent, by simp [hstat], rfl⟩
  | ended e o =>
      rw [hph] at hdly
      cases hdly
  | stopped e =>
      rw [hph] at hdly
      cases hdly

theorem ready_expire {t : Task} (hdly : t.phase.dly > 0) :
    ({ t with phase := t.phase.expire } : Task).Ready ↔ t.susp = false := by
  unfold Task.Ready
  cases hph : t.phase <;> simp_all

@[simp] theorem expire_next (ptcb : OsTcb) : (expire ptcb).OSTCBNext = ptcb.OSTCBNext := by
  unfold expire
  split <;> rfl

@[simp] theorem expire_prev (ptcb : OsTcb) : (expire ptcb).OSTCBPrev = ptcb.OSTCBPrev := by
  unfold expire
  split <;> rfl

theorem Kern.Rep.expire (h : k.Rep A) (hi : i ∈ A.list) (hdly : (A.task i).phase.dly > 0) :
    (let ptcb := Core.expire (k.OSTCBTbl i)
      if ptcb.OSTCBStat &&& OS_STAT_SUSPEND = OS_STAT_RDY then (k.setTcb i ptcb).ready ptcb
      else k.setTcb i ptcb).Rep (A.after (.change i .expire)) := by
  have hrep := (h.task i hi).expire hdly
  have hold : ¬ (A.task i).Ready := fun hr => absurd hr.2.2.1 hdly.ne'
  have hok : (A.edit i (Change.expire.apply (A.task i))).Ok := h.ok.change hi hdly
  have hsusp : (Core.expire (k.OSTCBTbl i)).OSTCBStat &&& OS_STAT_SUSPEND = OS_STAT_RDY ↔
      (A.task i).susp = false := by
    rw [hrep.stat]
    exact stat_and_suspend _ _
  simp only [hsusp]
  split
  · rename_i hs
    exact h.edit_ready hi hrep (expire_next _) (expire_prev _) hok rfl ((ready_expire hdly).mpr hs)
      Phase.listed_expire
  · rename_i hs
    exact h.edit_same hi hrep (expire_next _) (expire_prev _) hok rfl
      (iff_of_false (fun hr => hs ((ready_expire hdly).mp hr)) hold) Phase.listed_expire

theorem osTimeDlyResume_spec (prio : ℕ) (h : k.Rep A) :
    let x := osTimeDlyResume prio k
    x = k.ret x.err ∨
      ∃ i ∈ A.list, (A.task i).prio = prio ∧ x.Does k A [.change i .expire] ∧ x.pend = none ∧
        (x.sched = false → (A.task i).susp = true) := by
  unfold osTimeDlyResume
  simp only
  split
  · exact Or.inl rfl
  split
  · exact Or.inl rfl
  · exact Or.inl rfl
  · rename_i i hp
    obtain ⟨hi, hprio⟩ := h.mem_of_prioTbl hp
    have hdly := (h.task i hi).dly
    split
    · exact Or.inl rfl
    · rename_i hne
      have hpos : (A.task i).phase.dly > 0 := by omega
      have hk := h.expire hi hpos
      have ha : A.Allowed (.change i .expire) := ⟨hi, hpos⟩
      have hs := ((h.task i hi).expire hpos).stat
      refine Or.inr ⟨i, hi, hprio, ?_⟩
      simp only at hk
      split at hk
      · rename_i hsusp
        rw [if_pos hsusp]
        exact ⟨Exit.does_one ha hk rfl rfl rfl, rfl, nofun⟩
      · rename_i hsusp
        rw [if_neg hsusp]
        refine ⟨Exit.does_one ha hk rfl rfl rfl, rfl, fun _ => ?_⟩
        rw [hs, stat_and_suspend] at hsusp
        exact Bool.eq_true_of_not_eq_false hsusp

theorem OsTcb.Rep.countdown {kind : ℕ → Kind} {ptcb : OsTcb} {t : Task} (h : ptcb.Rep kind t)
    (hdly : t.phase.dly > 0) :
    OsTcb.Rep kind { ptcb with OSTCBDly := ptcb.OSTCBDly - 1 }
      { t with phase := t.phase.countdown } := by
  obtain ⟨hprio, hd, hevent, hstat, hpend⟩ := h
  cases hph : t.phase with
  | ended e o =>
      rw [hph] at hdly
      cases hdly
  | stopped e =>
      rw [hph] at hdly
      cases hdly
  | _ =>
      rw [hph] at hd hevent hstat hpend
      exact ⟨hprio, congrArg (· - 1) hd, hevent, hstat, hpend⟩

/-- What the tick does to a task. -/
def tickActs (i : ℕ) (ph : Phase) : List Act :=
  if ph.dly = 0 then [] else if ph.dly = 1 then [.change i .expire] else [.change i .countdown]

theorem tickTcb_spec (h : k.Rep A) (hi : i ∈ A.list) :
    ∃ A', exec Model.step A (tickActs i (A.task i).phase) = some A' ∧ (tickTcb i k).Rep A' := by
  have hdly := (h.task i hi).dly
  unfold tickTcb tickActs
  simp only
  rw [hdly]
  by_cases h0 : (A.task i).phase.dly = 0
  · rw [if_pos h0, if_neg (not_not.mpr h0)]
    exact ⟨A, rfl, h⟩
  rw [if_neg h0, if_pos h0]
  by_cases h1 : (A.task i).phase.dly = 1
  · rw [if_pos h1, if_pos (by rw [h1])]
    have hpos : (A.task i).phase.dly > 0 := by omega
    exact ⟨_, Model.exec_one ⟨hi, hpos⟩, h.expire hi hpos⟩
  · have hgt : (A.task i).phase.dly > 1 := by omega
    rw [if_neg h1, if_neg (by omega)]
    refine ⟨_, Model.exec_one ⟨hi, hgt⟩, ?_⟩
    rw [← hdly]
    have hok : (A.edit i (Change.countdown.apply (A.task i))).Ok := h.ok.change hi hgt
    refine h.edit_same hi ((h.task i hi).countdown (by omega)) rfl rfl hok rfl ?_
      Phase.listed_countdown
    refine iff_of_false (fun hr => ?_) fun hr => h0 hr.2.2.1
    have hr : (A.task i).phase.countdown.dly = 0 := hr.2.2.1
    rw [Phase.dly_countdown] at hr
    omega

end Stm32Templet.Core
