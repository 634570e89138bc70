import Mathlib.Data.List.Nodup
import Mathlib.Data.List.Perm.Subperm
import Stm32Templet.Core.TaskRep

/-! # Pends and posts

The functions of `os_sem.c`, `os_mbox.c` and `os_q.c` as steps of the model.  `OS_EventTaskRdy`
finds the task of the highest priority in the bitmap of the event, and in `OSTCBPrioTbl`; what is
put into a semaphore, mailbox or queue and taken from it is put into and taken from its buffer. -/

namespace Stm32Templet.Core

open Bitmap Os Runs

variable {k : Kern} {A : Model} {i e : ℕ} {kd : Kind}

/-! ### Waking a task -/

theorem Kern.Rep.grp_eq_zero (h : k.Rep A) :
    (k.OSEventTbl e).wait.grp = 0 ↔ ∀ i ∈ A.list, ¬ (A.task i).Listed e := by
  rw [(h.wait e).grp_eq_zero h.mem_prios_lt, Set.eq_empty_iff_forall_notMem]
  constructor
  · exact fun hnone i hi hl => hnone _ ⟨i, hi, rfl, hl⟩
  · rintro hnone _ ⟨i, hi, _, hl⟩
    exact hnone i hi hl

theorem Kern.Rep.exists_first (h : k.Rep A) (hgrp : (k.OSEventTbl e).wait.grp ≠ 0) :
    ∃ i ∈ A.list, (A.task i).Listed e ∧
      (A.task i).prio = (k.OSEventTbl e).wait.least unMap ∧
      ∀ j ∈ A.list, (A.task j).Listed e → (A.task i).prio ≤ (A.task j).prio := by
  have hne : (A.prios (Task.Listed e)).Nonempty := by
    by_contra hempty
    refine hgrp (h.grp_eq_zero.mpr fun i hi hl => hempty ⟨_, i, hi, rfl, hl⟩)
  obtain ⟨⟨i, hi, hprio, hl⟩, hleast⟩ := (h.wait e).isLeast lowestBit_unMap h.mem_prios_lt hne
  exact ⟨i, hi, hl, hprio, fun j hj hlj => hprio ▸ hleast ⟨j, hj, rfl, hlj⟩⟩

/-- A task on a waiting list has no other bits in its status than that of the event. -/
theorem OsTcb.Rep.wake {kind : ℕ → Kind} {ptcb : OsTcb} {t : Task} (h : ptcb.Rep kind t)
    (hl : t.Listed e) {o : Outcome} {pmsg : ℕ} {pend_stat : StatPend}
    (ho : (Phase.ended e o).Rep pend_stat pmsg) :
    OsTcb.Rep kind { ptcb with
      OSTCBDly := 0
      OSTCBMsg := pmsg
      OSTCBStat := ptcb.OSTCBStat &&& ~~~(kind e).msk
      OSTCBStatPend := pend_stat } { t with phase := .ended e o } := by
  have hstat := h.stat
  have hevent := h.event
  unfold Task.Listed at hl
  refine ⟨h.prio, rfl, ?_, ?_, ho⟩
  · cases hph : t.phase with
    | run n => rw [hph] at hl; cases hl
    | wait e' n =>
        rw [hph] at hl hevent
        exact hevent.trans hl
    | ended e' o' =>
        rw [hph] at hl hevent
        cases o' with
        | timeout => exact hevent.trans hl
        | got pmsg => cases hl
        | abort => cases hl
    | stopped e' => rw [hph] at hl; cases hl
  · rw [hstat]
    cases hph : t.phase with
    | wait e' n =>
        rw [hph] at hl
        obtain rfl := Option.some.inj hl
        simp
    | _ => simp

/-- Nothing has changed but the tasks `l`, the ready list, and the waiting list of event `e`. -/
structure Kern.Frame (k k' : Kern) (e : ℕ) (l : List ℕ) : Prop where
  rest : ∃ tbl rdy ecb, k' = { k with OSTCBTbl := tbl, rdy := rdy, OSEventTbl := ecb }
  task : ∀ j ∉ l, k'.OSTCBTbl j = k.OSTCBTbl j
  links : k'.tcbNext = k.tcbNext ∧ k'.tcbPrev = k.tcbPrev
  event : ∀ e' ≠ e, k'.OSEventTbl e' = k.OSEventTbl e'
  obj : (k'.OSEventTbl e).obj = (k.OSEventTbl e).obj

theorem Kern.Frame.refl (k : Kern) (e : ℕ) : k.Frame k e [] :=
  ⟨⟨_, _, _, rfl⟩, fun _ _ => rfl, ⟨rfl, rfl⟩, fun _ _ => rfl, rfl⟩

theorem Kern.Frame.trans {k₁ k₂ k₃ : Kern} {l : List ℕ} (h : k₁.Frame k₂ e [i])
    (h' : k₂.Frame k₃ e l) : k₁.Frame k₃ e (i :: l) where
  rest := by
    obtain ⟨_, _, _, h⟩ := h.rest
    obtain ⟨_, _, _, h'⟩ := h'.rest
    rw [h] at h'
    exact ⟨_, _, _, h'⟩
  task j hj := by
    obtain ⟨hji, hjl⟩ := List.ne_and_not_mem_of_not_mem_cons hj
    exact (h'.task j hjl).trans (h.task j (by simpa using hji))
  links := ⟨h'.links.1.trans h.links.1, h'.links.2.trans h.links.2⟩
  event e' he := (h'.event e' he).trans (h.event e' he)
  obj := h'.obj.trans h.obj

theorem Kern.frame_update {ptcb : OsTcb} {r w : Table 8}
    (hnext : ptcb.OSTCBNext = (k.OSTCBTbl i).OSTCBNext)
    (hprev : ptcb.OSTCBPrev = (k.OSTCBTbl i).OSTCBPrev) :
    k.Frame { k with
      OSTCBTbl := Function.update k.OSTCBTbl i ptcb
      rdy := r
      OSEventTbl := Function.update k.OSEventTbl e { k.OSEventTbl e with wait := w } } e [i] where
  rest := ⟨_, _, _, rfl⟩
  task j hj := Function.update_of_ne (by simpa using hj) _ _
  links := by
    refine ⟨funext fun j => ?_, funext fun j => ?_⟩
    all_goals
      by_cases hj : j = i
      · subst hj
        simp [tcbNext, tcbPrev, hnext, hprev]
      · simp [tcbNext, tcbPrev, hj]
  event e' he := Function.update_of_ne he _ _
  obj := by simp

theorem Kern.Rep.wake (h : k.Rep A) (hgrp : (k.OSEventTbl e).wait.grp ≠ 0) {o : Outcome}
    (pmsg : ℕ) (ho : o ≠ .timeout) {pend_stat : StatPend}
    (hpend : (Phase.ended e o).Rep pend_stat pmsg) :
    ∃ i r, osEventTaskRdy e pmsg (A.kind e).msk pend_stat k = some r ∧
      A.Allowed (.change i (.wake e o)) ∧ r.2.Rep (A.after (.change i (.wake e o))) ∧
      r.2.ctl = k.ctl ∧ r.2.OSLockNesting = k.OSLockNesting ∧ k.Frame r.2 e [i] := by
  obtain ⟨i, hi, hl, hprio, hleast⟩ := h.exists_first hgrp
  have hrep := (h.task i hi).wake hl hpend
  have ha : A.Allowed (.change i (.wake e o)) := ⟨hi, hl, ho, hleast⟩
  have hp := h.prioTbl_of hi
  rw [hprio, ← shift_add_eq_least] at hp
  have hsusp : (k.OSTCBTbl i).OSTCBStat &&& ~~~(A.kind e).msk &&& OS_STAT_SUSPEND = OS_STAT_RDY ↔
      (A.task i).susp = false := by
    rw [show (k.OSTCBTbl i).OSTCBStat &&& ~~~(A.kind e).msk = stat none (A.task i).susp from
      hrep.stat]
    exact stat_and_suspend _ _
  have hout : ∀ e', ¬ ({ A.task i with phase := .ended e o } : Task).Listed e' := by
    intro e' he'
    cases o with
    | timeout => exact ho rfl
    | got pmsg => cases he'
    | abort => cases he'
  have hother : ∀ e' ≠ e, ({ A.task i with phase := .ended e o } : Task).Listed e' ↔
      (A.task i).Listed e' := by
    refine fun e' he' => iff_of_false (hout e') fun hl' => he' ?_
    exact Option.some.inj (hl'.symm.trans hl)
  have htbl := h.is_remove hi (h.wait e) (t := { A.task i with phase := .ended e o }) (hout e)
  have hok := h.ok.change hi ha.2
  refine ⟨i, ?_⟩
  unfold osEventTaskRdy
  simp only [hp, hsusp]
  refine ⟨_, rfl, ha, ?_⟩
  split
  · rename_i hs
    have hr : ({ A.task i with phase := .ended e o } : Task).Ready := ⟨hs, rfl, rfl, rfl⟩
    exact ⟨h.edit_at hi hrep rfl rfl hok rfl (h.is_insert hi h.rdy rfl hrep.prio hr) htbl hother,
      rfl, rfl, Kern.frame_update rfl rfl⟩
  · rename_i hs
    have hr : ({ A.task i with phase := .ended e o } : Task).Ready ↔ (A.task i).Ready :=
      iff_of_false (fun hr => hs hr.1) fun hr => hs hr.1
    exact ⟨h.edit_at hi hrep rfl rfl hok rfl (h.is_same hi h.rdy rfl hr) htbl hother, rfl, rfl,
      Kern.frame_update rfl rfl⟩

/-! ### Waiting -/

/-- The task control block of a task that has begun to wait. -/
def waitTcb (ptcb : OsTcb) (msk : BitVec 8) (e timeout : ℕ) : OsTcb :=
  { ptcb with
    OSTCBEventPtr := some e
    OSTCBDly := timeout
    OSTCBStat := ptcb.OSTCBStat ||| msk
    OSTCBStatPend := .OK }

theorem osEventTaskWait_eq (msk : BitVec 8) (timeout : ℕ) :
    osEventTaskWait e (k.setTcb k.OSTCBCur { k.cur with
      OSTCBStat := k.cur.OSTCBStat ||| msk
      OSTCBStatPend := .OK
      OSTCBDly := timeout }) = { k with
        OSTCBTbl := Function.update k.OSTCBTbl k.OSTCBCur (waitTcb k.cur msk e timeout)
        rdy := k.rdy.clear k.cur.OSTCBY k.cur.OSTCBX
        OSEventTbl := Function.update k.OSEventTbl e { k.OSEventTbl e with
          wait := (k.OSEventTbl e).wait.set k.cur.OSTCBY k.cur.OSTCBX } } := by
  unfold osEventTaskWait Kern.setEvent Kern.unready Kern.setTcb Kern.cur
  simp only [Function.update_self, Function.update_idem]
  rfl

theorem Kern.Rep.wait_change (h : k.Rep A) {timeout : ℕ} (ha : A.Allowed
    (.change k.OSTCBCur (.wait e timeout))) :
    (osEventTaskWait e (k.setTcb k.OSTCBCur { k.cur with
      OSTCBStat := k.cur.OSTCBStat ||| (A.kind e).msk
      OSTCBStatPend := .OK
      OSTCBDly := timeout })).Rep (A.after (.change k.OSTCBCur (.wait e timeout))) := by
  have hok := h.ok.change ha.1 ha.2
  obtain ⟨hi, _, hrun, _⟩ := ha
  have ht := h.task _ hi
  have hstat := ht.stat
  rw [hrun] at hstat
  have hrep : (waitTcb k.cur (A.kind e).msk e timeout).Rep A.kind
      { A.task k.OSTCBCur with phase := .wait e timeout } := by
    refine ⟨ht.prio, rfl, rfl, ?_, rfl⟩
    change k.cur.OSTCBStat ||| _ = _
    rw [Kern.cur, hstat]
    exact stat_or_msk _ _
  rw [osEventTaskWait_eq]
  refine h.edit_at hi hrep rfl rfl hok rfl (h.is_remove hi h.rdy fun hr => nomatch hr.2.1)
    (h.is_insert hi (h.wait e) rfl ht.prio rfl) fun e' he =>
      iff_of_false (fun hl => ?_) fun hl => ?_
  · exact he (Option.some.inj hl).symm
  · rw [Task.Listed, hrun] at hl
    cases hl

/-! ### Buffers -/

theorem Kern.Rep.setObj (h : k.Rep A) {o : Obj} {l : List ℕ}
    (ho : o.Rep { A.buffer e with items := l }) (hl : l.length ≤ (A.buffer e).room) :
    (k.setEvent e { k.OSEventTbl e with obj := o }).Rep (A.setItems e l) := by
  refine {
    ok := h.ok.setItems hl
    links := h.links
    chain := h.chain
    ctr := h.ctr
    prioTbl := h.prioTbl
    reserved := h.reserved
    task := fun i hi => by rw [Model.setItems_kind]; exact h.task i hi
    obj := fun e' => ?_
    rdy := h.rdy
    wait := fun e' => ?_ }
  · by_cases he : e' = e
    · subst he
      simpa [Kern.setEvent] using ho
    · simpa [Kern.setEvent, he, Model.setItems_of_ne he] using h.obj e'
  · change Table.Is _ (A.prios (Task.Listed e'))
    by_cases he : e' = e
    · subst he
      simpa [Kern.setEvent] using h.wait e'
    · simpa [Kern.setEvent, he] using h.wait e'

/-- What a pend or accept takes from an event control block is the first message. -/
def Takes (take : Option (ℕ × Obj)) (b : Buffer) : Prop :=
  match take with
  | none => b.items = []
  | some (pmsg, obj) => ∃ l, b.items = pmsg :: l ∧ obj.Rep { b with items := l }

/-- What a post puts into it is the last message, if there is room. -/
def Puts (obj : Obj) (put : ℕ × Obj) (pmsg : ℕ) (b : Buffer) : Prop :=
  put.1 = OS_ERR_NONE ∧ b.items.length < b.room ∧ put.2.Rep { b with items := b.items ++ [pmsg] } ∨
    put.1 ≠ OS_ERR_NONE ∧ b.items.length = b.room ∧ put.2 = obj

theorem Obj.Rep.takes {obj : Obj} {b : Buffer} (h : obj.Rep b) : Takes obj.take b := by
  unfold Obj.take
  cases obj with
  | sem cnt =>
      obtain ⟨hkind, hroom, hitems⟩ := h
      cases cnt with
      | zero => exact hitems
      | succ n => exact ⟨List.replicate n 0, hitems, hkind, hroom, rfl⟩
  | mbox p =>
      obtain ⟨hkind, hroom, hitems⟩ := h
      by_cases hp : p = 0
      · simp only [if_neg (not_not.mpr hp)]
        rwa [if_pos hp] at hitems
      · simp only [if_pos hp]
        rw [if_neg hp] at hitems
        exact ⟨[], hitems, hkind, hroom, rfl⟩
  | q pq =>
      obtain ⟨hkind, hroom, hq⟩ := h
      cases hitems : b.items with
      | nil =>
          have hzero : ¬ pq.OSQEntries > 0 := by rw [hq.entries, hitems]; exact Nat.lt_irrefl 0
          simp only [if_neg hzero]
          exact hitems
      | cons pmsg l =>
          have hpos : pq.OSQEntries > 0 := by rw [hq.entries, hitems]; exact Nat.succ_pos _
          rw [hitems] at hq
          obtain ⟨pq', haccept, hq', hsize⟩ := hq.accept_cons
          simp only [if_pos hpos, haccept]
          exact ⟨l, hitems, hkind, hroom.trans hsize.symm, hq'⟩

/-- The message of a post; those of semaphores say nothing. -/
def Kind.msg : Kind → ℕ → ℕ
  | sem, _ => 0
  | _, pmsg => pmsg

theorem Obj.Rep.puts {obj : Obj} {b : Buffer} (h : obj.Rep b) (hfits : b.items.length ≤ b.room)
    (pmsg : ℕ) (hpmsg : obj.kind = .mbox → pmsg ≠ 0) :
    Puts obj (obj.put pmsg) (obj.kind.msg pmsg) b := by
  unfold Obj.put
  cases obj with
  | sem cnt =>
      obtain ⟨hkind, hroom, hitems⟩ := h
      have hlen : b.items.length = cnt := by rw [hitems, List.length_replicate]
      by_cases hcnt : cnt < 65535
      · simp only [if_pos hcnt]
        refine Or.inl ⟨rfl, by omega, hkind, hroom, ?_⟩
        simp only
        rw [hitems, List.replicate_succ']
        rfl
      · simp only [if_neg hcnt]
        exact Or.inr ⟨(by decide : OS_ERR_SEM_OVF ≠ OS_ERR_NONE), by omega, rfl⟩
  | mbox p =>
      obtain ⟨hkind, hroom, hitems⟩ := h
      by_cases hp : p = 0
      · simp only [if_neg (not_not.mpr hp)]
        rw [if_pos hp] at hitems
        refine Or.inl ⟨rfl, by rw [hitems, hroom]; decide, hkind, hroom, ?_⟩
        simp only
        rw [hitems, if_neg (hpmsg rfl)]
        rfl
      · simp only [if_pos hp]
        rw [if_neg hp] at hitems
        exact Or.inr
          ⟨(by decide : OS_ERR_MBOX_FULL ≠ OS_ERR_NONE), by rw [hitems, hroom]; rfl, rfl⟩
  | q pq =>
      obtain ⟨hkind, hroom, hq⟩ := h
      rcases Nat.lt_or_eq_of_le hq.le with hlt | hfull
      · obtain ⟨pq', hpost, hq', hsize⟩ := hq.post hlt pmsg
        simp only [hpost]
        exact Or.inl ⟨rfl, hroom ▸ hlt, hkind, hroom.trans hsize.symm, hq'⟩
      · simp only [hq.post_full hfull]
        exact Or.inr ⟨(by decide : OS_ERR_Q_FULL ≠ OS_ERR_NONE), hfull.trans hroom.symm, rfl⟩

/-! ### The functions -/

/-- What a pend returns. -/
def Outcome.result (kd : Kind) : Outcome → ℕ × ℕ
  | got pmsg => (OS_ERR_NONE, if kd = Kind.sem then 0 else pmsg)
  | timeout => (OS_ERR_TIMEOUT, 0)
  | abort => (OS_ERR_PEND_ABORT, 0)

theorem pendEnd_spec (kd : Kind) (h : k.Rep A) (hi : k.OSTCBCur ∈ A.list) {o : Outcome}
    (hph : (A.task k.OSTCBCur).phase = .ended e o) (hs : (A.task k.OSTCBCur).susp = false) :
    (pendEnd kd e k).1 = o.result kd ∧
      (pendEnd kd e k).2.Rep (A.after (.change k.OSTCBCur (.finish e o))) ∧
      (pendEnd kd e k).2.ctl = k.ctl ∧ (pendEnd kd e k).2.OSLockNesting = k.OSLockNesting := by
  have ht := h.task _ hi
  have hdly := ht.dly
  have hpend := ht.pend
  rw [hph] at hdly hpend
  have hready : ({ A.task k.OSTCBCur with phase := .run 0 } : Task).Ready ↔
      (A.task k.OSTCBCur).Ready :=
    iff_of_true ⟨hs, rfl, rfl, rfl⟩ ⟨hs, by rw [hph]; rfl, by rw [hph]; rfl, by rw [hph]; rfl⟩
  have hedit : (A.edit k.OSTCBCur { A.task k.OSTCBCur with phase := .run 0 }).Ok :=
    h.ok.change hi (c := .finish e o) hph
  have hrdy := h.is_same hi h.rdy (t := { A.task k.OSTCBCur with phase := .run 0 }) rfl hready
  have hrep : ∀ msg, OsTcb.Rep A.kind { k.cur with
      OSTCBStat := OS_STAT_RDY
      OSTCBStatPend := .OK
      OSTCBEventPtr := none
      OSTCBMsg := msg } { A.task k.OSTCBCur with phase := .run 0 } := fun msg =>
    ⟨ht.prio, hdly, rfl, by rw [hs]; rfl, trivial⟩
  unfold pendEnd
  cases o with
  | got pmsg =>
      obtain ⟨hok, hmsg⟩ := hpend
      rw [← Kern.cur] at hok hmsg
      simp only [hok]
      refine ⟨?_, ?_, rfl, rfl⟩
      · rw [hmsg]
        rfl
      · exact h.edit_rdy hi (hrep _) rfl rfl hedit rfl hrdy (by rw [hph]; rfl)
  | abort =>
      have habort : k.cur.OSTCBStatPend = .ABORT := hpend
      simp only [habort]
      refine ⟨rfl, ?_, rfl, rfl⟩
      exact h.edit_rdy hi (hrep _) rfl rfl hedit rfl hrdy (by rw [hph]; rfl)
  | timeout =>
      have hto : k.cur.OSTCBStatPend = .TO := hpend
      simp only [hto]
      refine ⟨rfl, ?_, rfl, rfl⟩
      refine h.edit_at hi (hrep _) rfl rfl hedit rfl hrdy (h.is_remove hi (h.wait e) nofun)
        fun e' he => iff_of_false nofun fun hl => ?_
      rw [Task.Listed, hph] at hl
      exact he (Option.some.inj hl).symm

theorem Kern.Rep.take (h : k.Rep A) {pmsg : ℕ} {obj : Obj}
    (htake : Takes (some (pmsg, obj)) (A.buffer e)) :
    A.Allowed (.take e pmsg) ∧
      (k.setEvent e { k.OSEventTbl e with obj := obj }).Rep (A.after (.take e pmsg)) := by
  obtain ⟨l, hitems, hobj⟩ := htake
  have hfits := h.ok.fits e
  rw [hitems] at hfits
  constructor
  · change (A.buffer e).items.head? = _
    rw [hitems]
    rfl
  · change Kern.Rep _ (A.setItems e (A.buffer e).items.tail)
    rw [hitems]
    exact h.setObj hobj (Nat.le_of_succ_le hfits)

theorem pendOn_spec (kd : Kind) (h : k.Rep A) {take : Option (ℕ × Obj)}
    (htake : Takes take (A.buffer e))
    (hcur : k.OSIntNesting = 0 → k.OSLockNesting = 0 → k.OSTCBCur ∈ A.list ∧
      (A.task k.OSTCBCur).prio ≠ OS_TASK_IDLE_PRIO ∧ (A.task k.OSTCBCur).phase = .run 0)
    (timeout : ℕ) :
    let x := pendOn kd (A.kind e).msk take e timeout k
    x = k.ret x.err ∧ x.err ≠ OS_ERR_NONE ∨
      k.OSIntNesting = 0 ∧ k.OSLockNesting = 0 ∧
        (x.Does k A [.take e x.msg] ∧ x.err = OS_ERR_NONE ∧ x.pend = none ∧ x.sched = false ∨
          x.Does k A [.change k.OSTCBCur (.wait e timeout)] ∧ x.pend = some (kd, e) ∧
            x.sched = true) := by
  unfold pendOn
  simp only
  split
  · exact Or.inl ⟨rfl, (by decide : OS_ERR_PEND_ISR ≠ OS_ERR_NONE)⟩
  split
  · exact Or.inl ⟨rfl, (by decide : OS_ERR_PEND_LOCKED ≠ OS_ERR_NONE)⟩
  rename_i hint hlock
  refine Or.inr ⟨by omega, by omega, ?_⟩
  split
  · obtain ⟨ha, hk⟩ := h.take htake
    exact Or.inl ⟨Exit.does_one ha hk rfl rfl rfl, rfl, rfl, rfl⟩
  · obtain ⟨hi, hidle, hrun⟩ := hcur (by omega) (by omega)
    have ha : A.Allowed (.change k.OSTCBCur (.wait e timeout)) := ⟨hi, hidle, hrun, htake⟩
    exact Or.inr ⟨Exit.does_one ha (h.wait_change ha) rfl rfl rfl, rfl, rfl⟩

theorem acceptOn_spec (h : k.Rep A) {take : Option (ℕ × Obj)} (htake : Takes take (A.buffer e))
    (empty : ℕ) :
    let x := acceptOn empty take e k
    x = k.ret empty ∧ (A.buffer e).items = [] ∨
      x.Does k A [.take e x.msg] ∧ x.err = OS_ERR_NONE ∧ x.pend = none ∧ x.sched = false := by
  unfold acceptOn
  simp only
  split
  · obtain ⟨ha, hk⟩ := h.take htake
    exact Or.inr ⟨Exit.does_one ha hk rfl rfl rfl, rfl, rfl, rfl⟩
  · exact Or.inl ⟨rfl, htake⟩

theorem postOn_spec (h : k.Rep A) {put : ℕ × Obj} {pmsg : ℕ}
    (hput : Puts (k.OSEventTbl e).obj put pmsg (A.buffer e)) :
    ∃ x, postOn (A.kind e).msk put e pmsg k = some x ∧
      (x = k.ret x.err ∧ x.err ≠ OS_ERR_NONE ∧ (A.buffer e).items.length = (A.buffer e).room ∨
        x.Does k A [.put e pmsg] ∧ x.err = OS_ERR_NONE ∧ x.pend = none ∧ x.sched = false ∨
        ∃ i, x.Does k A [.change i (.wake e (.got pmsg))] ∧ x.err = OS_ERR_NONE ∧ x.pend = none ∧
          x.sched = true) := by
  unfold postOn
  by_cases hgrp : (k.OSEventTbl e).wait.grp = 0
  · rw [if_neg (not_not.mpr hgrp)]
    refine ⟨_, rfl, ?_⟩
    rcases hput with ⟨herr, hlt, hobj⟩ | ⟨herr, hfull, hsame⟩
    · have hnot := h.grp_eq_zero.mp hgrp
      have hk := h.setObj hobj (by rw [List.length_append]; exact hlt)
      exact Or.inr (Or.inl ⟨Exit.does_one ⟨hnot, hlt⟩ hk rfl rfl rfl, herr, rfl, rfl⟩)
    · refine Or.inl ⟨?_, herr, hfull⟩
      rw [hsame]
      unfold Kern.setEvent
      rw [Function.update_eq_self]
      rfl
  · rw [if_pos hgrp]
    obtain ⟨i, r, hr, ha, hrep, hctl, hlock, _⟩ :=
      h.wake hgrp (o := .got pmsg) pmsg nofun ⟨rfl, rfl⟩
    rw [hr]
    exact ⟨_, rfl, Or.inr (Or.inr ⟨i, Exit.does_one ha hrep hctl hlock rfl, rfl, rfl, rfl⟩)⟩

/-! ### Abortion of pends -/

theorem countP_lt {p q : ℕ → Bool} {l : List ℕ} (hpq : ∀ j ∈ l, p j = true → q j = true)
    (hi : i ∈ l) (hp : p i = false) (hq : q i = true) : l.countP p < l.countP q := by
  induction l with
  | nil => cases hi
  | cons a l ih =>
      have hle := List.countP_mono_left fun j hj => hpq j (List.mem_cons_of_mem a hj)
      have ha := hpq a List.mem_cons_self
      rw [List.countP_cons, List.countP_cons]
      rcases List.mem_cons.mp hi with rfl | hil
      · rw [if_neg (by simp [hp]), if_pos hq]
        omega
      · have hlt := ih (fun j hj => hpq j (List.mem_cons_of_mem a hj)) hil
        by_cases hpa : p a = true
        · rw [if_pos hpa, if_pos (ha hpa)]
          omega
        · rw [if_neg hpa]
          omega

/-- The number of tasks on the waiting list of the event. -/
def Model.waiters (A : Model) (e : ℕ) : ℕ := A.list.countP fun i => (A.task i).Listed e

theorem Model.Ok.waiters_le (h : A.Ok) (e : ℕ) : A.waiters e ≤ 64 := by
  have hnodup : (A.list.map fun i => (A.task i).prio).Nodup :=
    List.Nodup.map_on (fun i hi j hj => h.unique i hi j hj) h.nodup_list
  have hsub : (A.list.map fun i => (A.task i).prio) ⊆ List.range 64 := by
    intro p hp
    obtain ⟨i, hi, rfl⟩ := List.mem_map.mp hp
    exact List.mem_range.mpr (Nat.lt_succ_of_le (h.prio_le i hi))
  calc A.waiters e ≤ A.list.length := List.countP_le_length
    _ = (A.list.map fun i => (A.task i).prio).length := (List.length_map _).symm
    _ ≤ (List.range 64).length := (List.subperm_of_subset hnodup hsub).length_le
    _ = 64 := List.length_range

theorem waiters_wake {o : Outcome} (ha : A.Allowed (.change i (.wake e o))) :
    (A.after (.change i (.wake e o))).waiters e < A.waiters e := by
  obtain ⟨hi, hl, ho, _⟩ := ha
  refine countP_lt (i := i) (fun j hj hlj => ?_) hi ?_ (by simpa using hl)
  · change decide (((A.edit i _).task j).Listed e) = true at hlj
    by_cases hji : j = i
    · subst hji
      simpa using hl
    · rwa [Model.edit_task_of_ne hji] at hlj
  · change decide (((A.edit i _).task i).Listed e) = false
    rw [Model.edit_task_self]
    cases o with
    | timeout => exact absurd rfl ho
    | got pmsg => rfl
    | abort => rfl

theorem Kern.Rep.waiters_eq_zero (h : k.Rep A) :
    A.waiters e = 0 ↔ (k.OSEventTbl e).wait.grp = 0 := by
  rw [h.grp_eq_zero, Model.waiters, List.countP_eq_zero]
  simp only [decide_eq_true_eq]

theorem abortAll_spec {fuel : ℕ} (h : k.Rep A) (hfuel : A.waiters e ≤ fuel) :
    ∃ (l : List ℕ) (r : ℕ × Kern) (A' : Model),
      abortAll e (A.kind e).msk fuel k = some r ∧ r.1 = l.length ∧
      exec Model.step A (l.map fun i => .change i (.wake e .abort)) = some A' ∧ r.2.Rep A' ∧
      r.2.ctl = k.ctl ∧ r.2.OSLockNesting = k.OSLockNesting ∧ k.Frame r.2 e l ∧
      A'.waiters e = 0 := by
  induction fuel generalizing k A with
  | zero => exact ⟨[], (0, k), A, rfl, rfl, rfl, h, rfl, rfl, .refl k e, Nat.le_zero.mp hfuel⟩
  | succ fuel ih =>
      unfold abortAll
      by_cases hgrp : (k.OSEventTbl e).wait.grp = 0
      · rw [if_neg (not_not.mpr hgrp)]
        exact ⟨[], (0, k), A, rfl, rfl, rfl, h, rfl, rfl, .refl k e, h.waiters_eq_zero.mpr hgrp⟩
      · rw [if_pos hgrp]
        obtain ⟨i, r, hr, ha, hrep, hctl, hlock, hframe⟩ :=
          h.wake hgrp (o := .abort) 0 nofun rfl
        have hlt := waiters_wake ha
        obtain ⟨l, r', A', hr', hlen, hexec, hrep', hctl', hlock', hframe', hzero⟩ :=
          ih hrep (by omega)
        refine ⟨i :: l, (r'.1 + 1, r'.2), A', ?_, by rw [hlen]; rfl, ?_, hrep',
          hctl'.trans hctl, hlock'.trans hlock, hframe.trans hframe', hzero⟩
        · have hkind : (A.after (.change i (.wake e .abort))).kind e = A.kind e := rfl
          rw [hkind] at hr'
          rw [hr]
          simp only [Option.bind_eq_bind, Option.bind_some]
          rw [hr']
          rfl
        · exact exec_cons.mpr ⟨_, Model.step_eq_some.mpr ⟨ha, rfl⟩, hexec⟩

theorem pendAbortOn_spec (h : k.Rep A) (broadcast : Bool) :
    ∃ x, pendAbortOn (A.kind e).msk broadcast e k = some x ∧
      (x = k.ret OS_ERR_NONE ∧ A.waiters e = 0 ∨
        ∃ l : List ℕ, x.Does k A (l.map fun i => .change i (.wake e .abort)) ∧
          x.err = OS_ERR_PEND_ABORT ∧ x.msg = l.length ∧ x.pend = none ∧ x.sched = true ∧
          k.Frame x.kern e l ∧ (broadcast = true → (x.kern.OSEventTbl e).wait.grp = 0)) := by
  unfold pendAbortOn
  by_cases hgrp : (k.OSEventTbl e).wait.grp = 0
  · rw [if_neg (not_not.mpr hgrp)]
    exact ⟨_, rfl, Or.inl ⟨rfl, h.waiters_eq_zero.mpr hgrp⟩⟩
  rw [if_pos hgrp]
  cases broadcast with
  | true =>
      obtain ⟨l, r, A', hr, hlen, hexec, hrep, hctl, hlock, hframe, hzero⟩ :=
        abortAll_spec h (h.ok.waiters_le e)
      rw [if_pos rfl, hr]
      exact ⟨_, rfl, Or.inr ⟨l, ⟨⟨⟨A', hexec, hrep⟩, hctl⟩, hlock, rfl⟩, rfl, hlen, rfl, rfl,
        hframe, fun _ => hrep.waiters_eq_zero.mp hzero⟩⟩
  | false =>
      obtain ⟨i, r, hr, ha, hrep, hctl, hlock, hframe⟩ :=
        h.wake hgrp (o := .abort) 0 nofun rfl
      rw [if_neg Bool.false_ne_true, hr]
      exact ⟨_, rfl, Or.inr
        ⟨[i], Exit.does_one ha hrep hctl hlock rfl, rfl, rfl, rfl, rfl, hframe, nofun⟩⟩

end Stm32Templet.Core
