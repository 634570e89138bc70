import Stm32Templet.Core.Rep

/-! # Creation and deletion of tasks

A function of the kernel fails and changes nothing, or its critical section does steps of the
model (`Exit.Does`).  The scheduler's own variables (`Ctl`) are left to the scheduler.  This module
has `OSTaskCreate` and `OSTaskDel`, which take a task control block from the free list to the
list of the tasks and back. -/

namespace Stm32Templet.Core

open Bitmap Linked Os Runs

variable {k : Kern} {A : Model} {i prio : ℕ}

/-- The variables of the scheduler, without `OSLockNesting`. -/
structure Ctl where
  OSPrioCur : ℕ
  OSPrioHighRdy : ℕ
  OSTCBCur : ℕ
  OSTCBHighRdy : TcbPtr
  OSIntNesting : ℕ
  OSRunning : Bool
  pendSV : Bool

def Kern.ctl (k : Kern) : Ctl where
  OSPrioCur := k.OSPrioCur
  OSPrioHighRdy := k.OSPrioHighRdy
  OSTCBCur := k.OSTCBCur
  OSTCBHighRdy := k.OSTCBHighRdy
  OSIntNesting := k.OSIntNesting
  OSRunning := k.OSRunning
  pendSV := k.pendSV

/-- What is in the critical section that ends with `x` are the steps `as` of the model. -/
structure Exit.Goes (x : Exit) (k : Kern) (A : Model) (as : List Act) : Prop where
  rep : ∃ A', exec Model.step A as = some A' ∧ x.kern.Rep A'
  ctl : x.kern.ctl = k.ctl

/-- No section of a creation or deletion follows, and the scheduler is locked as it was. -/
structure Exit.Does (x : Exit) (k : Kern) (A : Model) (as : List Act) : Prop
    extends x.Goes k A as where
  lock : x.kern.OSLockNesting = k.OSLockNesting
  sec : x.sec = none

theorem Exit.goes_one {x : Exit} {a : Act} (ha : A.Allowed a) (hrep : x.kern.Rep (A.after a))
    (hctl : x.kern.ctl = k.ctl) : x.Goes k A [a] :=
  ⟨⟨_, Model.exec_one ha, hrep⟩, hctl⟩

theorem Exit.does_one {x : Exit} {a : Act} (ha : A.Allowed a) (hrep : x.kern.Rep (A.after a))
    (hctl : x.kern.ctl = k.ctl) (hlock : x.kern.OSLockNesting = k.OSLockNesting)
    (hsec : x.sec = none) : x.Does k A [a] :=
  ⟨Exit.goes_one ha hrep hctl, hlock, hsec⟩

/-- The end of functions that call `OS_Sched` once multitasking runs. -/
theorem Exit.run_fields (k' : Kern) (err : ℕ) :
    let x := if k'.OSRunning then k'.retSched err else k'.ret err
    x.kern = k' ∧ x.err = err ∧ x.pend = none ∧ x.sec = none ∧ x.sched = k'.OSRunning := by
  cases hrun : k'.OSRunning with
  | true => exact ⟨rfl, rfl, rfl, rfl, rfl⟩
  | false => exact ⟨rfl, rfl, rfl, rfl, rfl⟩

theorem Exit.does_run {k' : Kern} {a : Act} (ha : A.Allowed a) (hrep : k'.Rep (A.after a))
    (hctl : k'.ctl = k.ctl) (hlock : k'.OSLockNesting = k.OSLockNesting) (err : ℕ) :
    let x := if k'.OSRunning then k'.retSched err else k'.ret err
    x.Does k A [a] ∧ x.err = err ∧ x.pend = none ∧ x.sched = k.OSRunning := by
  obtain ⟨hkern, herr, hpend, hsec, hsched⟩ := Exit.run_fields k' err
  have hrun : k'.OSRunning = k.OSRunning := congrArg Ctl.OSRunning hctl
  exact ⟨Exit.does_one ha (by rw [hkern]; exact hrep) (by rw [hkern, hctl]) (by rw [hkern, hlock])
    hsec, herr, hpend, hsched.trans hrun⟩

theorem Kern.Rep.mem_of_prioTbl (h : k.Rep A) (hp : k.OSTCBPrioTbl prio = .tcb i) :
    i ∈ A.list ∧ (A.task i).prio = prio := (h.prioTbl prio i).mp hp

/-! ### Creation -/

theorem osTCBLink_eq (prio : ℕ) (hlist : k.OSTCBList ≠ some i) :
    ∃ (tbl : ℕ → OsTcb) (k' : Kern), tbl i = tcbInit prio k.OSTCBList ∧
      (∀ j ≠ i, tbl j = if k.OSTCBList = some j then { k.OSTCBTbl j with OSTCBPrev := some i }
        else k.OSTCBTbl j) ∧
      k' = { k with
        OSTCBTbl := tbl
        OSTCBPrioTbl := Function.update k.OSTCBPrioTbl prio (.tcb i)
        OSTCBList := some i
        OSTaskCtr := k.OSTaskCtr + 1
        rdy := k.rdy.set (tbl i).OSTCBY (tbl i).OSTCBX } ∧
      osTCBLink prio i k =
        if k'.OSRunning then k'.retSched OS_ERR_NONE else k'.ret OS_ERR_NONE := by
  unfold osTCBLink
  cases hl : k.OSTCBList with
  | none =>
      refine ⟨Function.update k.OSTCBTbl i (tcbInit prio none), _, by simp, fun j hj => ?_, rfl, ?_⟩
      · simp [hj]
      · simp [Kern.setTcb, Kern.ready, hl]
  | some n =>
      have hn : n ≠ i := fun he => hlist (he ▸ hl)
      refine ⟨Function.update (Function.update k.OSTCBTbl i (tcbInit prio (some n))) n
        { k.OSTCBTbl n with OSTCBPrev := some i }, _, ?_, fun j hj => ?_, rfl, ?_⟩
      · simp [hn.symm]
      · by_cases hjn : j = n
        · subst hjn
          simp
        · simp [hj, hjn, Ne.symm hjn]
      · simp [Kern.setTcb, Kern.ready, hn, hl]

theorem Kern.Rep.create (h : k.Rep A) (ha : A.Allowed (.create i prio)) {tbl : ℕ → OsTcb}
    (hself : tbl i = tcbInit prio k.OSTCBList)
    (hother : ∀ j ≠ i, tbl j =
      if k.OSTCBList = some j then { k.OSTCBTbl j with OSTCBPrev := some i } else k.OSTCBTbl j) :
    Kern.Rep { k with
      OSTCBTbl := tbl
      OSTCBPrioTbl := Function.update k.OSTCBPrioTbl prio (.tcb i)
      OSTCBList := some i
      OSTaskCtr := k.OSTaskCtr + 1
      rdy := k.rdy.set (tbl i).OSTCBY (tbl i).OSTCBX } (A.after (.create i prio)) := by
  have hi := h.ok.mem_create ha
  have hfresh := h.ok.prio_create ha
  have hfree := h.ok.not_mem_free_of_taken ha.1
  have hnext : ∀ j ≠ i, (tbl j).OSTCBNext = k.tcbNext j := by
    intro j hj
    rw [hother j hj]
    split <;> rfl
  refine {
    ok := h.ok.create ha
    links := h.links.push hi h.ok.nodup_list ?_ ?_ hnext ?_
    chain := h.chain.congr fun j hj => hnext j fun he => hfree (he ▸ hj)
    ctr := congrArg (· + 1) h.ctr
    prioTbl := ?_
    reserved := ?_
    task := ?_
    obj := h.obj
    rdy := ?_
    wait := ?_ }
  · change (tbl i).OSTCBNext = _
    rw [hself]
    rfl
  · change (tbl i).OSTCBPrev = _
    rw [hself]
    rfl
  · intro j hj
    change (tbl j).OSTCBPrev = _
    rw [hother j hj]
    split <;> rfl
  · intro p j
    change Function.update k.OSTCBPrioTbl prio _ p = _ ↔ j ∈ i :: A.list ∧ _
    rw [List.mem_cons, or_and_right]
    by_cases hp : p = prio
    · subst hp
      rw [Function.update_self]
      constructor
      · rintro he
        obtain rfl := TcbPtr.tcb.inj he
        exact Or.inl ⟨rfl, by rw [Model.create_task_self]⟩
      · rintro (⟨rfl, _⟩ | ⟨hj, he⟩)
        · rfl
        · rw [Model.create_task_of_mem hi hj] at he
          exact absurd he (hfresh j hj)
    · rw [Function.update_of_ne hp, h.prioTbl p j]
      constructor
      · rintro ⟨hj, he⟩
        exact Or.inr ⟨hj, by rwa [Model.create_task_of_mem hi hj]⟩
      · rintro (⟨rfl, he⟩ | ⟨hj, he⟩)
        · rw [Model.create_task_self] at he
          exact absurd he.symm hp
        · rw [Model.create_task_of_mem hi hj] at he
          exact ⟨hj, he⟩
  · intro p
    change Function.update k.OSTCBPrioTbl prio _ p = _ ↔ p ∈ A.reserved.filter (· ≠ prio)
    rw [Model.mem_unreserve]
    by_cases hp : p = prio
    · subst hp
      simp
    · simp [hp, h.reserved p]
  · intro j hj
    change OsTcb.Rep A.kind (tbl j) _
    rcases List.mem_cons.mp hj with hji | hjl
    · rw [hji, Model.create_task_self, hself]
      exact ⟨rfl, rfl, rfl, rfl, trivial⟩
    · have hji : j ≠ i := fun he => hi (he ▸ hjl)
      have ht := h.task j hjl
      rw [Model.create_task_of_mem hi hjl, hother j hji]
      split
      · exact ⟨ht.prio, ht.dly, ht.event, ht.stat, ht.pend⟩
      · exact ht
  · have hset := is_set h.rdy (tbl i)
    refine hset.congr fun p => ?_
    rw [Model.prios_create hi, hself]
    exact or_congr_left (and_iff_left ⟨rfl, rfl, rfl, rfl⟩).symm
  · intro e
    refine (h.wait e).congr fun p => ?_
    rw [Model.prios_create hi]
    exact (or_iff_right fun hl => nomatch hl.2).symm

/-- A reservation, or its end: only the entry of this priority changes, which is not that of a
task. -/
theorem Kern.Rep.reserve (h : k.Rep A) {A' : Model} {v : TcbPtr} {r : List ℕ}
    (hA' : A' = { A with reserved := r }) (hok : A'.Ok)
    (hne : ∀ j ∈ A.list, (A.task j).prio ≠ prio) (hv : ∀ j, v ≠ .tcb j)
    (hr : ∀ p, p ∈ r ↔ if p = prio then v = .reserved else p ∈ A.reserved) :
    Kern.Rep { k with OSTCBPrioTbl := Function.update k.OSTCBPrioTbl prio v } A' := by
  subst hA'
  refine { h with
    ok := hok
    prioTbl := fun p j => ?_
    reserved := fun p => ?_ }
  · change Function.update k.OSTCBPrioTbl prio v p = _ ↔ _
    by_cases hp : p = prio
    · subst hp
      rw [Function.update_self]
      exact iff_of_false (hv j) fun hj => hne j hj.1 hj.2
    · rw [Function.update_of_ne hp]
      exact h.prioTbl p j
  · change Function.update k.OSTCBPrioTbl prio v p = _ ↔ p ∈ r
    rw [hr p]
    by_cases hp : p = prio
    · subst hp
      rw [Function.update_self, if_pos rfl]
    · rw [Function.update_of_ne hp, if_neg hp]
      exact h.reserved p

theorem osTaskCreate_spec (h : k.Rep A) (hle : prio ≤ OS_LOWEST_PRIO) :
    let x := osTaskCreate prio k
    x = k.ret x.err ∧ x.err ≠ OS_ERR_NONE ∧
        (k.OSIntNesting > 0 ∨ (∃ j ∈ A.list, (A.task j).prio = prio) ∨ prio ∈ A.reserved) ∨
      k.OSIntNesting = 0 ∧ x.Goes k A [.reserve prio] ∧
        x.kern.OSLockNesting = k.OSLockNesting ∧ x = x.kern.goOn (.tcbInit prio) := by
  unfold osTaskCreate
  simp only
  split
  · rename_i hint
    exact Or.inl ⟨rfl, (by decide : OS_ERR_TASK_CREATE_ISR ≠ OS_ERR_NONE), Or.inl hint⟩
  rename_i hint
  split
  · rename_i hnull
    obtain ⟨hfresh, hres⟩ := h.prioTbl_null.mp hnull
    have ha : A.Allowed (.reserve prio) := ⟨hle, hfresh, hres⟩
    refine Or.inr ⟨by omega, Exit.goes_one ha ?_ rfl, rfl, rfl⟩
    refine h.reserve rfl (h.ok.reserve ha) hfresh (fun j hj => by cases hj) fun p => ?_
    rw [List.mem_cons]
    by_cases hp : p = prio <;> simp [hp]
  · rename_i hnull
    refine Or.inl ⟨rfl, (by decide : OS_ERR_PRIO_EXIST ≠ OS_ERR_NONE), Or.inr ?_⟩
    by_contra hne
    rw [not_or] at hne
    exact hnull (h.prioTbl_null.mpr ⟨fun j hj he => hne.1 ⟨j, hj, he⟩, hne.2⟩)

theorem osTCBInit_spec (h : k.Rep A) (prio : ℕ) :
    let x := osTCBInit prio k
    A.free = [] ∧ x = k.goOn (.release prio) ∨
      ∃ i, A.Allowed (.alloc i) ∧ x.Goes k A [.alloc i] ∧
        x.kern.OSLockNesting = k.OSLockNesting ∧ x = x.kern.goOn (.tcbLink prio i) := by
  unfold osTCBInit
  have hchain := h.chain
  cases hfree : A.free with
  | nil =>
      have hfirst : k.OSTCBFreeList = none := by simpa [hfree] using hchain.first_eq
      rw [hfirst]
      exact Or.inl ⟨rfl, rfl⟩
  | cons i f =>
      have ha : A.Allowed (.alloc i) := by
        change A.free.head? = some i
        rw [hfree]
        rfl
      rw [hfree] at hchain
      obtain ⟨hfirst, hrest⟩ := hchain
      rw [hfirst]
      refine Or.inr ⟨i, ha, Exit.goes_one ha ?_ rfl, rfl, rfl⟩
      have hok := h.ok.alloc ha
      have htail : (A.after (.alloc i)).free = f := congrArg List.tail hfree
      exact { h with
        ok := hok
        chain := htail ▸ hrest }

theorem osTCBLink_spec (h : k.Rep A) (ha : A.Allowed (.create i prio)) :
    let x := osTCBLink prio i k
    x.Does k A [.create i prio] ∧ x.err = OS_ERR_NONE ∧ x.pend = none ∧ x.sched = k.OSRunning := by
  have hlist : k.OSTCBList ≠ some i := by
    rw [h.links.first_eq]
    exact fun he => h.ok.mem_create ha (List.mem_of_mem_head? he)
  obtain ⟨tbl, k', hself, hother, rfl, heq⟩ := osTCBLink_eq prio hlist
  rw [heq]
  exact Exit.does_run (k := k) ha (h.create ha hself hother) rfl rfl OS_ERR_NONE

theorem releasePrio_spec (h : k.Rep A) (hp : prio ∈ A.reserved) :
    let x := releasePrio prio k
    x.Does k A [.release prio] ∧ x.err = OS_ERR_TASK_NO_MORE_TCB ∧ x.pend = none ∧
      x.sched = false := by
  refine ⟨Exit.does_one hp ?_ rfl rfl rfl, rfl, rfl, rfl⟩
  refine h.reserve rfl h.ok.release ?_ (fun j hj => by cases hj) fun p => ?_
  · rintro j hj rfl
    exact h.ok.fresh j hj hp
  · rw [Model.mem_unreserve]
    by_cases hp : p = prio <;> simp [hp]

/-! ### Deletion -/

theorem leaveEvent_none {ptcb : OsTcb} {tbl : ℕ → Ecb} (hev : ptcb.OSTCBEventPtr = none) :
    leaveEvent ptcb tbl = tbl := by
  unfold leaveEvent
  rw [hev]

theorem leaveEvent_some {ptcb : OsTcb} {tbl : ℕ → Ecb} {e : ℕ}
    (hev : ptcb.OSTCBEventPtr = some e) : leaveEvent ptcb tbl = eventTaskRemove ptcb e tbl := by
  unfold leaveEvent
  rw [hev]

theorem leaveEvent_obj {ptcb : OsTcb} {tbl : ℕ → Ecb} (e : ℕ) :
    (leaveEvent ptcb tbl e).obj = (tbl e).obj := by
  obtain hev | ⟨e', hev⟩ := ptcb.OSTCBEventPtr.eq_none_or_eq_some
  · rw [leaveEvent_none hev]
  · rw [leaveEvent_some hev]
    by_cases he : e = e' <;> simp [eventTaskRemove, he]

theorem Kern.Rep.leaveEvent (h : k.Rep A) (hi : i ∈ A.list) (e : ℕ) :
    (Core.leaveEvent (k.OSTCBTbl i) k.OSEventTbl e).wait.Is
      (A.prios (Task.Listed e) \ {(A.task i).prio}) := by
  have ht := h.task i hi
  -- it is on no other list than that of its event
  have hother : (A.task i).phase.event ≠ some e →
      (k.OSEventTbl e).wait.Is (A.prios (Task.Listed e) \ {(A.task i).prio}) := by
    refine fun hne => (h.wait e).congr fun p => (and_iff_left_of_imp ?_).symm
    rintro ⟨j, hj, rfl, hl⟩ he
    obtain rfl := h.ok.unique j hj i hi he
    refine hne ?_
    unfold Task.Listed at hl
    cases hph : (A.task j).phase with
    | run n => rw [hph] at hl; cases hl
    | wait e' n => rw [hph] at hl; exact hl
    | ended e' o => rw [hph] at hl; cases o <;> first | exact hl | cases hl
    | stopped e' => rw [hph] at hl; cases hl
  obtain hev | ⟨e', hev⟩ := (k.OSTCBTbl i).OSTCBEventPtr.eq_none_or_eq_some
  · rw [leaveEvent_none hev]
    exact hother (by rw [← ht.event, hev]; exact nofun)
  · rw [leaveEvent_some hev, eventTaskRemove]
    by_cases he : e = e'
    · subst he
      rw [Function.update_self, ← ht.prio]
      exact is_clear (h.wait e) _
    · rw [Function.update_of_ne he]
      refine hother ?_
      rw [← ht.event, hev]
      exact fun h' => he (Option.some.inj h').symm

theorem stopTcb_eq : stopTcb i k = { k with
    OSTCBTbl := Function.update k.OSTCBTbl i { k.OSTCBTbl i with
      OSTCBDly := 0
      OSTCBStat := OS_STAT_RDY
      OSTCBStatPend := .OK }
    rdy := k.rdy.clear (k.OSTCBTbl i).OSTCBY (k.OSTCBTbl i).OSTCBX
    OSLockNesting := if k.OSLockNesting < 255 then k.OSLockNesting + 1 else k.OSLockNesting
    OSEventTbl := leaveEvent (k.OSTCBTbl i) k.OSEventTbl } := by
  unfold stopTcb
  by_cases hlock : k.OSLockNesting < 255
  · simp only [Kern.unready, Kern.setTcb, hlock, if_true]
  · simp only [Kern.unready, Kern.setTcb, hlock, if_false]

theorem Kern.Rep.stop (h : k.Rep A) (ha : A.Allowed (.change i .stop)) :
    (stopTcb i k).Rep (A.after (.change i .stop)) := by
  obtain ⟨hi, hc⟩ := ha
  have ht := h.task i hi
  have hprio : (Change.stop.apply (A.task i)).prio = (A.task i).prio := rfl
  have hnot : ¬ (Change.stop.apply (A.task i)).Ready := fun hr => by cases hr.2.2.2
  have hrep : OsTcb.Rep A.kind { k.OSTCBTbl i with
      OSTCBDly := 0
      OSTCBStat := OS_STAT_RDY
      OSTCBStatPend := .OK } (Change.stop.apply (A.task i)) :=
    ⟨ht.prio, rfl, ht.event, rfl, rfl⟩
  rw [stopTcb_eq]
  refine (h.edit (w := Core.leaveEvent (k.OSTCBTbl i) k.OSEventTbl) hi hrep rfl rfl
    (h.ok.change hi hc) (fun p j => ?_) h.reserved leaveEvent_obj (h.is_remove hi h.rdy hnot)
    fun e => ?_).congr rfl rfl rfl rfl rfl rfl rfl
  · rw [h.prioTbl p j]
    by_cases hj : j = i
    · subst hj
      rw [Model.edit_task_self, hprio]
    · rw [Model.edit_task_of_ne hj]
  · refine (h.leaveEvent hi e).congr fun p => ?_
    rw [Model.mem_prios_edit h.ok hi, or_iff_right fun hl => nomatch hl.2]
    exact Iff.rfl

theorem osTaskDel_spec (h : k.Rep A) (hne : k.self prio ≠ OS_TASK_IDLE_PRIO)
    (hstop : ∀ i ∈ A.list, (A.task i).phase.stops = true → k.OSIntNesting > 0) :
    let x := osTaskDel prio k
    x = k.ret x.err ∧ x.err ≠ OS_ERR_NONE ∨
      ∃ i ∈ A.list, (A.task i).prio = k.self prio ∧ k.OSIntNesting = 0 ∧
        x.Goes k A [.change i .stop] ∧
        x.kern.OSLockNesting =
          (if k.OSLockNesting < 255 then k.OSLockNesting + 1 else k.OSLockNesting) ∧
        x = x.kern.goOn (.delete (k.self prio) i) := by
  unfold osTaskDel
  simp only
  split
  · exact Or.inl ⟨rfl, (by decide : OS_ERR_TASK_DEL_ISR ≠ OS_ERR_NONE)⟩
  rename_i hint
  split
  · exact Or.inl ⟨rfl, (by decide : OS_ERR_TASK_DEL_IDLE ≠ OS_ERR_NONE)⟩
  split
  · exact Or.inl ⟨rfl, (by decide : OS_ERR_TASK_NOT_EXIST ≠ OS_ERR_NONE)⟩
  · exact Or.inl ⟨rfl, (by decide : OS_ERR_TASK_DEL ≠ OS_ERR_NONE)⟩
  · rename_i i hp
    obtain ⟨hi, hprio⟩ := h.mem_of_prioTbl hp
    have ha : A.Allowed (.change i .stop) :=
      ⟨hi, fun he => hne (hprio ▸ he), Bool.eq_false_of_not_eq_true fun hs => hint (hstop i hi hs)⟩
    have heq := stopTcb_eq (k := k) (i := i)
    refine Or.inr ⟨i, hi, hprio, by omega, Exit.goes_one ha (h.stop ha) ?_, ?_, rfl⟩
    · change (stopTcb i k).ctl = k.ctl
      rw [heq]
      rfl
    · change (stopTcb i k).OSLockNesting = _
      rw [heq]

/-- The task control blocks after `i` has been taken out of the list. -/
def Kern.unlinked (k : Kern) (i : ℕ) (j : ℕ) : OsTcb :=
  { k.OSTCBTbl j with
    OSTCBNext := if k.tcbPrev i = some j then k.tcbNext i else k.tcbNext j
    OSTCBPrev := if k.tcbNext i = some j then k.tcbPrev i else k.tcbPrev j }

theorem unlink_eq {n : ℕ} (hnext : k.tcbNext i = some n) :
    unlink i k = some { k with
      OSTCBTbl := k.unlinked i
      OSTCBList := if k.tcbPrev i = none then some n else k.OSTCBList } := by
  unfold unlink Kern.unlinked
  unfold Kern.tcbNext at *
  unfold Kern.tcbPrev
  rw [hnext]
  cases hprev : (k.OSTCBTbl i).OSTCBPrev with
  | none =>
      refine congrArg some ?_
      simp only [Kern.setTcb, if_pos]
      congr
      funext j
      by_cases hj : j = n
      · subst hj
        simp
      · simp [hj, Ne.symm hj]
  | some p =>
      refine congrArg some ?_
      simp only [Kern.setTcb]
      congr
      funext j
      by_cases hj : j = n <;> by_cases hjp : j = p
      · subst hj hjp
        simp
      · subst hj
        simp [hjp, Ne.symm hjp]
      · subst hjp
        simp [hj, Ne.symm hj]
      · simp [hj, Ne.symm hj, hjp, Ne.symm hjp]

theorem Kern.Rep.delete (h : k.Rep A) (ha : A.Allowed (.delete i)) {k' : Kern}
    (htcb : ∀ j ≠ i, k'.OSTCBTbl j = k.unlinked i j)
    (hnext : (k'.OSTCBTbl i).OSTCBNext = k.OSTCBFreeList) (hfree : k'.OSTCBFreeList = some i)
    (hlist : k'.OSTCBList = if k.tcbPrev i = none then k.tcbNext i else k.OSTCBList)
    (hctr : k'.OSTaskCtr = k.OSTaskCtr - 1)
    (hprioTbl : k'.OSTCBPrioTbl = Function.update k.OSTCBPrioTbl (A.task i).prio .null)
    (hrdy : k'.rdy = k.rdy) (hevent : k'.OSEventTbl = k.OSEventTbl) :
    k'.Rep (A.after (.delete i)) := by
  obtain ⟨hi, hstop⟩ := ha
  have hnodup := h.ok.nodup_list
  have hmem : ∀ j, j ∈ A.list.erase i ↔ j ≠ i ∧ j ∈ A.list := fun j => hnodup.mem_erase_iff
  have hnot : i ∉ A.free := h.ok.not_mem_free hi
  -- it is neither ready nor on a waiting list
  have hnone : ∀ {P : Task → Prop}, ¬ P (A.task i) →
      (A.after (.delete i)).prios P = A.prios P := by
    intro P hP
    rw [Model.prios_delete h.ok hi]
    refine Set.sdiff_singleton_eq_self fun hp => hP ((Model.prio_mem_prios h.ok hi).mp hp)
  have hready : ¬ (A.task i).Ready := fun hr => by
    rw [hr.2.2.2] at hstop
    cases hstop
  have hlisted : ∀ e, ¬ (A.task i).Listed e := by
    intro e hl
    unfold Task.Listed at hl
    cases hph : (A.task i).phase with
    | stopped e' =>
        rw [hph] at hl
        cases hl
    | _ =>
        rw [hph] at hstop
        cases hstop
  refine {
    ok := h.ok.delete hi
    links := ?_
    chain := ?_
    ctr := ?_
    prioTbl := ?_
    reserved := ?_
    task := ?_
    obj := fun e => hevent ▸ h.obj e
    rdy := by rw [hnone hready, hrdy]; exact h.rdy
    wait := fun e => by rw [hnone (hlisted e), hevent]; exact h.wait e }
  · have hiff := h.links.prev_eq_none hi hnodup
    rw [hlist]
    simp only [hiff]
    refine h.links.erase hi hnodup (fun _ _ hn => by cases hn) (fun j hj => ?_) fun j hj => ?_
    · rw [Kern.tcbNext, htcb j hj]
      rfl
    · rw [Kern.tcbPrev, htcb j hj]
      rfl
  · rw [hfree]
    refine h.chain.push hnext fun j hj => ?_
    have hji : j ≠ i := fun he => hnot (he ▸ hj)
    rw [Kern.tcbNext, htcb j hji]
    exact if_neg fun he => h.ok.not_mem_free (h.links.prev_mem hi he) hj
  · rw [hctr, h.ctr]
    exact (List.length_erase_of_mem hi).symm
  · intro p j
    rw [hprioTbl]
    change _ ↔ j ∈ A.list.erase i ∧ (A.task j).prio = p
    rw [hmem]
    by_cases hp : p = (A.task i).prio
    · subst hp
      rw [Function.update_self]
      refine iff_of_false (fun hn => by cases hn) fun hj => ?_
      exact hj.1.1 (h.ok.unique j hj.1.2 i hi hj.2)
    · rw [Function.update_of_ne hp, h.prioTbl p j]
      refine ⟨fun hj => ⟨⟨?_, hj.1⟩, hj.2⟩, fun hj => ⟨hj.1.2, hj.2⟩⟩
      rintro rfl
      exact hp hj.2.symm
  · intro p
    rw [hprioTbl]
    change _ ↔ p ∈ A.reserved
    by_cases hp : p = (A.task i).prio
    · subst hp
      rw [Function.update_self]
      exact iff_of_false (fun hn => by cases hn) (h.ok.fresh i hi)
    · rw [Function.update_of_ne hp]
      exact h.reserved p
  · intro j hj
    obtain ⟨hji, hjl⟩ := (hmem j).mp hj
    have ht := h.task j hjl
    rw [htcb j hji]
    exact ⟨ht.prio, ht.dly, ht.event, ht.stat, ht.pend⟩

theorem Kern.Rep.exists_next (h : k.Rep A) (hidle : A.Idle) (hi : i ∈ A.list)
    (hstop : (A.task i).phase.stops = true) : ∃ n ∈ A.list, n ≠ i ∧ k.tcbNext i = some n := by
  obtain ⟨idle, hlast, htask⟩ := hidle
  obtain ⟨l₁, l₂, hl⟩ := List.append_of_mem hi
  have hlinks := h.links
  have hnodup := h.ok.nodup_list
  rw [hl] at hlinks hlast hnodup
  cases l₂ with
  | nil =>
      rw [List.getLast?_concat] at hlast
      obtain rfl := Option.some.inj hlast
      rw [htask] at hstop
      cases hstop
  | cons n l₂ =>
      refine ⟨n, ?_, ?_, hlinks.next_eq⟩
      · rw [hl]
        exact List.mem_append_right l₁ (List.mem_cons_of_mem i List.mem_cons_self)
      · rintro rfl
        exact (List.nodup_cons.mp (List.nodup_append.mp hnodup).2.1).1 List.mem_cons_self

theorem freeTcb_next : ((freeTcb i k).OSTCBTbl i).OSTCBNext = k.OSTCBFreeList := by
  simp [freeTcb, Kern.setTcb]

theorem osTaskDelEnd_eq (prio : ℕ) {n : ℕ} (hnext : k.tcbNext i = some n) :
    let k' := freeTcb i { k with
      OSTCBTbl := k.unlinked i
      OSTCBPrioTbl := Function.update k.OSTCBPrioTbl prio .null
      OSTCBList := if k.tcbPrev i = none then some n else k.OSTCBList
      OSTaskCtr := k.OSTaskCtr - 1
      OSLockNesting := k.OSLockNesting - 1 }
    osTaskDelEnd prio i k =
      some (if k'.OSRunning then k'.retSched OS_ERR_NONE else k'.ret OS_ERR_NONE) := by
  have hlock :
      (if k.OSLockNesting > 0 then { k with OSLockNesting := k.OSLockNesting - 1 } else k) =
        { k with OSLockNesting := k.OSLockNesting - 1 } := by
    split
    · rfl
    · rename_i h0
      rw [show k.OSLockNesting - 1 = k.OSLockNesting by omega]
  have hunlink := unlink_eq (k := { k with
    OSLockNesting := k.OSLockNesting - 1
    OSTaskCtr := k.OSTaskCtr - 1
    OSTCBPrioTbl := Function.update k.OSTCBPrioTbl prio .null }) hnext
  unfold osTaskDelEnd
  rw [hlock]
  simp only
  rw [hunlink]
  exact (apply_ite some _ _ _).symm

theorem osTaskDelEnd_spec (h : k.Rep A) (hidle : A.Idle) (ha : A.Allowed (.delete i))
    (hprio : (A.task i).prio = prio) :
    ∃ x, osTaskDelEnd prio i k = some x ∧ x.Goes k A [.delete i] ∧
      x.kern.OSLockNesting = k.OSLockNesting - 1 ∧ x.err = OS_ERR_NONE ∧ x.pend = none ∧
      x.sec = none ∧ x.sched = k.OSRunning := by
  obtain ⟨n, hn, hni, hnext⟩ := h.exists_next hidle ha.1 ha.2
  have heq := osTaskDelEnd_eq prio hnext
  subst hprio
  refine ⟨_, heq, ?_⟩
  obtain ⟨hkern, herr, hpend, hsec, hsched⟩ := Exit.run_fields (freeTcb i { k with
      OSTCBTbl := k.unlinked i
      OSTCBPrioTbl := Function.update k.OSTCBPrioTbl (A.task i).prio .null
      OSTCBList := if k.tcbPrev i = none then some n else k.OSTCBList
      OSTaskCtr := k.OSTaskCtr - 1
      OSLockNesting := k.OSLockNesting - 1 }) OS_ERR_NONE
  refine ⟨Exit.goes_one ha ?_ (by rw [hkern]; rfl), by rw [hkern]; rfl, herr, hpend, hsec, hsched⟩
  rw [hkern]
  exact h.delete ha (fun j hj => Function.update_of_ne hj _ _) freeTcb_next rfl (by rw [hnext]; rfl)
    rfl rfl rfl rfl

end Stm32Templet.Core
