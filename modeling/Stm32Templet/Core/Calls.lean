import Stm32Templet.Core.EventRep
import Stm32Templet.Core.Machine
import Stm32Templet.Core.TimeRep

/-! # What the calls do

All functions together: a call fails and changes nothing, or it locks or unlocks the scheduler,
or it does steps of the model, those that `Call.Acts` has for it; or it begins a creation or
deletion (`Call.Begins`), and `Section.Acts` has the steps of the sections that follow.  Whatever
holds in all runs of the kernel follows from this without another look at the functions. -/

namespace Stm32Templet.Core

open Bitmap Os Runs

variable {k : Kern} {A : Model} {i e : ℕ} {kd : Kind} {x : Exit} {c : Call} {as : List Act}

namespace Call

/-- The error codes of calls that fail, where the caller relies on them. -/
def Failed (err : ℕ) : Call → Prop
  | pend _ _ _ | post _ _ _ | accept .q _ | create _ | del _ | changePrio _ _ =>
      err ≠ OS_ERR_NONE
  | _ => True

/-- The scheduler is locked or unlocked. -/
def Locks (k : Kern) (x : Exit) : Call → Prop
  | lock =>
      k.OSIntNesting = 0 ∧ x = Kern.ret { k with OSLockNesting := k.OSLockNesting + 1 } OS_ERR_NONE
  | unlock =>
      k.OSLockNesting > 0 ∧ x.kern = { k with OSLockNesting := k.OSLockNesting - 1 } ∧
        x.pend = none ∧ x.sec = none ∧
        (x.sched = false → k.OSLockNesting - 1 > 0 ∨ k.OSIntNesting > 0)
  | _ => False

/-- The steps of the model that a call is, and how it ends then. -/
def Acts (k : Kern) (A : Model) (x : Exit) (as : List Act) : Call → Prop
  | lock | unlock | create _ | del _ => False
  | timeSet _ => as = [] ∧ x.pend = none ∧ x.sched = false
  | changePrio oldprio newprio =>
      x.pend = none ∧ x.sched = true ∧
        ∃ i ∈ A.list, (A.task i).prio = k.self oldprio ∧ as = [.change i (.setPrio newprio)]
  | suspend prio =>
      x.pend = none ∧ ∃ i ∈ A.list, (A.task i).prio = k.self prio ∧ as = [.change i .suspend] ∧
        (x.sched = false → k.self prio ≠ k.cur.OSTCBPrio)
  | resume prio =>
      x.pend = none ∧ ∃ i ∈ A.list, (A.task i).prio = prio ∧ as = [.change i .resume] ∧
        (x.sched = false → ¬ ({ A.task i with susp := false } : Task).Ready)
  | dly ticks =>
      k.OSIntNesting = 0 ∧ k.OSLockNesting = 0 ∧ ticks > 0 ∧ x.pend = none ∧ x.sched = true ∧
        as = [.change k.OSTCBCur (.delay ticks)]
  | dlyResume prio =>
      x.pend = none ∧ ∃ i ∈ A.list, (A.task i).prio = prio ∧ as = [.change i .expire] ∧
        (x.sched = false → (A.task i).susp = true)
  | pend kd e timeout =>
      A.kind e = kd ∧ k.OSIntNesting = 0 ∧ k.OSLockNesting = 0 ∧
        (as = [.take e x.msg] ∧ x.err = OS_ERR_NONE ∧ x.pend = none ∧ x.sched = false ∨
          as = [.change k.OSTCBCur (.wait e timeout)] ∧ x.pend = some (kd, e) ∧ x.sched = true)
  | post kd e pmsg =>
      A.kind e = kd ∧ x.err = OS_ERR_NONE ∧ x.pend = none ∧
        (as = [.put e (kd.msg pmsg)] ∧ x.sched = false ∨
          x.sched = true ∧ ∃ i, as = [.change i (.wake e (.got (kd.msg pmsg)))])
  | accept kd e =>
      A.kind e = kd ∧ x.err = OS_ERR_NONE ∧ x.pend = none ∧ x.sched = false ∧
        ∃ pmsg, as = [.take e pmsg] ∧ if kd = .sem then x.msg > 0 ∧ pmsg = 0 else x.msg = pmsg
  | pendAbort kd e _ =>
      A.kind e = kd ∧ x.pend = none ∧ x.sched = true ∧
        ∃ l : List ℕ, as = l.map fun i => .change i (.wake e .abort)

/-- The first critical section of a creation or deletion. -/
def Begins (k : Kern) (A : Model) (x : Exit) (as : List Act) : Call → Prop
  | create prio =>
      k.OSIntNesting = 0 ∧ x.kern.OSLockNesting = k.OSLockNesting ∧
        x = x.kern.goOn (.tcbInit prio) ∧ as = [.reserve prio]
  | del prio =>
      k.OSIntNesting = 0 ∧ x.kern.OSLockNesting =
        (if k.OSLockNesting < 255 then k.OSLockNesting + 1 else k.OSLockNesting) ∧
        ∃ i ∈ A.list, (A.task i).prio = k.self prio ∧
          x = x.kern.goOn (.delete (k.self prio) i) ∧ as = [.change i .stop]
  | _ => False

/-- A call has no effect on the model, or that of its steps. -/
def Effect (k : Kern) (A : Model) (c : Call) (x : Exit) (as : List Act) : Prop :=
  as = [] ∧ (x = k.ret x.err ∧ c.Failed x.err ∨ c.Locks k x) ∨
    x.Does k A as ∧ c.Acts k A x as ∨ x.Goes k A as ∧ c.Begins k A x as

/-- A call fails, or does what it is for. -/
def Result (k : Kern) (A : Model) (c : Call) (x : Exit) : Prop := ∃ as, c.Effect k A x as

theorem Result.failed {err : ℕ} (hx : x = k.ret err) (hc : c.Failed err) : c.Result k A x := by
  subst hx
  exact ⟨[], Or.inl ⟨rfl, Or.inl ⟨rfl, hc⟩⟩⟩

theorem Result.locks (hx : c.Locks k x) : c.Result k A x := ⟨[], Or.inl ⟨rfl, Or.inr hx⟩⟩

theorem Result.acts (hx : x.Does k A as) (hc : c.Acts k A x as) : c.Result k A x :=
  ⟨as, Or.inr (Or.inl ⟨hx, hc⟩)⟩

theorem Result.begins (hx : x.Goes k A as) (hc : c.Begins k A x as) : c.Result k A x :=
  ⟨as, Or.inr (Or.inr ⟨hx, hc⟩)⟩

end Call

namespace Section

/-- The condition for a critical section that is still to come. -/
def Holds (A : Model) : Section → Prop
  | tcbInit prio | release prio => prio ∈ A.reserved
  | tcbLink prio ptcb => A.Allowed (.create ptcb prio)
  | delete prio ptcb => A.Allowed (.delete ptcb) ∧ (A.task ptcb).prio = prio

/-- The steps of the model that it is, and how it ends. -/
def Acts (k : Kern) (A : Model) (x : Exit) (as : List Act) : Section → Prop
  | tcbInit prio =>
      x.kern.OSLockNesting = k.OSLockNesting ∧
        (A.free = [] ∧ as = [] ∧ x = x.kern.goOn (.release prio) ∨
          ∃ i, as = [.alloc i] ∧ x = x.kern.goOn (.tcbLink prio i))
  | tcbLink prio ptcb =>
      x.kern.OSLockNesting = k.OSLockNesting ∧ x.err = OS_ERR_NONE ∧ x.pend = none ∧ x.sec = none ∧
        x.sched = true ∧ as = [.create ptcb prio]
  | release prio =>
      x.kern.OSLockNesting = k.OSLockNesting ∧ x.err = OS_ERR_TASK_NO_MORE_TCB ∧ x.pend = none ∧
        x.sec = none ∧ x.sched = false ∧ as = [.release prio]
  | delete _ ptcb =>
      x.kern.OSLockNesting = k.OSLockNesting - 1 ∧ x.err = OS_ERR_NONE ∧ x.pend = none ∧
        x.sec = none ∧ x.sched = true ∧ as = [.delete ptcb]

end Section

/-! ### Events -/

theorem Kern.Rep.kind_eq (h : k.Rep A) (e : ℕ) : (k.OSEventTbl e).obj.kind = A.kind e := by
  have hobj := h.obj e
  unfold Model.kind
  cases ho : (k.OSEventTbl e).obj with
  | _ => rw [ho] at hobj; exact hobj.1.symm

section Events

variable (h : k.Rep A)
include h

theorem osPend_result (timeout : ℕ)
    (hcur : k.OSIntNesting = 0 → k.OSLockNesting = 0 → k.OSTCBCur ∈ A.list ∧
      (A.task k.OSTCBCur).prio ≠ OS_TASK_IDLE_PRIO ∧ (A.task k.OSTCBCur).phase = .run 0) :
    (Call.pend kd e timeout).Result k A (osPend kd e timeout k) := by
  unfold osPend
  simp only [h.kind_eq]
  split
  · exact .failed rfl (by decide : OS_ERR_EVENT_TYPE ≠ OS_ERR_NONE)
  · rename_i hkind
    obtain rfl := not_not.mp hkind
    rcases pendOn_spec (A.kind e) h (h.obj e).takes hcur timeout with
      hx | ⟨hint, hlock, hx | hx⟩
    · exact .failed hx.1 hx.2
    · exact .acts hx.1 ⟨rfl, hint, hlock, Or.inl ⟨rfl, hx.2⟩⟩
    · exact .acts hx.1 ⟨rfl, hint, hlock, Or.inr ⟨rfl, hx.2⟩⟩

theorem osPost_result (kd : Kind) {pmsg : ℕ} (hpmsg : kd = .mbox → pmsg ≠ 0) :
    ∃ x, osPost kd e (kd.msg pmsg) k = some x ∧ (Call.post kd e pmsg).Result k A x := by
  unfold osPost
  simp only [h.kind_eq]
  split
  · exact ⟨_, rfl, .failed rfl (by decide : OS_ERR_EVENT_TYPE ≠ OS_ERR_NONE)⟩
  · rename_i hkind
    obtain rfl := not_not.mp hkind
    have hmsg : (A.kind e).msg ((A.kind e).msg pmsg) = (A.kind e).msg pmsg := by
      cases A.kind e <;> rfl
    have hput := (h.obj e).puts (h.ok.fits e) ((A.kind e).msg pmsg) fun hk => by
      rw [h.kind_eq] at hk
      rw [hk]
      exact hpmsg hk
    rw [h.kind_eq, hmsg] at hput
    obtain ⟨x, hx, hx' | hx' | ⟨i, hx'⟩⟩ := postOn_spec h hput
    · exact ⟨x, hx, .failed hx'.1 hx'.2.1⟩
    · exact ⟨x, hx, .acts hx'.1 ⟨rfl, hx'.2.1, hx'.2.2.1, Or.inl ⟨rfl, hx'.2.2.2⟩⟩⟩
    · exact ⟨x, hx, .acts hx'.1 ⟨rfl, hx'.2.1, hx'.2.2.1, Or.inr ⟨hx'.2.2.2, i, rfl⟩⟩⟩

theorem osAccept_spec (kd : Kind) (empty : ℕ) :
    let x := osAccept kd empty e k
    x = k.ret x.err ∧ (x.err = OS_ERR_EVENT_TYPE ∧ A.kind e ≠ kd ∨
        x.err = empty ∧ A.kind e = kd ∧ (A.buffer e).items = []) ∨
      A.kind e = kd ∧ x.Does k A [.take e x.msg] ∧ x.err = OS_ERR_NONE ∧ x.pend = none ∧
        x.sched = false := by
  unfold osAccept
  simp only [h.kind_eq]
  split
  · rename_i hkind
    exact Or.inl ⟨rfl, Or.inl ⟨rfl, hkind⟩⟩
  · rename_i hkind
    rcases acceptOn_spec h (h.obj e).takes empty with ⟨hx, hitems⟩ | hx
    · rw [hx]
      exact Or.inl ⟨rfl, Or.inr ⟨rfl, not_not.mp hkind, hitems⟩⟩
    · exact Or.inr ⟨not_not.mp hkind, hx⟩

theorem osSemAccept_result : (Call.accept .sem e).Result k A (osSemAccept e k) := by
  have hobj := h.obj e
  have hkind := h.kind_eq e
  unfold osSemAccept
  rcases osAccept_spec (e := e) h .sem OS_ERR_NONE with ⟨hx, herr⟩ | ⟨hk, hx, herr, hp, hs⟩
  · -- nothing to take, so the count is zero
    have hmsg : (k.OSEventTbl e).obj.cnt = 0 := by
      cases ho : (k.OSEventTbl e).obj with
      | sem cnt =>
          rw [ho] at hobj hkind
          rcases herr with ⟨_, hne⟩ | ⟨_, _, hitems⟩
          · exact absurd hkind.symm hne
          · rw [hobj.2.2] at hitems
            have hcnt : cnt = 0 := by simpa using hitems
            exact hcnt
      | mbox p => rfl
      | q pq => rfl
    rw [hmsg]
    exact .failed (congrArg (fun x : Exit => { x with msg := 0 }) hx) trivial
  · cases ho : (k.OSEventTbl e).obj with
    | sem cnt =>
        rw [ho] at hobj
        obtain ⟨A', hexec, _⟩ := hx.rep
        obtain ⟨_, hstep, _⟩ := exec_cons.mp hexec
        have ha := (Model.step_eq_some.mp hstep).1
        have hhead : (List.replicate cnt 0).head? = some (osAccept .sem OS_ERR_NONE e k).msg :=
          hobj.2.2 ▸ ha
        obtain ⟨hcnt, hzero⟩ : cnt > 0 ∧ (osAccept .sem OS_ERR_NONE e k).msg = 0 := by
          cases cnt with
          | zero => cases hhead
          | succ n => exact ⟨Nat.succ_pos n, (Option.some.inj hhead).symm⟩
        exact .acts ⟨⟨hx.rep, hx.ctl⟩, hx.lock, hx.sec⟩ ⟨hk, herr, hp, hs, _, rfl, hcnt, hzero⟩
    | mbox p =>
        rw [ho] at hkind
        cases hkind.trans hk
    | q pq =>
        rw [ho] at hkind
        cases hkind.trans hk

theorem osMboxAccept_result : (Call.accept .mbox e).Result k A (osMboxAccept e k) := by
  rcases osAccept_spec (e := e) h .mbox OS_ERR_NONE with ⟨hx, _⟩ | ⟨hk, hx, herr, hp, hs⟩
  · exact .failed hx trivial
  · exact .acts hx ⟨hk, herr, hp, hs, _, rfl, rfl⟩

theorem osQAccept_result : (Call.accept .q e).Result k A (osQAccept e k) := by
  rcases osAccept_spec (e := e) h .q OS_ERR_Q_EMPTY with
    ⟨hx, herr⟩ | ⟨hk, hx, herr, hp, hs⟩
  · refine .failed hx ?_
    rcases herr with ⟨herr, _⟩ | ⟨herr, _⟩
    · exact herr.trans_ne (by decide)
    · exact herr.trans_ne (by decide)
  · exact .acts hx ⟨hk, herr, hp, hs, _, rfl, rfl⟩

theorem osPendAbort_result (broadcast : Bool) :
    ∃ x, osPendAbort kd e broadcast k = some x ∧
      (Call.pendAbort kd e broadcast).Result k A x := by
  unfold osPendAbort
  simp only [h.kind_eq]
  split
  · exact ⟨_, rfl, .failed rfl trivial⟩
  · rename_i hkind
    obtain rfl := not_not.mp hkind
    obtain ⟨x, hx, hx' | ⟨l, hdoes, herr, _, hpend, hsched, _⟩⟩ := pendAbortOn_spec h broadcast
    · rw [hx'.1] at hx
      exact ⟨_, hx, .failed rfl trivial⟩
    · exact ⟨x, hx, .acts hdoes ⟨rfl, hpend, hsched, l, rfl⟩⟩

end Events

/-! ### All calls -/

theorem osSchedLock_result (hrun : k.OSRunning = true) :
    Call.lock.Result k A (osSchedLock k) := by
  unfold osSchedLock
  rw [if_pos hrun]
  split
  · rename_i hint
    split
    · exact .locks ⟨hint, rfl⟩
    · exact .failed rfl trivial
  · exact .failed rfl trivial

theorem osSchedUnlock_result (hrun : k.OSRunning = true) :
    Call.unlock.Result k A (osSchedUnlock k) := by
  unfold osSchedUnlock
  rw [if_pos hrun]
  split
  · rename_i hlock
    simp only
    split
    · split
      · exact .locks ⟨hlock, rfl, rfl, rfl, nofun⟩
      · rename_i hint
        exact .locks ⟨hlock, rfl, rfl, rfl, fun _ => Or.inr (Nat.pos_of_ne_zero hint)⟩
    · rename_i hne
      exact .locks ⟨hlock, rfl, rfl, rfl, fun _ => Or.inl (Nat.pos_of_ne_zero hne)⟩
  · exact .failed rfl trivial

theorem Kern.Rep.listed_of_not_granted (h : k.Rep A) (hi : i ∈ A.list)
    (hg : ¬ k.GrantedAt (A.task i).prio) (hstop : (A.task i).phase.stops = false) :
    (A.task i).phase.listed = (A.task i).phase.event := by
  have ht := h.task i hi
  have hevent := ht.event
  have hstat := ht.stat
  have hpend := ht.pend
  unfold Kern.GrantedAt at hg
  rw [h.prioTbl_of hi] at hg
  cases hph : (A.task i).phase with
  | run n => rfl
  | wait e n => rfl
  | stopped e =>
      rw [hph] at hstop
      cases hstop
  | ended e o =>
      rw [hph] at hevent hstat hpend
      have hnone : (k.OSTCBTbl i).OSTCBStat &&& OS_STAT_PEND_ANY = OS_STAT_RDY := by
        rw [hstat]
        exact (stat_and_pend _ _).mpr rfl
      have hne : (k.OSTCBTbl i).OSTCBEventPtr ≠ none := by
        rw [hevent]
        exact nofun
      cases o with
      | timeout => rfl
      | got pmsg =>
          exact absurd ⟨hne, hnone, by rw [hpend.1]; exact nofun⟩ hg
      | abort =>
          exact absurd ⟨hne, hnone, by rw [show _ = StatPend.ABORT from hpend]; exact nofun⟩ hg

/-- What a call does, if its contract is kept. -/
theorem exec_result (h : k.Rep A) (hrun : k.OSRunning = true) (hc : c.Contract k)
    (hcur : k.OSIntNesting = 0 → k.OSLockNesting = 0 → k.OSTCBCur ∈ A.list ∧
      (A.task k.OSTCBCur).prio ≠ OS_TASK_IDLE_PRIO ∧ (A.task k.OSTCBCur).phase = .run 0)
    (hstop : ∀ i ∈ A.list, (A.task i).phase.stops = true →
      k.OSIntNesting > 0 ∧ c.Spares k (A.task i).prio) :
    ∃ x, c.exec k = some x ∧ c.Result k A x := by
  -- a task that is suspended or gets another priority is not being deleted
  have hgo : ∀ {p : ℕ}, (∀ q, c.Spares k q → p ≠ q) →
      ∀ i ∈ A.list, (A.task i).prio = p → (A.task i).phase.stops = false := by
    intro p hp i hi hprio
    refine Bool.eq_false_of_not_eq_true fun hs => ?_
    exact hp _ (hstop i hi hs).2 hprio.symm
  cases c with
  | lock => exact ⟨_, rfl, osSchedLock_result hrun⟩
  | unlock => exact ⟨_, rfl, osSchedUnlock_result hrun⟩
  | create prio =>
      refine ⟨_, rfl, ?_⟩
      rcases osTaskCreate_spec h (Nat.le_of_lt hc.1) with ⟨hx, herr, _⟩ | ⟨hint, hx, hlock, he⟩
      · exact .failed hx herr
      · exact .begins hx ⟨hint, hlock, he, rfl⟩
  | del prio =>
      refine ⟨_, rfl, ?_⟩
      rcases osTaskDel_spec h (Nat.ne_of_lt hc.1) fun i hi hs => (hstop i hi hs).1 with
        hx | ⟨i, hi, hprio, hint, hx, hlock, he⟩
      · exact .failed hx.1 hx.2
      · exact .begins hx ⟨hint, hlock, i, hi, hprio, he, rfl⟩
  | changePrio oldprio newprio =>
      obtain ⟨hle, hlt, _, hg⟩ := hc
      refine ⟨_, rfl, ?_⟩
      rcases osTaskChangePrio_spec h (Nat.ne_of_lt hle) hlt fun i hi hprio =>
          have hs := hgo (fun _ h => h) i hi hprio
          ⟨h.listed_of_not_granted hi (hprio ▸ hg) hs, hs⟩ with
        hx | ⟨i, hi, hprio, hx, herr, hp, hs⟩
      · exact .failed hx.1 hx.2
      · exact .acts hx ⟨hp, hs.trans hrun, i, hi, hprio, rfl⟩
  | suspend prio =>
      refine ⟨_, rfl, ?_⟩
      rcases osTaskSuspend_spec h (Nat.ne_of_lt hc) (hgo fun _ h => h) with
        hx | ⟨i, hi, hprio, hx, hp, hs⟩
      · exact .failed hx trivial
      · exact .acts hx ⟨hp, i, hi, hprio, rfl, hs⟩
  | resume prio =>
      refine ⟨_, rfl, ?_⟩
      rcases osTaskResume_spec prio h with hx | ⟨i, hi, hprio, hx, hp, hs⟩
      · exact .failed hx trivial
      · exact .acts hx ⟨hp, i, hi, hprio, rfl, fun h' => hs h' hrun⟩
  | dly ticks =>
      refine ⟨_, rfl, ?_⟩
      rcases osTimeDly_spec ticks h hcur with hx | ⟨hint, hlock, hpos, hx, hp, hs⟩
      · exact .failed hx trivial
      · exact .acts hx ⟨hint, hlock, hpos, hp, hs, rfl⟩
  | dlyResume prio =>
      refine ⟨_, rfl, ?_⟩
      rcases osTimeDlyResume_spec prio h with hx | ⟨i, hi, hprio, hx, hp, hs⟩
      · exact .failed hx trivial
      · exact .acts hx ⟨hp, i, hi, hprio, rfl, hs⟩
  | timeSet ticks =>
      have hdoes : (osTimeSet ticks k).Does k A [] := ⟨⟨⟨A, rfl, { h with }⟩, rfl⟩, rfl, rfl⟩
      exact ⟨_, rfl, .acts hdoes ⟨rfl, rfl, rfl⟩⟩
  | pend kd e timeout =>
      cases kd with
      | _ => exact ⟨_, rfl, osPend_result h timeout hcur⟩
  | post kd e pmsg =>
      cases kd with
      | sem => exact osPost_result h .sem nofun
      | mbox => exact osPost_result h .mbox fun _ => hc
      | q => exact osPost_result h .q nofun
  | accept kd e =>
      cases kd with
      | sem => exact ⟨_, rfl, osSemAccept_result h⟩
      | mbox => exact ⟨_, rfl, osMboxAccept_result h⟩
      | q => exact ⟨_, rfl, osQAccept_result h⟩
  | pendAbort kd e broadcast =>
      cases kd with
      | _ => exact osPendAbort_result h broadcast

/-! ### Further sections -/

/-- What a further critical section of a creation or deletion does. -/
theorem Section.exec_result (h : k.Rep A) (hidle : A.Idle) (hrun : k.OSRunning = true)
    {s : Section} (hs : s.Holds A) :
    ∃ x as, s.exec k = some x ∧ x.Goes k A as ∧ s.Acts k A x as := by
  cases s with
  | tcbInit prio =>
      rcases osTCBInit_spec h prio with ⟨hfree, hx⟩ | ⟨i, _, hx, hlock, he⟩
      · refine ⟨_, [], rfl, ?_, ?_⟩
        · rw [hx]
          exact ⟨⟨A, rfl, h⟩, rfl⟩
        · rw [hx]
          exact ⟨rfl, Or.inl ⟨hfree, rfl, rfl⟩⟩
      · exact ⟨_, _, rfl, hx, hlock, Or.inr ⟨i, rfl, he⟩⟩
  | tcbLink prio ptcb =>
      obtain ⟨hx, herr, hpend, hsched⟩ := osTCBLink_spec h hs
      exact ⟨_, _, rfl, hx.toGoes, hx.lock, herr, hpend, hx.sec, hsched.trans hrun, rfl⟩
  | release prio =>
      obtain ⟨hx, herr, hpend, hsched⟩ := releasePrio_spec h hs
      exact ⟨_, _, rfl, hx.toGoes, hx.lock, herr, hpend, hx.sec, hsched, rfl⟩
  | delete prio ptcb =>
      obtain ⟨x, hexec, hx, hlock, herr, hpend, hsec, hsched⟩ :=
        osTaskDelEnd_spec h hidle hs.1 hs.2
      exact ⟨x, _, hexec, hx, hlock, herr, hpend, hsec, hsched.trans hrun, rfl⟩

end Stm32Templet.Core
