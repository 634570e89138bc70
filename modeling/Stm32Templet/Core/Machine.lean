import Stm32Templet.Core.Event
import Stm32Templet.Lib.Runs

/-! # Tasks and interrupts

The kernel with everything that can happen to it.  The task that is current makes calls, one
critical section at a time: between two of them, and between a critical section and the call of
`OS_Sched` behind it, interrupts may come.  Interrupts nest, call kernel functions too, and one of
them is the tick, whose loop has a critical section for each task control block.  When no
interrupt is active any more the pending exception switches tasks.  A task can lose the processor
in the middle of a creation, too; in the middle of a deletion it has locked the scheduler.

The callers keep to a contract (`Call.Contract`): it has what the argument checks say that
`OS_ARG_CHK_EN` switches off, and three more conditions, which the functions rely on without a
check.  Interrupts that come into a deletion keep to two more (`Machine.Spared`). -/

namespace Stm32Templet.Core

open Bitmap Os Runs

/-! ### Calls -/

inductive Call where
  | lock
  | unlock
  | create (prio : ℕ)
  | del (prio : ℕ)
  | changePrio (oldprio newprio : ℕ)
  | suspend (prio : ℕ)
  | resume (prio : ℕ)
  | dly (ticks : ℕ)
  | dlyResume (prio : ℕ)
  | timeSet (ticks : UInt32)
  | pend (kd : Kind) (e timeout : ℕ)
  | post (kd : Kind) (e pmsg : ℕ)
  | accept (kd : Kind) (e : ℕ)
  | pendAbort (kd : Kind) (e : ℕ) (broadcast : Bool)
deriving DecidableEq

/-- The function called, up to the end of its first critical section. -/
def Call.exec : Call → Kern → Option Exit
  | lock, k => osSchedLock k
  | unlock, k => osSchedUnlock k
  | create prio, k => osTaskCreate prio k
  | del prio, k => osTaskDel prio k
  | changePrio oldprio newprio, k => osTaskChangePrio oldprio newprio k
  | suspend prio, k => osTaskSuspend prio k
  | resume prio, k => osTaskResume prio k
  | dly ticks, k => osTimeDly ticks k
  | dlyResume prio, k => osTimeDlyResume prio k
  | timeSet ticks, k => osTimeSet ticks k
  | pend .sem e timeout, k => osSemPend e timeout k
  | pend .mbox e timeout, k => osMboxPend e timeout k
  | pend .q e timeout, k => osQPend e timeout k
  | post .sem e _, k => osSemPost e k
  | post .mbox e pmsg, k => osMboxPost e pmsg k
  | post .q e pmsg, k => osQPost e pmsg k
  | accept .sem e, k => osSemAccept e k
  | accept .mbox e, k => osMboxAccept e k
  | accept .q e, k => osQAccept e k
  | pendAbort .sem e broadcast, k => osSemPendAbort e broadcast k
  | pendAbort .mbox e broadcast, k => osMboxPendAbort e broadcast k
  | pendAbort .q e broadcast, k => osQPendAbort e broadcast k

/-- The task was given the event that it pends on, or its pend was aborted, and it has not run
since. -/
def OsTcb.Granted (t : OsTcb) : Prop :=
  t.OSTCBEventPtr ≠ none ∧ t.OSTCBStat &&& OS_STAT_PEND_ANY = OS_STAT_RDY ∧
    t.OSTCBStatPend ≠ .TO

instance (t : OsTcb) : Decidable t.Granted := inferInstanceAs (Decidable (_ ∧ _ ∧ _))

/-- The task that a priority stands for has been granted its event. -/
def Kern.GrantedAt (k : Kern) (prio : ℕ) : Prop :=
  match k.OSTCBPrioTbl prio with
  | .tcb i => (k.OSTCBTbl i).Granted
  | _ => False

instance (k : Kern) (prio : ℕ) : Decidable (k.GrantedAt prio) := by
  unfold Kern.GrantedAt
  split <;> infer_instance

/-- What the callers of the kernel keep to.  The idle task is left alone, priorities are in their
range, and `NULL` is not posted to a mailbox.  A task does not delete itself while it locks the
scheduler.  A task gets a priority that the current task has left only after the next switch of
tasks, since `OS_Sched` compares priorities.  The priority of a task that was granted its event
is changed only after it has run, since `OSTaskChangePrio` puts a task with an `OSTCBEventPtr` on
the waiting list. -/
def Call.Contract (k : Kern) : Call → Prop
  | create prio => prio < OS_TASK_IDLE_PRIO ∧ (k.OSTCBPrioTbl prio = .null → prio ≠ k.OSPrioCur)
  | del prio =>
      k.self prio < OS_TASK_IDLE_PRIO ∧
        (k.OSTCBPrioTbl (k.self prio) = .tcb k.OSTCBCur → k.OSLockNesting = 0)
  | changePrio oldprio newprio =>
      k.self oldprio < OS_TASK_IDLE_PRIO ∧ newprio < OS_TASK_IDLE_PRIO ∧
        (k.OSTCBPrioTbl newprio = .null → newprio ≠ k.OSPrioCur) ∧
        ¬ k.GrantedAt (k.self oldprio)
  | suspend prio => k.self prio < OS_TASK_IDLE_PRIO
  | resume prio => prio < OS_TASK_IDLE_PRIO
  | post .mbox _ pmsg => pmsg ≠ 0
  | _ => True

instance (k : Kern) : (c : Call) → Decidable (c.Contract k)
  | .lock => isTrue trivial
  | .unlock => isTrue trivial
  | .create _ => inferInstanceAs (Decidable (_ ∧ _))
  | .del _ => inferInstanceAs (Decidable (_ ∧ _))
  | .changePrio _ _ => inferInstanceAs (Decidable (_ ∧ _ ∧ _ ∧ _))
  | .suspend _ => inferInstanceAs (Decidable (_ < _))
  | .resume _ => inferInstanceAs (Decidable (_ < _))
  | .dly _ => isTrue trivial
  | .dlyResume _ => isTrue trivial
  | .timeSet _ => isTrue trivial
  | .pend _ _ _ => isTrue trivial
  | .post .sem _ _ => isTrue trivial
  | .post .mbox _ _ => inferInstanceAs (Decidable (_ ≠ _))
  | .post .q _ _ => isTrue trivial
  | .accept _ _ => isTrue trivial
  | .pendAbort _ _ _ => isTrue trivial

/-! ### The machine -/

/-- The call leaves the scheduler locked, and does not suspend the task of priority `p` or change
its priority. -/
def Call.Spares (k : Kern) (p : ℕ) : Call → Prop
  | unlock => False
  | suspend prio => k.self prio ≠ p
  | changePrio oldprio _ => k.self oldprio ≠ p
  | _ => True

instance (k : Kern) (p : ℕ) : (c : Call) → Decidable (c.Spares k p)
  | .unlock => isFalse id
  | .suspend _ => inferInstanceAs (Decidable (_ ≠ _))
  | .changePrio _ _ => inferInstanceAs (Decidable (_ ≠ _))
  | .lock | .create _ | .del _ | .resume _ | .dly _ | .dlyResume _ | .timeSet _ | .pend _ _ _
  | .post _ _ _ | .accept _ _ | .pendAbort _ _ _ => isTrue trivial

/-- Where a task stands: whether it is about to call `OS_Sched`, whether it is inside a pend, and
whether it is inside a creation or deletion. -/
structure Pc where
  sched : Bool
  pend : Option (Kind × ℕ)
  sec : Option Section
deriving DecidableEq

/-- The task runs its own code. -/
def Pc.run : Pc := ⟨false, none, none⟩

structure Machine where
  kern : Kern
  pc : ℕ → Pc
  /-- The pointer of the loop of `OSTimeTick`, while that runs. -/
  tick : Option (Option ℕ)

/-- The current task. -/
def Machine.at (m : Machine) : Pc := m.pc m.kern.OSTCBCur

/-- The task control block that the current task is deleting. -/
def Machine.deleting (m : Machine) : Option ℕ :=
  match m.at.sec with
  | some (.delete _ ptcb) => some ptcb
  | _ => none

inductive Event where
  /-- The current task makes a call. -/
  | call (c : Call)
  /-- It calls `OS_Sched`. -/
  | sched
  /-- It enters the second critical section of a pend. -/
  | pendEnd
  /-- It enters the next critical section of a creation or deletion. -/
  | proceed
  | pendSV
  | intEnter
  | intExit
  /-- An interrupt service routine makes a call. -/
  | isr (c : Call)
  | tick
  | tickTcb
deriving DecidableEq

/-- Tasks have the processor only when no interrupt is active and no switch is pending. -/
def Machine.TaskLevel (m : Machine) : Prop := m.kern.OSIntNesting = 0 ∧ m.kern.pendSV = false

instance (m : Machine) : Decidable m.TaskLevel := inferInstanceAs (Decidable (_ ∧ _))

/-- When an event can happen.  The idle task makes no calls, and the tick is itself part of an
interrupt service routine. -/
def Machine.Enabled (m : Machine) : Event → Prop
  | .call _ => m.TaskLevel ∧ m.at = .run ∧ m.kern.cur.OSTCBPrio ≠ OS_TASK_IDLE_PRIO
  | .sched => m.TaskLevel ∧ m.at.sched = true
  | .pendEnd => m.TaskLevel ∧ m.at.sched = false ∧ m.at.pend ≠ none
  | .proceed => m.TaskLevel ∧ m.at.sched = false ∧ m.at.sec ≠ none
  | .pendSV => m.kern.OSIntNesting = 0 ∧ m.kern.pendSV = true
  | .intEnter => m.kern.OSIntNesting < 255
  | .intExit => m.kern.OSIntNesting > 0 ∧ (m.kern.OSIntNesting = 1 → m.tick = none)
  | .isr _ => m.kern.OSIntNesting > 0
  | .tick => m.kern.OSIntNesting > 0 ∧ m.tick = none
  | .tickTcb => m.kern.OSIntNesting > 0 ∧ m.tick ≠ none

instance (m : Machine) : (e : Event) → Decidable (m.Enabled e)
  | .call _ => inferInstanceAs (Decidable (_ ∧ _ ∧ _))
  | .sched => inferInstanceAs (Decidable (_ ∧ _))
  | .pendEnd => inferInstanceAs (Decidable (_ ∧ _ ∧ _))
  | .proceed => inferInstanceAs (Decidable (_ ∧ _ ∧ _))
  | .pendSV => inferInstanceAs (Decidable (_ ∧ _))
  | .intEnter => inferInstanceAs (Decidable (_ < _))
  | .intExit => inferInstanceAs (Decidable (_ ∧ _))
  | .isr _ => inferInstanceAs (Decidable (_ > _))
  | .tick => inferInstanceAs (Decidable (_ ∧ _))
  | .tickTcb => inferInstanceAs (Decidable (_ ∧ _))

/-- A task that is created starts with its own code. -/
def Machine.entry (m : Machine) : Section → ℕ → Pc
  | .tcbLink _ ptcb => Function.update m.pc ptcb .run
  | _ => m.pc

/-- The current task has come to the end `x` of a critical section. -/
def Machine.exit (m : Machine) (pc : ℕ → Pc) (x : Exit) : Machine :=
  { m with
    kern := x.kern
    pc := Function.update pc m.kern.OSTCBCur ⟨x.sched, x.pend, x.sec⟩ }

/-- What the event does; `none` if a pointer is followed that is none. -/
def Machine.next (m : Machine) : Event → Option Machine
  | .call c => do
      let x ← c.exec m.kern
      some (m.exit m.pc x)
  | .sched =>
      some { m with
        kern := osSched m.kern
        pc := Function.update m.pc m.kern.OSTCBCur { m.at with sched := false } }
  | .pendEnd => do
      let (kd, e) ← m.at.pend
      some { m with
        kern := (Core.pendEnd kd e m.kern).2
        pc := Function.update m.pc m.kern.OSTCBCur .run }
  | .proceed => do
      let s ← m.at.sec
      let x ← s.exec m.kern
      some (m.exit (m.entry s) x)
  | .pendSV => do
      let k ← pendSVHandler m.kern
      some { m with kern := k }
  | .intEnter => some { m with kern := osIntEnter m.kern }
  | .intExit => some { m with kern := osIntExit m.kern }
  | .isr c => do
      let x ← c.exec m.kern
      some { m with kern := if x.sched then osSched x.kern else x.kern }
  | .tick =>
      let k := tickTime m.kern
      some { m with kern := k, tick := if k.OSRunning then some k.OSTCBList else none }
  | .tickTcb => do
      let i ← (← m.tick)
      if (m.kern.OSTCBTbl i).OSTCBPrio = OS_TASK_IDLE_PRIO then some { m with tick := none }
      else
        some { m with
          kern := Core.tickTcb i m.kern
          tick := some ((Core.tickTcb i m.kern).OSTCBTbl i).OSTCBNext }

def Machine.step (m : Machine) (e : Event) : Option Machine :=
  if m.Enabled e then m.next e else none

/-- What interrupt service routines keep to between the critical sections of `OSTaskDel`: the
scheduler remains locked, and the task is left alone. -/
def Machine.Spared (m : Machine) (c : Call) : Prop :=
  match m.at.sec with
  | some (.delete prio _) => c.Spares m.kern prio
  | _ => True

instance (m : Machine) (c : Call) : Decidable (m.Spared c) := by
  unfold Machine.Spared
  split <;> infer_instance

/-- The contract, for an event. -/
def Machine.Contract (m : Machine) : Event → Prop
  | .call c => c.Contract m.kern
  | .isr c => c.Contract m.kern ∧ m.Spared c
  | _ => True

instance (m : Machine) : (e : Event) → Decidable (m.Contract e)
  | .call c => inferInstanceAs (Decidable (c.Contract m.kern))
  | .isr c => inferInstanceAs (Decidable (c.Contract m.kern ∧ _))
  | .sched => isTrue trivial
  | .pendEnd => isTrue trivial
  | .proceed => isTrue trivial
  | .pendSV => isTrue trivial
  | .intEnter => isTrue trivial
  | .intExit => isTrue trivial
  | .tick => isTrue trivial
  | .tickTcb => isTrue trivial

/-! ### The start -/

def OS_MAX_TASKS : ℕ := 10

def OS_N_SYS_TASKS : ℕ := 2

def OS_TASK_STAT_PRIO : ℕ := OS_LOWEST_PRIO - 1

/-- The variables after `OS_InitMisc`, `OS_InitRdyList` and `OS_InitTCBList`; `obj` are the events
that will be used. -/
def osInitVars (obj : ℕ → Obj) : Kern where
  OSTCBTbl i := { tcbInit 0 none with
    OSTCBNext := if i + 1 < OS_MAX_TASKS + OS_N_SYS_TASKS then some (i + 1) else none }
  OSTCBPrioTbl _ := .null
  OSTCBList := none
  OSTCBFreeList := some 0
  OSTaskCtr := 0
  rdy := .empty
  OSPrioCur := 0
  OSPrioHighRdy := 0
  OSTCBCur := 0
  OSTCBHighRdy := .null
  OSIntNesting := 0
  OSLockNesting := 0
  OSRunning := false
  OSTime := 0
  OSEventTbl e := ⟨obj e, .empty⟩
  pendSV := false

/-- `OSInit`, with the idle task and the statistics task. -/
def osInit (obj : ℕ → Obj) : Kern :=
  createTask OS_TASK_STAT_PRIO (createTask OS_TASK_IDLE_PRIO (osInitVars obj))

/-- `main`: the tasks `prios` are created, and multitasking starts. -/
def Machine.start (obj : ℕ → Obj) (prios : List ℕ) : Option Machine := do
  let k ← osStart (prios.foldl (fun k prio => createTask prio k) (osInit obj))
  some ⟨k, fun _ => .run, none⟩

end Stm32Templet.Core
