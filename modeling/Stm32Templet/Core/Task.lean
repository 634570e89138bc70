import Stm32Templet.Core.Sched

/-! # Tasks and time

`UCOSII/CORE/os_task.c` and `UCOSII/CORE/os_time.c`, with `OS_TCBInit` and `OSTimeTick` of
`UCOSII/CORE/os_core.c`.  The functions are those of this configuration: with
`OS_ARG_CHK_EN` zero they do not check their arguments.

`OSTaskCreate` and `OSTaskDel` have several critical sections, the first to set up the stack and
the task control block in between, the second to let interrupts in while the scheduler is locked.
Each of them is a function of its own here (`Section.exec`). -/

namespace Stm32Templet.Core

open Bitmap Os

def OS_ERR_PRIO_EXIST : ℕ := 40
def OS_ERR_PRIO : ℕ := 41
def OS_ERR_PRIO_INVALID : ℕ := 42
def OS_ERR_TASK_CREATE_ISR : ℕ := 60
def OS_ERR_TASK_DEL : ℕ := 61
def OS_ERR_TASK_DEL_IDLE : ℕ := 62
def OS_ERR_TASK_DEL_ISR : ℕ := 64
def OS_ERR_TASK_NO_MORE_TCB : ℕ := 66
def OS_ERR_TASK_NOT_EXIST : ℕ := 67
def OS_ERR_TASK_NOT_SUSPENDED : ℕ := 68
def OS_ERR_TASK_RESUME_PRIO : ℕ := 70
def OS_ERR_TASK_SUSPEND_PRIO : ℕ := 72
def OS_ERR_TIME_NOT_DLY : ℕ := 80

/-! ### Creation and deletion -/

/-- The task control block as `OS_TCBInit` sets it up. -/
def tcbInit (prio : ℕ) (next : Option ℕ) : OsTcb where
  OSTCBNext := next
  OSTCBPrev := none
  OSTCBEventPtr := none
  OSTCBMsg := 0
  OSTCBDly := 0
  OSTCBStat := OS_STAT_RDY
  OSTCBStatPend := .OK
  OSTCBPrio := prio

/-- The first critical section of `OSTaskCreate`, and as far as the kernel goes of
`OSTaskCreateExt`: the priority is reserved. -/
def osTaskCreate (prio : ℕ) (k : Kern) : Exit :=
  if k.OSIntNesting > 0 then k.ret OS_ERR_TASK_CREATE_ISR
  else if k.OSTCBPrioTbl prio = .null then
    { k with OSTCBPrioTbl := Function.update k.OSTCBPrioTbl prio .reserved }.goOn (.tcbInit prio)
  else k.ret OS_ERR_PRIO_EXIST

/-- The first critical section of `OS_TCBInit`. -/
def osTCBInit (prio : ℕ) (k : Kern) : Exit :=
  match k.OSTCBFreeList with
  | none => k.goOn (.release prio)
  | some ptcb =>
      { k with OSTCBFreeList := (k.OSTCBTbl ptcb).OSTCBNext }.goOn (.tcbLink prio ptcb)

/-- The second critical section of `OS_TCBInit`, and the end of `OSTaskCreate`.  The fields that are
set before it are set here: nobody else has the task control block. -/
def osTCBLink (prio ptcb : ℕ) (k : Kern) : Exit :=
  let k := k.setTcb ptcb (tcbInit prio k.OSTCBList)
  let k := { k with OSTCBPrioTbl := Function.update k.OSTCBPrioTbl prio (.tcb ptcb) }
  let k := match k.OSTCBList with
    | none => k
    | some i => k.setTcb i { k.OSTCBTbl i with OSTCBPrev := some ptcb }
  let k := { k with OSTCBList := some ptcb }
  let k := k.ready (k.OSTCBTbl ptcb)
  let k := { k with OSTaskCtr := k.OSTaskCtr + 1 }
  if k.OSRunning then k.retSched OS_ERR_NONE else k.ret OS_ERR_NONE

/-- The last critical section of `OSTaskCreate`, if `OS_TCBInit` has failed. -/
def releasePrio (prio : ℕ) (k : Kern) : Exit :=
  { k with OSTCBPrioTbl := Function.update k.OSTCBPrioTbl prio .null }.ret
    OS_ERR_TASK_NO_MORE_TCB

/-- `OSTaskCreate` before multitasking, when nothing comes between its critical sections. -/
def createTask (prio : ℕ) (k : Kern) : Kern :=
  let x := osTaskCreate prio k
  match x.sec with
  | none => x.kern
  | some _ =>
      let y := osTCBInit prio x.kern
      match y.sec with
      | some (.tcbLink _ ptcb) => (osTCBLink prio ptcb y.kern).kern
      | _ => (releasePrio prio y.kern).kern

/-- The priority that `prio` stands for. -/
def Kern.self (k : Kern) (prio : ℕ) : ℕ :=
  if prio = OS_PRIO_SELF then k.cur.OSTCBPrio else prio

/-- `OS_EventTaskRemove`, on `OSEventTbl`. -/
def eventTaskRemove (ptcb : OsTcb) (e : ℕ) (tbl : ℕ → Ecb) : ℕ → Ecb :=
  Function.update tbl e { tbl e with wait := (tbl e).wait.clear ptcb.OSTCBY ptcb.OSTCBX }

/-- `OS_EventTaskRemove`. -/
def osEventTaskRemove (ptcb : OsTcb) (e : ℕ) (k : Kern) : Kern :=
  { k with OSEventTbl := eventTaskRemove ptcb e k.OSEventTbl }

/-- A task is taken off the waiting list of its event, if it has one. -/
def leaveEvent (ptcb : OsTcb) (tbl : ℕ → Ecb) : ℕ → Ecb :=
  match ptcb.OSTCBEventPtr with
  | none => tbl
  | some e => eventTaskRemove ptcb e tbl

/-- What `OSTaskDel` does to a task before it calls `OS_Dummy`: the task is made not ready, does not
wait any more, and the scheduler is locked. -/
def stopTcb (ptcb : ℕ) (k : Kern) : Kern :=
  let k := k.unready (k.OSTCBTbl ptcb)
  let k := { k with OSEventTbl := leaveEvent (k.OSTCBTbl ptcb) k.OSEventTbl }
  let k := k.setTcb ptcb { k.OSTCBTbl ptcb with
    OSTCBDly := 0
    OSTCBStat := OS_STAT_RDY
    OSTCBStatPend := .OK }
  if k.OSLockNesting < 255 then { k with OSLockNesting := k.OSLockNesting + 1 } else k

/-- The task control block is taken out of the list. -/
def unlink (ptcb : ℕ) (k : Kern) : Option Kern :=
  match (k.OSTCBTbl ptcb).OSTCBPrev, (k.OSTCBTbl ptcb).OSTCBNext with
  | none, some n =>
      let k := k.setTcb n { k.OSTCBTbl n with OSTCBPrev := none }
      some { k with OSTCBList := some n }
  | some p, some n =>
      let k := k.setTcb p { k.OSTCBTbl p with OSTCBNext := some n }
      some (k.setTcb n { k.OSTCBTbl n with OSTCBPrev := some p })
  | _, none => none

/-- It is put into the free list. -/
def freeTcb (ptcb : ℕ) (k : Kern) : Kern :=
  let k := k.setTcb ptcb { k.OSTCBTbl ptcb with OSTCBNext := k.OSTCBFreeList }
  { k with OSTCBFreeList := some ptcb }

/-- The first critical section of `OSTaskDel`. -/
def osTaskDel (prio : ℕ) (k : Kern) : Exit :=
  if k.OSIntNesting > 0 then k.ret OS_ERR_TASK_DEL_ISR
  else if prio = OS_TASK_IDLE_PRIO then k.ret OS_ERR_TASK_DEL_IDLE
  else
    let prio := k.self prio
    match k.OSTCBPrioTbl prio with
    | .null => k.ret OS_ERR_TASK_NOT_EXIST
    | .reserved => k.ret OS_ERR_TASK_DEL
    | .tcb ptcb => (stopTcb ptcb k).goOn (.delete prio ptcb)

/-- The second critical section of `OSTaskDel`, behind `OS_Dummy`. -/
def osTaskDelEnd (prio ptcb : ℕ) (k : Kern) : Option Exit := do
  let k := if k.OSLockNesting > 0 then { k with OSLockNesting := k.OSLockNesting - 1 } else k
  let k := { k with
    OSTaskCtr := k.OSTaskCtr - 1
    OSTCBPrioTbl := Function.update k.OSTCBPrioTbl prio .null }
  let k ← unlink ptcb k
  let k := freeTcb ptcb k
  if k.OSRunning then k.retSched OS_ERR_NONE else k.ret OS_ERR_NONE

/-- The critical sections of creations and deletions but for the first ones. -/
def Section.exec : Section → Kern → Option Exit
  | tcbInit prio, k => osTCBInit prio k
  | tcbLink prio ptcb, k => osTCBLink prio ptcb k
  | release prio, k => releasePrio prio k
  | delete prio ptcb, k => osTaskDelEnd prio ptcb k

/-! ### Priority, suspension -/

/-- A task that is ready is moved in the ready list. -/
def moveReady (ptcb new : OsTcb) (rdy : Table 8) : Table 8 :=
  if (rdy.tbl ptcb.OSTCBY).getLsbD ptcb.OSTCBX then
    (rdy.clear ptcb.OSTCBY ptcb.OSTCBX).set new.OSTCBY new.OSTCBX
  else rdy

/-- A task that has an event is moved on its waiting list. -/
def moveEvent (ptcb new : OsTcb) (tbl : ℕ → Ecb) : ℕ → Ecb :=
  match ptcb.OSTCBEventPtr with
  | none => tbl
  | some e =>
      Function.update tbl e { tbl e with
        wait := ((tbl e).wait.clear ptcb.OSTCBY ptcb.OSTCBX).set new.OSTCBY new.OSTCBX }

/-- `OSTaskChangePrio`. -/
def osTaskChangePrio (oldprio newprio : ℕ) (k : Kern) : Exit :=
  if k.OSTCBPrioTbl newprio ≠ .null then k.ret OS_ERR_PRIO_EXIST
  else
    let oldprio := k.self oldprio
    match k.OSTCBPrioTbl oldprio with
    | .null => k.ret OS_ERR_PRIO
    | .reserved => k.ret OS_ERR_TASK_NOT_EXIST
    | .tcb i =>
        let ptcb := k.OSTCBTbl i
        let new := { ptcb with OSTCBPrio := newprio }
        let tbl := Function.update (Function.update k.OSTCBPrioTbl oldprio .null) newprio (.tcb i)
        let k := { k with
          OSTCBPrioTbl := tbl
          rdy := moveReady ptcb new k.rdy
          OSEventTbl := moveEvent ptcb new k.OSEventTbl }
        let k := k.setTcb i new
        if k.OSRunning then k.retSched OS_ERR_NONE else k.ret OS_ERR_NONE

/-- `OSTaskSuspend`. -/
def osTaskSuspend (prio : ℕ) (k : Kern) : Exit :=
  let self := decide (k.self prio = k.cur.OSTCBPrio)
  match k.OSTCBPrioTbl (k.self prio) with
  | .null => k.ret OS_ERR_TASK_SUSPEND_PRIO
  | .reserved => k.ret OS_ERR_TASK_NOT_EXIST
  | .tcb i =>
      let ptcb := k.OSTCBTbl i
      let k := k.unready ptcb
      let k := k.setTcb i { ptcb with OSTCBStat := ptcb.OSTCBStat ||| OS_STAT_SUSPEND }
      if self then k.retSched OS_ERR_NONE else k.ret OS_ERR_NONE

/-- `OSTaskResume`. -/
def osTaskResume (prio : ℕ) (k : Kern) : Exit :=
  match k.OSTCBPrioTbl prio with
  | .null => k.ret OS_ERR_TASK_RESUME_PRIO
  | .reserved => k.ret OS_ERR_TASK_NOT_EXIST
  | .tcb i =>
      let ptcb := k.OSTCBTbl i
      if ptcb.OSTCBStat &&& OS_STAT_SUSPEND ≠ OS_STAT_RDY then
        let ptcb := { ptcb with OSTCBStat := ptcb.OSTCBStat &&& ~~~OS_STAT_SUSPEND }
        let k := k.setTcb i ptcb
        if ptcb.OSTCBStat = OS_STAT_RDY then
          if ptcb.OSTCBDly = 0 then
            let k := k.ready ptcb
            if k.OSRunning then k.retSched OS_ERR_NONE else k.ret OS_ERR_NONE
          else k.ret OS_ERR_NONE
        else k.ret OS_ERR_NONE
      else k.ret OS_ERR_TASK_NOT_SUSPENDED

/-! ### Time -/

/-- `OSTimeDly`. -/
def osTimeDly (ticks : ℕ) (k : Kern) : Exit :=
  if k.OSIntNesting > 0 then k.ret OS_ERR_NONE
  else if k.OSLockNesting > 0 then k.ret OS_ERR_NONE
  else if ticks > 0 then
    let k := k.unready k.cur
    let k := k.setTcb k.OSTCBCur { k.cur with OSTCBDly := ticks }
    k.retSched OS_ERR_NONE
  else k.ret OS_ERR_NONE

/-- A delay or the time limit of a pend is over: what `OSTimeTick` and `OSTimeDlyResume` do to
the task control block then. -/
def expire (ptcb : OsTcb) : OsTcb :=
  if ptcb.OSTCBStat &&& OS_STAT_PEND_ANY ≠ OS_STAT_RDY then
    { ptcb with
      OSTCBDly := 0
      OSTCBStat := ptcb.OSTCBStat &&& ~~~OS_STAT_PEND_ANY
      OSTCBStatPend := .TO }
  else { ptcb with OSTCBDly := 0, OSTCBStatPend := .OK }

/-- `OSTimeDlyResume`. -/
def osTimeDlyResume (prio : ℕ) (k : Kern) : Exit :=
  if prio ≥ OS_LOWEST_PRIO then k.ret OS_ERR_PRIO_INVALID
  else match k.OSTCBPrioTbl prio with
    | .null => k.ret OS_ERR_TASK_NOT_EXIST
    | .reserved => k.ret OS_ERR_TASK_NOT_EXIST
    | .tcb i =>
        if (k.OSTCBTbl i).OSTCBDly = 0 then k.ret OS_ERR_TIME_NOT_DLY
        else
          let ptcb := expire (k.OSTCBTbl i)
          let k := k.setTcb i ptcb
          if ptcb.OSTCBStat &&& OS_STAT_SUSPEND = OS_STAT_RDY then
            (k.ready ptcb).retSched OS_ERR_NONE
          else k.ret OS_ERR_NONE

/-- `OSTimeSet`. -/
def osTimeSet (ticks : UInt32) (k : Kern) : Exit := { k with OSTime := ticks }.ret OS_ERR_NONE

/-- The beginning of `OSTimeTick`. -/
def tickTime (k : Kern) : Kern := { k with OSTime := k.OSTime + 1 }

/-- The critical section of the loop of `OSTimeTick`, for task control block `i`. -/
def tickTcb (i : ℕ) (k : Kern) : Kern :=
  let ptcb := k.OSTCBTbl i
  if ptcb.OSTCBDly ≠ 0 then
    if ptcb.OSTCBDly - 1 = 0 then
      let ptcb := expire ptcb
      let k := k.setTcb i ptcb
      if ptcb.OSTCBStat &&& OS_STAT_SUSPEND = OS_STAT_RDY then k.ready ptcb else k
    else k.setTcb i { ptcb with OSTCBDly := ptcb.OSTCBDly - 1 }
  else k

end Stm32Templet.Core
