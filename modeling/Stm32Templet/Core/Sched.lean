import Stm32Templet.Lib.Bitmap
import Stm32Templet.Os.Query

/-! # The scheduler

Task control blocks, the ready list and the scheduler of `UCOSII/CORE/os_core.c`, and the
exception handler of `UCOSII/PORT/os_cpu_a.asm` that switches between tasks.

A pointer to a task control block is its index in `OSTCBTbl`, a pointer to an event control
block its index in `OSEventTbl`.  A function that follows a pointer which is not one to a task
(`NULL`, or the mark `OS_TCB_RESERVED`) has no result, `none`. -/

namespace Stm32Templet.Core

open Bitmap Os

/-! ### Priorities -/

/-- `OSUnMapTbl`. -/
def OSUnMapTbl : List ℕ := [
  0, 0, 1, 0, 2, 0, 1, 0, 3, 0, 1, 0, 2, 0, 1, 0, 4, 0, 1, 0, 2, 0, 1, 0, 3, 0, 1, 0, 2, 0, 1, 0,
  5, 0, 1, 0, 2, 0, 1, 0, 3, 0, 1, 0, 2, 0, 1, 0, 4, 0, 1, 0, 2, 0, 1, 0, 3, 0, 1, 0, 2, 0, 1, 0,
  6, 0, 1, 0, 2, 0, 1, 0, 3, 0, 1, 0, 2, 0, 1, 0, 4, 0, 1, 0, 2, 0, 1, 0, 3, 0, 1, 0, 2, 0, 1, 0,
  5, 0, 1, 0, 2, 0, 1, 0, 3, 0, 1, 0, 2, 0, 1, 0, 4, 0, 1, 0, 2, 0, 1, 0, 3, 0, 1, 0, 2, 0, 1, 0,
  7, 0, 1, 0, 2, 0, 1, 0, 3, 0, 1, 0, 2, 0, 1, 0, 4, 0, 1, 0, 2, 0, 1, 0, 3, 0, 1, 0, 2, 0, 1, 0,
  5, 0, 1, 0, 2, 0, 1, 0, 3, 0, 1, 0, 2, 0, 1, 0, 4, 0, 1, 0, 2, 0, 1, 0, 3, 0, 1, 0, 2, 0, 1, 0,
  6, 0, 1, 0, 2, 0, 1, 0, 3, 0, 1, 0, 2, 0, 1, 0, 4, 0, 1, 0, 2, 0, 1, 0, 3, 0, 1, 0, 2, 0, 1, 0,
  5, 0, 1, 0, 2, 0, 1, 0, 3, 0, 1, 0, 2, 0, 1, 0, 4, 0, 1, 0, 2, 0, 1, 0, 3, 0, 1, 0, 2, 0, 1, 0]

/-- A look-up in `OSUnMapTbl`. -/
def unMap (v : BitVec 8) : ℕ := OSUnMapTbl.getD v.toNat 0

/-- The table gives the lowest bit. -/
theorem lowestBit_unMap : LowestBit unMap := by
  unfold LowestBit
  decide +kernel

def OS_PRIO_SELF : ℕ := 255

def OS_TASK_IDLE_PRIO : ℕ := OS_LOWEST_PRIO

/-! ### Control blocks -/

/-- `OSTCBStatPend`: `OS_STAT_PEND_OK`, `OS_STAT_PEND_TO` and `OS_STAT_PEND_ABORT`. -/
inductive StatPend where
  | OK
  | TO
  | ABORT
deriving DecidableEq

def OS_STAT_RDY : BitVec 8 := 0x00
def OS_STAT_SEM : BitVec 8 := 0x01
def OS_STAT_MBOX : BitVec 8 := 0x02
def OS_STAT_Q : BitVec 8 := 0x04
def OS_STAT_SUSPEND : BitVec 8 := 0x08
def OS_STAT_MUTEX : BitVec 8 := 0x10
def OS_STAT_FLAG : BitVec 8 := 0x20

def OS_STAT_PEND_ANY : BitVec 8 :=
  OS_STAT_SEM ||| OS_STAT_MBOX ||| OS_STAT_Q ||| OS_STAT_MUTEX ||| OS_STAT_FLAG

/-- `OS_TCB`, the task control block. -/
structure OsTcb where
  OSTCBNext : Option ℕ
  OSTCBPrev : Option ℕ
  OSTCBEventPtr : Option ℕ
  OSTCBMsg : ℕ
  OSTCBDly : ℕ
  OSTCBStat : BitVec 8
  OSTCBStatPend : StatPend
  OSTCBPrio : ℕ

/-- `OSTCBY`, from which `OSTCBBitY` is computed.  Like `OSTCBX` it is set together with the
priority. -/
def OsTcb.OSTCBY (t : OsTcb) : ℕ := t.OSTCBPrio >>> 3

/-- `OSTCBX`. -/
def OsTcb.OSTCBX (t : OsTcb) : ℕ := t.OSTCBPrio &&& 0x07

/-- An entry of `OSTCBPrioTbl`. -/
inductive TcbPtr where
  | null
  | reserved
  | tcb (i : ℕ)
deriving DecidableEq

/-- The types of event control blocks, `OSEventType`, with what is kept in them: the count of a
semaphore, the message in a mailbox, or a queue. -/
inductive Obj where
  | sem (OSEventCnt : ℕ)
  | mbox (OSEventPtr : ℕ)
  | q (OSEventPtr : OsQ)

/-- `OS_EVENT`, the event control block.  The tasks that wait are `OSEventGrp` and
`OSEventTbl`. -/
structure Ecb where
  obj : Obj
  wait : Table 8

/-- The variables of the kernel. -/
structure Kern where
  OSTCBTbl : ℕ → OsTcb
  OSTCBPrioTbl : ℕ → TcbPtr
  OSTCBList : Option ℕ
  OSTCBFreeList : Option ℕ
  OSTaskCtr : ℕ
  /-- `OSRdyGrp` and `OSRdyTbl`. -/
  rdy : Table 8
  OSPrioCur : ℕ
  OSPrioHighRdy : ℕ
  OSTCBCur : ℕ
  OSTCBHighRdy : TcbPtr
  OSIntNesting : ℕ
  OSLockNesting : ℕ
  OSRunning : Bool
  OSTime : UInt32
  OSEventTbl : ℕ → Ecb
  /-- The bit `PENDSVSET`: the exception that switches tasks is pending. -/
  pendSV : Bool

namespace Kern

/-- The task control block that is current. -/
def cur (k : Kern) : OsTcb := k.OSTCBTbl k.OSTCBCur

def setTcb (k : Kern) (i : ℕ) (t : OsTcb) : Kern :=
  { k with OSTCBTbl := Function.update k.OSTCBTbl i t }

def setEvent (k : Kern) (e : ℕ) (pevent : Ecb) : Kern :=
  { k with OSEventTbl := Function.update k.OSEventTbl e pevent }

/-- `OSRdyGrp |= OSTCBBitY; OSRdyTbl[OSTCBY] |= OSTCBBitX;` -/
def ready (k : Kern) (t : OsTcb) : Kern := { k with rdy := k.rdy.set t.OSTCBY t.OSTCBX }

/-- The bit of a task in `OSRdyTbl` is cleared, and that in `OSRdyGrp` with the last one. -/
def unready (k : Kern) (t : OsTcb) : Kern := { k with rdy := k.rdy.clear t.OSTCBY t.OSTCBX }

end Kern

/-! ### Scheduling -/

/-- `OS_SchedNew`. -/
def osSchedNew (k : Kern) : Kern :=
  let y := unMap k.rdy.grp
  { k with OSPrioHighRdy := (y <<< 3) + unMap (k.rdy.tbl y) }

/-- The part that `OS_Sched` and `OSIntExit` share: `OS_TASK_SW` and `OSIntCtxSw` both make the
exception pending. -/
def schedule (k : Kern) : Kern :=
  let k := osSchedNew k
  let k := { k with OSTCBHighRdy := k.OSTCBPrioTbl k.OSPrioHighRdy }
  if k.OSPrioHighRdy ≠ k.OSPrioCur then { k with pendSV := true } else k

/-- `OS_Sched`. -/
def osSched (k : Kern) : Kern :=
  if k.OSIntNesting = 0 then
    if k.OSLockNesting = 0 then schedule k else k
  else k

/-- `OSIntEnter`. -/
def osIntEnter (k : Kern) : Kern :=
  if k.OSRunning then
    if k.OSIntNesting < 255 then { k with OSIntNesting := k.OSIntNesting + 1 } else k
  else k

/-- `OSIntExit`. -/
def osIntExit (k : Kern) : Kern :=
  if k.OSRunning then
    let k := if k.OSIntNesting > 0 then { k with OSIntNesting := k.OSIntNesting - 1 } else k
    if k.OSIntNesting = 0 then
      if k.OSLockNesting = 0 then schedule k else k
    else k
  else k

/-- `PendSV_Handler`: the task that was found last runs from now on. -/
def pendSVHandler (k : Kern) : Option Kern :=
  match k.OSTCBHighRdy with
  | .tcb i => some { k with OSPrioCur := k.OSPrioHighRdy, OSTCBCur := i, pendSV := false }
  | _ => none

/-- `OSStart`. -/
def osStart (k : Kern) : Option Kern :=
  if k.OSRunning then some k
  else
    let k := osSchedNew k
    match k.OSTCBPrioTbl k.OSPrioHighRdy with
    | .tcb i =>
        some { k with
          OSPrioCur := k.OSPrioHighRdy
          OSTCBHighRdy := .tcb i
          OSTCBCur := i
          -- `OSStartHighRdy`
          OSRunning := true
          pendSV := true }
    | _ => none

/-! ### Calls -/

/-- The three sets of functions for events, in `os_sem.c`, `os_mbox.c` and `os_q.c`. -/
inductive Kind where
  | sem
  | mbox
  | q
deriving DecidableEq

/-- A critical section of `OSTaskCreate` or `OSTaskDel` that is still to come. -/
inductive Section where
  /-- `OS_TCBInit` takes a task control block for the task of this priority. -/
  | tcbInit (prio : ℕ)
  /-- `OS_TCBInit` puts the task control block into the list of the tasks. -/
  | tcbLink (prio ptcb : ℕ)
  /-- `OSTaskCreate` gives the priority back, since there was no task control block. -/
  | release (prio : ℕ)
  /-- `OSTaskDel` takes the task control block out of the list. -/
  | delete (prio ptcb : ℕ)
deriving DecidableEq

/-- How a kernel function leaves a critical section: with its error code and the message it
returns, with a call of `OS_Sched` or without, and with another critical section to come or
without, which then is that of a pend on an event, or of a creation or deletion. -/
structure Exit where
  err : ℕ
  msg : ℕ
  sched : Bool
  pend : Option (Kind × ℕ)
  sec : Option Section
  kern : Kern

/-- The function returns. -/
def Kern.ret (k : Kern) (err : ℕ) : Exit := ⟨err, 0, false, none, none, k⟩

/-- The function calls `OS_Sched` and returns. -/
def Kern.retSched (k : Kern) (err : ℕ) : Exit := ⟨err, 0, true, none, none, k⟩

/-- The function leaves the critical section and comes to section `s`. -/
def Kern.goOn (k : Kern) (s : Section) : Exit := ⟨OS_ERR_NONE, 0, false, none, some s, k⟩

/-- `OSSchedLock`. -/
def osSchedLock (k : Kern) : Exit :=
  if k.OSRunning then
    if k.OSIntNesting = 0 then
      if k.OSLockNesting < 255 then
        { k with OSLockNesting := k.OSLockNesting + 1 }.ret OS_ERR_NONE
      else k.ret OS_ERR_NONE
    else k.ret OS_ERR_NONE
  else k.ret OS_ERR_NONE

/-- `OSSchedUnlock`. -/
def osSchedUnlock (k : Kern) : Exit :=
  if k.OSRunning then
    if k.OSLockNesting > 0 then
      let k := { k with OSLockNesting := k.OSLockNesting - 1 }
      if k.OSLockNesting = 0 then
        if k.OSIntNesting = 0 then k.retSched OS_ERR_NONE else k.ret OS_ERR_NONE
      else k.ret OS_ERR_NONE
    else k.ret OS_ERR_NONE
  else k.ret OS_ERR_NONE

end Stm32Templet.Core
