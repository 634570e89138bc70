import Stm32Templet.Core.Task

/-! # Events

Tasks that wait for an event: `OS_EventTaskRdy` and `OS_EventTaskWait` of
`UCOSII/CORE/os_core.c`, and the functions of `UCOSII/CORE/os_sem.c`, `UCOSII/CORE/os_mbox.c` and
`UCOSII/CORE/os_q.c` that pend, post, accept and abort.  They are alike in all three files: what
differs is the bit in `OSTCBStat`, how something is taken from the event control block and how
it is put there.

A pend that has to wait has two critical sections, with `OS_Sched` between them: the first is
that of `pendOn`, the second is `pendEnd`. -/

namespace Stm32Templet.Core

open Bitmap Os

def OS_ERR_PEND_ISR : ℕ := 2
def OS_ERR_TIMEOUT : ℕ := 10
def OS_ERR_PEND_LOCKED : ℕ := 13
def OS_ERR_PEND_ABORT : ℕ := 14
def OS_ERR_MBOX_FULL : ℕ := 20
def OS_ERR_SEM_OVF : ℕ := 51

/-! ### Waiting -/

/-- `OS_EventTaskRdy`: the task of the highest priority that waits gets `pmsg`. -/
def osEventTaskRdy (e pmsg : ℕ) (msk : BitVec 8) (pend_stat : StatPend) (k : Kern) :
    Option (ℕ × Kern) :=
  let pevent := k.OSEventTbl e
  let y := unMap pevent.wait.grp
  let x := unMap (pevent.wait.tbl y)
  let prio := (y <<< 3) + x
  match k.OSTCBPrioTbl prio with
  | .tcb i =>
      let ptcb := { k.OSTCBTbl i with
        OSTCBDly := 0
        OSTCBMsg := pmsg
        OSTCBStat := (k.OSTCBTbl i).OSTCBStat &&& ~~~msk
        OSTCBStatPend := pend_stat }
      let k := k.setTcb i ptcb
      let k := if ptcb.OSTCBStat &&& OS_STAT_SUSPEND = OS_STAT_RDY then k.ready ptcb else k
      some (prio, osEventTaskRemove ptcb e k)
  | _ => none

/-- `OS_EventTaskWait`. -/
def osEventTaskWait (e : ℕ) (k : Kern) : Kern :=
  let k := k.setTcb k.OSTCBCur { k.cur with OSTCBEventPtr := some e }
  let pevent := k.OSEventTbl e
  let k := k.setEvent e { pevent with wait := pevent.wait.set k.cur.OSTCBY k.cur.OSTCBX }
  k.unready k.cur

/-! ### What the functions have in common -/

/-- A pend.  `take` is what it takes from the event control block at once, with what is left
there. -/
def pendOn (kd : Kind) (msk : BitVec 8) (take : Option (ℕ × Obj)) (e timeout : ℕ) (k : Kern) :
    Exit :=
  if k.OSIntNesting > 0 then k.ret OS_ERR_PEND_ISR
  else if k.OSLockNesting > 0 then k.ret OS_ERR_PEND_LOCKED
  else match take with
    | some (pmsg, obj) =>
        ⟨OS_ERR_NONE, pmsg, false, none, none, k.setEvent e { k.OSEventTbl e with obj := obj }⟩
    | none =>
        let k := k.setTcb k.OSTCBCur { k.cur with
          OSTCBStat := k.cur.OSTCBStat ||| msk
          OSTCBStatPend := .OK
          OSTCBDly := timeout }
        ⟨OS_ERR_NONE, 0, true, some (kd, e), none, osEventTaskWait e k⟩

/-- The second critical section of a pend: the error code, the message, and the task goes on. -/
def pendEnd (kd : Kind) (e : ℕ) (k : Kern) : (ℕ × ℕ) × Kern :=
  let r := match k.cur.OSTCBStatPend with
    | .OK => ((OS_ERR_NONE, if kd = Kind.sem then 0 else k.cur.OSTCBMsg), k)
    | .ABORT => ((OS_ERR_PEND_ABORT, 0), k)
    | .TO => ((OS_ERR_TIMEOUT, 0), osEventTaskRemove k.cur e k)
  let k := r.2
  (r.1, k.setTcb k.OSTCBCur { k.cur with
    OSTCBStat := OS_STAT_RDY
    OSTCBStatPend := .OK
    OSTCBEventPtr := none
    OSTCBMsg := if kd = Kind.sem then k.cur.OSTCBMsg else 0 })

/-- A post.  `put` is what becomes of the event control block when no task waits, with the error
code. -/
def postOn (msk : BitVec 8) (put : ℕ × Obj) (e pmsg : ℕ) (k : Kern) : Option Exit :=
  if (k.OSEventTbl e).wait.grp ≠ 0 then do
    let r ← osEventTaskRdy e pmsg msk .OK k
    r.2.retSched OS_ERR_NONE
  else some ((k.setEvent e { k.OSEventTbl e with obj := put.2 }).ret put.1)

/-- Something is taken if it is there; `empty` is the error code if it is not. -/
def acceptOn (empty : ℕ) (take : Option (ℕ × Obj)) (e : ℕ) (k : Kern) : Exit :=
  match take with
  | some (pmsg, obj) =>
      ⟨OS_ERR_NONE, pmsg, false, none, none, k.setEvent e { k.OSEventTbl e with obj := obj }⟩
  | none => k.ret empty

/-- The loop that aborts the pends of all tasks that wait, with the number of tasks. -/
def abortAll (e : ℕ) (msk : BitVec 8) : ℕ → Kern → Option (ℕ × Kern)
  | 0, k => some (0, k)
  | fuel + 1, k =>
      if (k.OSEventTbl e).wait.grp ≠ 0 then do
        let r ← osEventTaskRdy e 0 msk .ABORT k
        let r' ← abortAll e msk fuel r.2
        some (r'.1 + 1, r'.2)
      else some (0, k)

/-- The pend of the first task that waits is aborted, or with `OS_PEND_OPT_BROADCAST` that of
all. -/
def pendAbortOn (msk : BitVec 8) (broadcast : Bool) (e : ℕ) (k : Kern) : Option Exit :=
  if (k.OSEventTbl e).wait.grp ≠ 0 then
    if broadcast then do
      -- no more than 64 tasks can wait
      let r ← abortAll e msk 64 k
      some ⟨OS_ERR_PEND_ABORT, r.1, true, none, none, r.2⟩
    else do
      let r ← osEventTaskRdy e 0 msk .ABORT k
      some ⟨OS_ERR_PEND_ABORT, 1, true, none, none, r.2⟩
  else some (k.ret OS_ERR_NONE)

/-! ### Semaphores, mailboxes and queues -/

/-- `OSEventType`. -/
def Obj.kind : Obj → Kind
  | sem _ => .sem
  | mbox _ => .mbox
  | q _ => .q

/-- `OSEventCnt`. -/
def Obj.cnt : Obj → ℕ
  | sem cnt => cnt
  | _ => 0

/-- The bit in `OSTCBStat` of the tasks that pend. -/
def Kind.msk : Kind → BitVec 8
  | sem => OS_STAT_SEM
  | mbox => OS_STAT_MBOX
  | q => OS_STAT_Q

/-- A semaphore is decremented if it is positive, a mailbox is cleared if there is a message in
it, and the oldest message is taken out of a queue. -/
def Obj.take : Obj → Option (ℕ × Obj)
  | sem cnt => if cnt > 0 then some (0, sem (cnt - 1)) else none
  | mbox p => if p ≠ 0 then some (p, mbox 0) else none
  | q pq =>
      if pq.OSQEntries > 0 then some ((Os.osQAccept pq).1.1, q (Os.osQAccept pq).2) else none

/-- A semaphore is incremented, unless it would overflow; a message is put into a mailbox or a
queue, unless that is full. -/
def Obj.put (pmsg : ℕ) : Obj → ℕ × Obj
  | sem cnt => if cnt < 65535 then (OS_ERR_NONE, sem (cnt + 1)) else (OS_ERR_SEM_OVF, sem cnt)
  | mbox p => if p ≠ 0 then (OS_ERR_MBOX_FULL, mbox p) else (OS_ERR_NONE, mbox pmsg)
  | q pq => ((Os.osQPost pq pmsg).1, q (Os.osQPost pq pmsg).2)

def osPend (kd : Kind) (e timeout : ℕ) (k : Kern) : Exit :=
  let obj := (k.OSEventTbl e).obj
  if obj.kind ≠ kd then k.ret OS_ERR_EVENT_TYPE else pendOn kd kd.msk obj.take e timeout k

def osPost (kd : Kind) (e pmsg : ℕ) (k : Kern) : Option Exit :=
  let obj := (k.OSEventTbl e).obj
  if obj.kind ≠ kd then k.ret OS_ERR_EVENT_TYPE else postOn kd.msk (obj.put pmsg) e pmsg k

def osAccept (kd : Kind) (empty e : ℕ) (k : Kern) : Exit :=
  let obj := (k.OSEventTbl e).obj
  if obj.kind ≠ kd then k.ret OS_ERR_EVENT_TYPE else acceptOn empty obj.take e k

def osPendAbort (kd : Kind) (e : ℕ) (broadcast : Bool) (k : Kern) : Option Exit :=
  if (k.OSEventTbl e).obj.kind ≠ kd then k.ret OS_ERR_EVENT_TYPE
  else pendAbortOn kd.msk broadcast e k

/-- `OSSemPend`. -/
def osSemPend : ℕ → ℕ → Kern → Exit := osPend .sem

/-- `OSSemPost`. -/
def osSemPost (e : ℕ) : Kern → Option Exit := osPost .sem e 0

/-- `OSSemAccept`, which returns the count before. -/
def osSemAccept (e : ℕ) (k : Kern) : Exit :=
  { osAccept .sem OS_ERR_NONE e k with msg := (k.OSEventTbl e).obj.cnt }

/-- `OSSemPendAbort`. -/
def osSemPendAbort : ℕ → Bool → Kern → Option Exit := osPendAbort .sem

/-- `OSMboxPend`. -/
def osMboxPend : ℕ → ℕ → Kern → Exit := osPend .mbox

/-- `OSMboxPost`. -/
def osMboxPost : ℕ → ℕ → Kern → Option Exit := osPost .mbox

/-- `OSMboxAccept`. -/
def osMboxAccept : ℕ → Kern → Exit := osAccept .mbox OS_ERR_NONE

/-- `OSMboxPendAbort`. -/
def osMboxPendAbort : ℕ → Bool → Kern → Option Exit := osPendAbort .mbox

/-- `OSQPend`. -/
def osQPend : ℕ → ℕ → Kern → Exit := osPend .q

/-- `OSQPost`. -/
def osQPost : ℕ → ℕ → Kern → Option Exit := osPost .q

/-- `OSQAccept`. -/
def osQAccept : ℕ → Kern → Exit := osAccept .q OS_ERR_Q_EMPTY

/-- `OSQPendAbort`. -/
def osQPendAbort : ℕ → Bool → Kern → Option Exit := osPendAbort .q

end Stm32Templet.Core
