import Stm32Templet.Lib.Atomic
import Stm32Templet.Sys.Config

/-! # Messages

`MEM_Get`, `MEM_Put`, `MSG_Send`, `MSG_Receive` and `MSG_Free` of `SYSTEM/src/sys.c` as
programs over single accesses to memory and single operations on the pools and queues; tasks
may preempt each other between any two of these.

A message is a small block: the head (`message`, `para0`, `para1`, `len`, two bytes each) and
a union at offset 8.  Up to 24 bytes of payload stand in the union itself; for more, the
union holds the address of a second block, small or big.  Every field access of the source is
a load or store here, also the one that is only the argument of a debug print, whose body is
compiled out. -/

namespace Stm32Templet.Sys

open Memory Os Tasks Atomic

/-! ### Accesses -/

inductive Act where
  /-- Read of `n` bytes. -/
  | load (n a : ℕ)
  /-- Write of `n` bytes. -/
  | store (n a v : ℕ)
  | osMemGet (p : Partition)
  | osMemPut (p : Partition) (pblk : ℕ)
  | osQPost (t : Fin TASK_NUM) (pmsg : ℕ)
  | osQAccept (t : Fin TASK_NUM)

/-- Results of the accesses. -/
abbrev Act.Res : Act → Type
  | load _ _ => ℕ
  | store _ _ _ => Unit
  | osMemGet _ => ℕ × ℕ
  | osMemPut _ _ => ℕ
  | osQPost _ _ => ℕ
  | osQAccept _ => ℕ × ℕ

abbrev sig : Sig := ⟨Act, Act.Res⟩

/-- The program that makes one access. -/
def atom (a : Act) : Prog sig a.Res := .act a .ret

/-- Effect of one access. -/
def access : (a : Act) → Kernel → a.Res × Kernel
  | .load n a, k => (load k.mem n a, k)
  | .store n a v, k => ((), { k with mem := store k.mem n a v })
  | .osMemGet p, k =>
      let r := osMemGet (k.part p) k.mem
      (r.1, { k with part := Function.update k.part p r.2 })
  | .osMemPut p pblk, k =>
      let r := osMemPut (k.part p) pblk k.mem
      (r.1, { k with part := Function.update k.part p r.2.1, mem := r.2.2 })
  | .osQPost t pmsg, k =>
      let r := osQPost (k.QMessage t) pmsg
      (r.1, { k with QMessage := Function.update k.QMessage t r.2 })
  | .osQAccept t, k =>
      let r := osQAccept (k.QMessage t)
      (r.1, { k with QMessage := Function.update k.QMessage t r.2 })

/-! ### Pools -/

/-- `MEM_Get`: the block and the error code. -/
def memGet (size : ℕ) : Prog sig (ℕ × ℕ) :=
  if size ≤ MEM_SIZE then atom (.osMemGet .Mem)
  else if size ≤ MEM_BIG_SIZE then atom (.osMemGet .MemBig)
  else .ret (0, 0xff)

/-- `MEM_Put`. -/
def memPut (L : Layout) (pblk : ℕ) : Prog sig ℕ :=
  if L.In .Mem pblk then atom (.osMemPut .Mem pblk)
  else if L.In .MemBig pblk then atom (.osMemPut .MemBig pblk)
  else .ret 99

/-! ### Messages in memory -/

/-- `sizeof(MessageHead_sut)`. -/
def HEAD_SIZE : ℕ := 8

/-- `pMessage->head.len`. -/
def headLen (m : Mem) (pMessage : ℕ) : ℕ := load m 2 (pMessage + 6)

/-- `pMessage->data.pData`. -/
def dataPtr (m : Mem) (pMessage : ℕ) : ℕ := load m 4 (pMessage + HEAD_SIZE)

/-- Whether the payload has a block of its own. -/
def Split (len : ℕ) : Prop := len > MEM_SIZE - HEAD_SIZE

instance (len : ℕ) : Decidable (Split len) := inferInstanceAs (Decidable (_ > _))

/-- The contents of a message. -/
structure Msg where
  message : ℕ
  para0 : ℕ
  para1 : ℕ
  len : ℕ
  payload : List UInt8
deriving DecidableEq, Repr

/-- The arguments of `MSG_Send`. -/
structure Send where
  task : Fin TASK_NUM
  message : UInt16
  para0 : UInt16
  para1 : UInt16
  pData : ℕ
  len : UInt16
deriving DecidableEq

/-- The message that a call of `MSG_Send` stands for, given the bytes read from `pData`. -/
def Send.msg (c : Send) (payload : List UInt8) : Msg where
  message := c.message.toNat
  para0 := c.para0.toNat
  para1 := c.para1.toNat
  len := c.len.toNat
  payload := payload

/-- What a receiver finds in the message at `pMessage`, reading the payload where the
handlers read it. -/
def decode (m : Mem) (pMessage : ℕ) : Msg where
  message := load m 2 pMessage
  para0 := load m 2 (pMessage + 2)
  para1 := load m 2 (pMessage + 4)
  len := headLen m pMessage
  payload := bytes m
    (if Split (headLen m pMessage) then dataPtr m pMessage else pMessage + HEAD_SIZE)
    (headLen m pMessage)

/-- The blocks of the message at `pMessage`. -/
def msgBlocks (m : Mem) (pMessage : ℕ) : List ℕ :=
  if Split (headLen m pMessage) then [pMessage, dataPtr m pMessage] else [pMessage]

/-- The partition that `MEM_Get` takes a payload of this length from. -/
def payloadPart (len : ℕ) : Partition := if len ≤ MEM_SIZE then .Mem else .MemBig

/-- The message at `pMessage` is in blocks of the right partitions. -/
structure Formed (L : Layout) (m : Mem) (pMessage : ℕ) : Prop where
  block : L.Block .Mem pMessage
  payload : Split (headLen m pMessage) →
    headLen m pMessage ≤ MEM_BIG_SIZE ∧
      L.Block (payloadPart (headLen m pMessage)) (dataPtr m pMessage) ∧
        dataPtr m pMessage ≠ pMessage

/-! ### The functions -/

/-- `memcpy`. -/
def memcpy (dst src : ℕ) : ℕ → Prog sig Unit
  | 0 => .ret ()
  | n + 1 =>
      .act (.load 1 src) fun b =>
        .act (.store 1 dst b) fun _ => memcpy (dst + 1) (src + 1) n

/-- `MSG_Free`. -/
def msgFree (L : Layout) (pMessage : ℕ) : Prog sig ℕ :=
  .act (.load 2 (pMessage + 6)) fun len =>
    if Split len then
      .act (.load 4 (pMessage + HEAD_SIZE)) fun pData => do
        let _ ← memPut L pData
        memPut L pMessage
    else memPut L pMessage

/-- The end of `MSG_Send`: the message is posted. -/
def postMessage (L : Layout) (task : Fin TASK_NUM) (pMessage : ℕ) : Prog sig ℕ :=
  .act (.osQPost task pMessage) fun err =>
    if err = OS_ERR_NONE then
      -- the argument `pMessage->head.message` of `Debug_Printf`
      .act (.load 2 pMessage) fun _ => .ret err
    else do
      let _ ← msgFree L pMessage
      return err

/-- The part of `MSG_Send` behind the four stores of the head. -/
def fillMessage (L : Layout) (task : Fin TASK_NUM) (pMessage pData len : ℕ) : Prog sig ℕ :=
  if Split len then do
    let r ← memGet len
    .act (.store 4 (pMessage + HEAD_SIZE) r.1) fun _ =>
      .act (.load 4 (pMessage + HEAD_SIZE)) fun d =>
        if d = 0 then do
          let _ ← memPut L pMessage
          return r.2
        else
          .act (.load 4 (pMessage + HEAD_SIZE)) fun dst => do
            memcpy dst pData len
            postMessage L task pMessage
  else do
    memcpy (pMessage + HEAD_SIZE) pData len
    postMessage L task pMessage

/-- `MSG_Send`. -/
def msgSend (L : Layout) (c : Send) : Prog sig ℕ := do
  let r ← memGet MEM_SIZE
  if r.1 = 0 then return r.2
  else
    .act (.store 2 r.1 c.message.toNat) fun _ =>
      .act (.store 2 (r.1 + 2) c.para0.toNat) fun _ =>
        .act (.store 2 (r.1 + 4) c.para1.toNat) fun _ =>
          .act (.store 2 (r.1 + 6) c.len.toNat) fun _ =>
            fillMessage L c.task r.1 c.pData c.len.toNat

/-- `MSG_Receive`. -/
def msgReceive (task : Fin TASK_NUM) : Prog sig ℕ :=
  .act (.osQAccept task) fun r =>
    if r.1 = 0 then .ret r.1
    else .act (.load 2 r.1) fun _ => .ret r.1

/-! ### Calls -/

/-- A call of one of the functions. -/
inductive Call where
  | send (c : Send)
  | receive (t : Fin TASK_NUM)
  | free (pMessage : ℕ)
  | get (size : UInt16)
  | put (pblk : ℕ)
deriving DecidableEq

/-- The program of a call.  It returns a pointer and an error code, where the function has
only one of them the other is `0`. -/
def Call.prog (L : Layout) : Call → Prog sig (ℕ × ℕ)
  | send c => do
      let err ← msgSend L c
      return (0, err)
  | receive t => do
      let pMessage ← msgReceive t
      return (pMessage, 0)
  | free pMessage => do
      let err ← msgFree L pMessage
      return (0, err)
  | get size => memGet size.toNat
  | put pblk => do
      let err ← memPut L pblk
      return (0, err)

end Stm32Templet.Sys
