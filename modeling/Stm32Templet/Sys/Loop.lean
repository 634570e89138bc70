import Stm32Templet.Sys.Alone
import Stm32Templet.Sys.Ownership

/-! # The loop of task 0

`TaskStart` of `User/src/main.c` with the module `Module/src/usart_loop_module.c`.  In every
iteration `UsartLoop_ModuleProcess0` takes the bytes that have come in, at most as many as
its buffer holds, and sends them to the task's own queue; then the task receives, handles and
frees messages until there are none.  The handler of the module passes the payload of its
messages back to the USART.

The calls run on the machine of `Sys.Machine`, between the events of all other tasks.  Of
these is assumed what the source does: only task 0 receives from queue 0, only this module
sends `MESSAGE_USART_LOOP` there, and nobody else writes to its static buffer. -/

namespace Stm32Templet.Sys

open Memory Os Tasks Atomic Places Runs

def MESSAGE_USART_LOOP : ℕ := 1

def MESSAGE_MSG_TEST : ℕ := 2

/-- The layout of memory with the static buffer of the module. -/
structure LoopLayout extends Layout where
  usartBuf : ℕ
  outside : ∀ i < 64, toLayout.Outside (usartBuf + i)

/-- `sizeof(usartBuf)`. -/
def USART_BUF_SIZE : ℕ := 64

/-- The static variable `usartLen`, which is never assigned. -/
def usartLen : ℕ := 0

/-! ### State -/

/-- Where the loop is. -/
inductive Pc where
  /-- Between two iterations. -/
  | between
  /-- In `Usart_ModuleGetData`, which has stored these bytes. -/
  | polling (chunk : List UInt8)
  /-- In `MSG_Send`, called with these bytes. -/
  | sending (chunk : List UInt8)
  /-- About to call `MSG_Receive`. -/
  | draining
  | receiving
  /-- In `Module_MsgHandle`. -/
  | handling (pMessage : ℕ)
  | handled (pMessage : ℕ)
  | freeing
deriving DecidableEq

structure Loop (Tid : Type) where
  machine : Machine Tid
  pc : Pc
  /-- All bytes that `Usart_ModuleGetData` has returned. -/
  taken : List UInt8
  /-- Those among them whose `MSG_Send` has returned an error. -/
  lost : List UInt8
  /-- All bytes that `UsartLoop_ModuleHandle0` has passed to `Usart_ModuleSetData`. -/
  echoed : List UInt8

/-! ### The functions of the module -/

/-- The call of `MSG_Send` in `UsartLoop_ModuleProcess0`, `i` being the number of bytes. -/
def usartLoopModuleProcess0 (K : LoopLayout) (i : ℕ) : Send where
  task := 0
  message := UInt16.ofNat MESSAGE_USART_LOOP
  para0 := 0
  para1 := 0
  pData := K.usartBuf + usartLen
  len := UInt16.ofNat i

/-- `UsartLoop_ModuleHandle0`: the bytes passed on, and whether the message was its own. -/
def usartLoopModuleHandle0 (m : Mem) (pMessage : ℕ) (echoed : List UInt8) :
    List UInt8 × Bool :=
  if load m 2 pMessage = MESSAGE_USART_LOOP then
    if Split (headLen m pMessage) then
      (echoed ++ bytes m (dataPtr m pMessage) (headLen m pMessage), true)
    else (echoed ++ bytes m (pMessage + HEAD_SIZE) (headLen m pMessage), true)
  else (echoed, false)

/-- The handlers, as far as they touch what the module passes on. -/
def handle (m : Mem) (pMessage : ℕ) : Handle → List UInt8 → List UInt8 × Bool
  | .usartLoopModuleHandle0, echoed => usartLoopModuleHandle0 m pMessage echoed
  | .msgTestModuleHandle0, echoed => (echoed, load m 2 pMessage = MESSAGE_MSG_TEST)

/-- `Module_MsgHandle` passes on the payload of the messages of the module. -/
theorem moduleMsgHandle_handle (m : Mem) (pMessage : ℕ) (echoed : List UInt8) :
    moduleMsgHandle (handle m pMessage) 0 echoed =
      if load m 2 pMessage = MESSAGE_USART_LOOP then echoed ++ (decode m pMessage).payload
      else echoed := by
  have hhandles : moduleHandles 0 = [.usartLoopModuleHandle0, .msgTestModuleHandle0] := by
    decide
  unfold moduleMsgHandle
  rw [hhandles]
  simp only [moduleMsgHandle.go, handle, usartLoopModuleHandle0, decode]
  by_cases hmessage : load m 2 pMessage = MESSAGE_USART_LOOP
  · simp only [if_pos hmessage]
    by_cases hsplit : Split (headLen m pMessage)
    · simp only [if_pos hsplit, if_true]
    · simp only [if_neg hsplit, if_true]
  · simp only [if_neg hmessage, Bool.false_eq_true, ite_self]

/-! ### Events -/

inductive LoopEvent (Tid : Type) where
  /-- `UsartLoop_ModuleProcess0` begins. -/
  | poll
  /-- A byte comes out of the receive ring. -/
  | getByte (b : UInt8)
  /-- `Usart_ModuleGetData` returns and `MSG_Send` is called. -/
  | send
  | receive
  /-- `Module_MsgHandle` returns. -/
  | handle
  | free
  /-- Any event of the machine, of this task or another. -/
  | sys (e : Event Tid)

variable {Tid : Type}

/-- A handler of another module has the message, and may use the pools. -/
def Loop.Other (s : Loop Tid) : Prop :=
  match s.pc with
  | .handling pMessage => load s.machine.shared.kernel.mem 2 pMessage ≠ MESSAGE_USART_LOOP
  | _ => False

instance (s : Loop Tid) : Decidable s.Other := by
  unfold Loop.Other
  split <;> infer_instance

/-- The address is in the static buffer. -/
def LoopLayout.InBuf (K : LoopLayout) (a : ℕ) : Prop :=
  K.usartBuf ≤ a ∧ a < K.usartBuf + USART_BUF_SIZE

instance (K : LoopLayout) (a : ℕ) : Decidable (K.InBuf a) := inferInstanceAs (Decidable (_ ∧ _))

/-- A call of `MSG_Send` that is reserved to the module. -/
def Send.Loops (d : Send) : Prop := d.task = 0 ∧ d.message.toNat = MESSAGE_USART_LOOP

instance (d : Send) : Decidable d.Loops := inferInstanceAs (Decidable (_ ∧ _))

/-- What another task may call. -/
def Call.Foreign : Call → Prop
  | .send d => ¬ d.Loops
  | .receive t => t ≠ 0
  | _ => True

/-- What another handler may call. -/
def Call.Handler : Call → Prop
  | .get _ => True
  | .put _ => True
  | _ => False

instance : (c : Call) → Decidable c.Foreign
  | .send _ => inferInstanceAs (Decidable (¬ _))
  | .receive _ => inferInstanceAs (Decidable (_ ≠ _))
  | .free _ => isTrue trivial
  | .get _ => isTrue trivial
  | .put _ => isTrue trivial

instance : (c : Call) → Decidable c.Handler
  | .send _ => isFalse id
  | .receive _ => isFalse id
  | .free _ => isFalse id
  | .get _ => isTrue trivial
  | .put _ => isTrue trivial

variable [DecidableEq Tid]

/-- The events of the machine that may happen beside the loop of the task `x₀`. -/
def Loop.Allows (K : LoopLayout) (x₀ : Tid) (s : Loop Tid) : Event Tid → Prop
  | .call x c => if x = x₀ then s.Other ∧ c.Handler else c.Foreign
  | .write x a _ => ¬ K.InBuf a ∧ (x = x₀ → s.Other)
  | _ => True

instance (K : LoopLayout) (x₀ : Tid) (s : Loop Tid) (e : Event Tid) :
    Decidable (s.Allows K x₀ e) := by
  cases e <;> unfold Loop.Allows <;> infer_instance

/-- A call of the task has returned `r`. -/
def Loop.returned (s : Loop Tid) (r : ℕ × ℕ) (machine : Machine Tid) : Loop Tid :=
  match s.pc with
  -- the result of `MSG_Send` is not looked at
  | .sending chunk => { s with
      machine := machine
      pc := .draining
      lost := if r.2 = OS_ERR_NONE then s.lost else s.lost ++ chunk }
  | .receiving => { s with
      machine := machine
      pc := if r.1 = 0 then .between else .handling r.1 }
  | .freeing => { s with
      machine := machine
      pc := .draining }
  | _ => { s with machine := machine }

/-- The result that the call of a task is about to return. -/
def Machine.result (s : Machine Tid) (x : Tid) : ℕ × ℕ :=
  match (s.task x).run with
  | some ⟨_, .ret r, _, _⟩ => r
  | _ => (0, 0)

/-- An event of the machine, which leads to `machine`. -/
def Loop.advance (x₀ : Tid) (s : Loop Tid) (machine : Machine Tid) : Event Tid → Loop Tid
  | .ret x =>
      if x = x₀ then s.returned (s.machine.result x₀) machine else { s with machine := machine }
  | _ => { s with machine := machine }

def Loop.step (K : LoopLayout) (x₀ : Tid) (s : Loop Tid) : LoopEvent Tid → Option (Loop Tid)
  | .poll => if s.pc = .between then some { s with pc := .polling [] } else none
  | .getByte b =>
      match s.pc with
      | .polling chunk =>
          if chunk.length < USART_BUF_SIZE - usartLen then
            (s.machine.step K.toLayout
              (.write x₀ (K.usartBuf + usartLen + chunk.length) b)).map fun m =>
                { s with machine := m, pc := .polling (chunk ++ [b]) }
          else none
      | _ => none
  | .send =>
      match s.pc with
      | .polling chunk =>
          (s.machine.step K.toLayout
            (.call x₀ (.send (usartLoopModuleProcess0 K chunk.length)))).map fun m =>
              { s with machine := m, pc := .sending chunk, taken := s.taken ++ chunk }
      | _ => none
  | .receive =>
      if s.pc = .draining then
        (s.machine.step K.toLayout (.call x₀ (.receive 0))).map fun m =>
          { s with machine := m, pc := .receiving }
      else none
  | .handle =>
      match s.pc with
      | .handling pMessage =>
          if (s.machine.task x₀).run.isNone then
            some { s with
              pc := .handled pMessage
              echoed := moduleMsgHandle (Sys.handle s.machine.shared.kernel.mem pMessage) 0
                s.echoed }
          else none
      | _ => none
  | .free =>
      match s.pc with
      | .handled pMessage =>
          (s.machine.step K.toLayout (.call x₀ (.free pMessage))).map fun m =>
            { s with machine := m, pc := .freeing }
      | _ => none
  | .sys e =>
      if s.Allows K x₀ e then
        (s.machine.step K.toLayout e).map fun m => s.advance x₀ m e
      else none

/-- After `SYS_Start`, on any contents of memory. -/
def Loop.start (L : Layout) (mem : Mem) (OSQ_MSG : Fin TASK_NUM → ℕ → ℕ) : Loop Tid :=
  ⟨Machine.start L mem OSQ_MSG, .between, [], [], []⟩

/-! ### What an event does -/

section Inversion

variable {K : LoopLayout} {x₀ : Tid} {s s' : Loop Tid}

theorem loop_poll (h : s.step K x₀ .poll = some s') :
    s.pc = .between ∧ s' = { s with pc := .polling [] } := by
  simp only [Loop.step, Option.ite_none_right_eq_some, Option.some.injEq] at h
  exact ⟨h.1, h.2.symm⟩

theorem loop_getByte {b : UInt8} (h : s.step K x₀ (.getByte b) = some s') :
    ∃ chunk m, s.pc = .polling chunk ∧ chunk.length < USART_BUF_SIZE ∧
      s.machine.step K.toLayout (.write x₀ (K.usartBuf + chunk.length) b) = some m ∧
      s' = { s with machine := m, pc := .polling (chunk ++ [b]) } := by
  simp only [Loop.step] at h
  split at h
  · rename_i chunk hpc
    rw [Option.ite_none_right_eq_some] at h
    obtain ⟨hlen, h⟩ := h
    obtain ⟨m, hm, rfl⟩ := Option.map_eq_some_iff.mp h
    exact ⟨chunk, m, hpc, hlen, hm, rfl⟩
  · cases h

theorem loop_send (h : s.step K x₀ .send = some s') :
    ∃ chunk m, s.pc = .polling chunk ∧
      s.machine.step K.toLayout
        (.call x₀ (.send (usartLoopModuleProcess0 K chunk.length))) = some m ∧
      s' = { s with machine := m, pc := .sending chunk, taken := s.taken ++ chunk } := by
  simp only [Loop.step] at h
  split at h
  · rename_i chunk hpc
    obtain ⟨m, hm, rfl⟩ := Option.map_eq_some_iff.mp h
    exact ⟨chunk, m, hpc, hm, rfl⟩
  · cases h

theorem loop_receive (h : s.step K x₀ .receive = some s') :
    ∃ m, s.pc = .draining ∧ s.machine.step K.toLayout (.call x₀ (.receive 0)) = some m ∧
      s' = { s with machine := m, pc := .receiving } := by
  simp only [Loop.step, Option.ite_none_right_eq_some] at h
  obtain ⟨hpc, h⟩ := h
  obtain ⟨m, hm, rfl⟩ := Option.map_eq_some_iff.mp h
  exact ⟨m, hpc, hm, rfl⟩

theorem loop_handle (h : s.step K x₀ .handle = some s') :
    ∃ pMessage, s.pc = .handling pMessage ∧ (s.machine.task x₀).run = none ∧
      s' = { s with
        pc := .handled pMessage
        echoed := moduleMsgHandle (Sys.handle s.machine.shared.kernel.mem pMessage) 0
          s.echoed } := by
  simp only [Loop.step] at h
  split at h
  · rename_i pMessage hpc
    simp only [Option.ite_none_right_eq_some, Option.some.injEq, Option.isNone_iff_eq_none] at h
    exact ⟨pMessage, hpc, h.1, h.2.symm⟩
  · cases h

theorem loop_free (h : s.step K x₀ .free = some s') :
    ∃ pMessage m, s.pc = .handled pMessage ∧
      s.machine.step K.toLayout (.call x₀ (.free pMessage)) = some m ∧
      s' = { s with machine := m, pc := .freeing } := by
  simp only [Loop.step] at h
  split at h
  · rename_i pMessage hpc
    obtain ⟨m, hm, rfl⟩ := Option.map_eq_some_iff.mp h
    exact ⟨pMessage, m, hpc, hm, rfl⟩
  · cases h

theorem loop_sys {e : Event Tid} (h : s.step K x₀ (.sys e) = some s') :
    ∃ m, s.Allows K x₀ e ∧ s.machine.step K.toLayout e = some m ∧ s' = s.advance x₀ m e := by
  simp only [Loop.step, Option.ite_none_right_eq_some] at h
  obtain ⟨hallow, h⟩ := h
  obtain ⟨m, hm, rfl⟩ := Option.map_eq_some_iff.mp h
  exact ⟨m, hallow, hm, rfl⟩

theorem advance_of_ne {m : Machine Tid} {e : Event Tid} (he : e ≠ .ret x₀) :
    s.advance x₀ m e = { s with machine := m } := by
  cases e with
  | ret x =>
      refine if_neg ?_
      rintro rfl
      exact he rfl
  | _ => rfl

end Inversion

end Stm32Templet.Sys
