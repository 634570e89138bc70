import Stm32Templet.Lib.Runs
import Stm32Templet.At.Cmd

/-! # Receiving AT command lines

`AT/src/at_port.c`: the state machine that looks for the head of a command, records the line
behind it in `at_cmdLine` and hands it to `at_cmdProcess`.  The bytes come in chunks, one
chunk for each call of `at_recvTask`; the state of the machine, the buffer and `pCmdLine` are
static, the variable `temp` is local to a call.

`pCmdLine` is an offset from the start of the buffer.  `stores` and `handed` are histories:
the offsets stored through `pCmdLine` and the lines given to `at_cmdProcess`. -/

namespace Stm32Templet.At

open Runs

/-- `at_stateType`. -/
inductive StateType where
  | at_statIdle
  | at_statRecving
  | at_statProcess
  | at_statIpSending
  | at_statIpSended
  | at_statIpTraning
deriving DecidableEq, Repr

/-- The variables of `at_port.c` and the local `temp` of the current call. -/
structure Port where
  env : Env
  specialAtState : Bool
  at_state : StateType
  at_cmdLine : ℕ → UInt8
  atHead : UInt8 × UInt8
  pCmdLine : ℕ
  temp : UInt8
  stores : List ℕ
  handed : List (ℕ → UInt8)

/-- `Usart_SetData(0, …)`. -/
def Port.setData (pData : List UInt8) (s : Port) : Port :=
  { s with env.out := s.env.out ++ [.setData pData] }

/-- `at_printf`. -/
def Port.printf (t : String) (s : Port) : Port := { s with env := s.env.printf t }

/-- `*pCmdLine = b`. -/
def Port.store (b : UInt8) (s : Port) : Port :=
  { s with
    at_cmdLine := Function.update s.at_cmdLine s.pCmdLine b
    stores := s.stores ++ [s.pCmdLine] }

/-- `at_procTask`; its other branches only concern states that no command enters. -/
def procTask (s : Port) : Port :=
  if s.at_state = .at_statProcess then
    let s := { s with
      env := cmdProcess s.at_cmdLine s.env, handed := s.handed ++ [s.at_cmdLine] }
    if s.specialAtState then { s with at_state := .at_statIdle } else s
  else if s.at_state = .at_statIpSended then
    if s.specialAtState then { s with at_state := .at_statIdle } else s
  else s

/-- The branch `at_statIdle`: the search for the head of a command. -/
def searchHead (s : Port) : Port :=
  let s := { s with atHead := (s.atHead.2, s.temp) }
  if s.atHead = (chr 'A', chr 'T') ∨ s.atHead = (chr 'a', chr 't') then
    { s with at_state := .at_statRecving, pCmdLine := 0, atHead := (s.atHead.1, 0) }
  else if s.temp = chr '\n' then s.printf "\r\nERROR\r\n"
  else s

/-- The branch `at_statRecving`: the byte is stored before the limit is tested. -/
def recordByte (s : Port) : Port :=
  let s := s.store s.temp
  let s :=
    if s.temp = chr '\n' then
      let s := { s with pCmdLine := s.pCmdLine + 1 }
      let s := { s.store 0 with at_state := .at_statProcess }
      let s := if s.env.echoFlag then (s.setData [13, 10]).printf "\r\n" else s
      procTask s
    else if s.pCmdLine ≥ at_cmdLenMax - 1 then { s with at_state := .at_statIdle }
    else s
  { s with pCmdLine := s.pCmdLine + 1 }

/-- The head of an iteration: the byte is read and echoed. -/
def echo (b : UInt8) (s : Port) : Port :=
  if s.at_state ≠ .at_statIpTraning then
    let s := { s with temp := b }
    if s.temp ≠ chr '\n' ∧ s.env.echoFlag then s.setData [b] else s
  else s

/-- One iteration of the loop of `at_recvTask`. -/
def recvByte (b : UInt8) (s : Port) : Port :=
  let s := echo b s
  match s.at_state with
  | .at_statIdle => searchHead s
  | .at_statRecving => recordByte s
  | .at_statProcess =>
      if s.temp = chr '\n' then s.printf "\r\nbusy p...\r\n" else s
  | _ => s

/-- `at_recvTask`, `temp` being what its uninitialised local variable holds. -/
def recvTask (temp : UInt8) (recvBuf : List UInt8) (s : Port) : Port :=
  recvBuf.foldl (fun s b => recvByte b s) { s with temp := temp }

end Stm32Templet.At
