import Mathlib.Data.Int.Notation
import Mathlib.Data.List.Basic

/-! # AT commands

`AT/src/at_cmd.c` with the command set that is built in: the length scan, the search of the
command table, the dispatch to a handler and the handlers of `at_baseCmd.c` and
`at_deviceCmd.c`.

* A command line is read through a pointer; here the line is a function from offsets to
  bytes, and a pointer into it an offset.
* What is printed is appended to `out`.
* `sscanf` leaves its target alone when the conversion fails.  The target is an
  uninitialised local variable, and `undef n` is what the `n`-th such variable holds. -/

namespace Stm32Templet.At

/-- The size of `at_cmdLine`. -/
def at_cmdLenMax : ℕ := 128

/-- What reaches the serial line. -/
inductive Out where
  /-- `Usart_SetData(0, …)`. -/
  | setData (pData : List UInt8)
  /-- `at_printf`. -/
  | printf (s : String)
deriving DecidableEq

/-- What the handlers read and write. -/
structure Env where
  echoFlag : Bool
  DebugLevel : ℕ
  /-- The output so far. -/
  out : List Out
  undef : ℕ → ℤ
  /-- The number of uninitialised variables used so far. -/
  used : ℕ

/-- `at_printf`. -/
def Env.printf (s : String) (e : Env) : Env := { e with out := e.out ++ [.printf s] }

/-- `at_backOk`. -/
def Env.backOk (e : Env) : Env := e.printf "\r\nOK\r\n"

/-- `at_backError`. -/
def Env.backError (e : Env) : Env := e.printf "\r\nERROR\r\n"

/-! ### Characters and strings -/

/-- The value of a character constant. -/
def chr (c : Char) : UInt8 := UInt8.ofNat c.toNat

def isDigit (b : UInt8) : Bool := b ≥ chr '0' && b ≤ chr '9'

/-- The white space of the C locale. -/
def isSpace (b : UInt8) : Bool := b = chr ' ' || (9 ≤ b && b ≤ 13)

/-- The string at an offset of the command line, up to its `'\0'`.  No line is longer than the
buffer and the byte behind it. -/
def cString (line : ℕ → UInt8) (start : ℕ) : List UInt8 :=
  ((List.range (at_cmdLenMax + 1 - start)).map fun i => line (start + i)).takeWhile (· ≠ 0)

/-- The number that a sequence of digits stands for. -/
def decimal (ds : List UInt8) : ℕ := ds.foldl (fun n d => 10 * n + (d - chr '0').toNat) 0

/-- The conversion `%d`: white space, an optional sign and at least one digit. -/
def scanD (s : List UInt8) : Option ℤ :=
  let t := s.dropWhile isSpace
  let neg := t.head? = some (chr '-')
  let u := if neg ∨ t.head? = some (chr '+') then t.tail else t
  let ds := u.takeWhile isDigit
  if ds = [] then none else some (if neg then -(decimal ds : ℤ) else decimal ds)

/-- `sscanf(s, "=%d", &data)`: the value stored, if there is one. -/
def sscanfAssign : List UInt8 → Option ℤ
  | [] => none
  | b :: s => if b = chr '=' then scanD s else none

/-! ### Handlers -/

/-- The names in the command table, indexed by the command's number. -/
def cmdName : ℕ → String
  | 1 => "E"
  | 2 => "+RST"
  | 3 => "+GMR"
  | 4 => "+GSLP"
  | 5 => "+IPR"
  | 6 => "+DEBUG"
  | _ => ""

/-- `at_exeCmdNull`. -/
def exeCmdNull (_ : ℕ) (e : Env) : Env := e.backOk

/-- `at_setupCmdE`; the parameter starts at `p`. -/
def setupCmdE (_ : ℕ) (line : ℕ → UInt8) (p : ℕ) (e : Env) : Env :=
  if line p = chr '0' then { e with echoFlag := false }.backOk
  else if line p = chr '1' then { e with echoFlag := true }.backOk
  else e.backError

/-- `at_exeCmdRst`. -/
def exeCmdRst (_ : ℕ) (e : Env) : Env := e.backOk

/-- `at_exeCmdGmr`. -/
def exeCmdGmr (_ : ℕ) (e : Env) : Env := (e.printf "FIRMWARE:1.1.1.1\r\n").backOk

/-- `at_setupCmdIpr`. -/
def setupCmdIpr (_ : ℕ) (_ : ℕ → UInt8) (_ : ℕ) (e : Env) : Env := e.backOk

/-- `at_setupCmdGslp`; the number it reads with `atoi` is not used. -/
def setupCmdGslp (_ : ℕ) (_ : ℕ → UInt8) (_ : ℕ) (e : Env) : Env := e.backOk

/-- `at_testCmdDebug`. -/
def testCmdDebug (id : ℕ) (e : Env) : Env :=
  (e.printf (cmdName id ++ ":(0-100)\r\n")).backOk

/-- `at_queryCmdDebug`. -/
def queryCmdDebug (id : ℕ) (e : Env) : Env :=
  (e.printf (cmdName id ++ ":" ++ toString e.DebugLevel ++ "\r\n")).backOk

/-- `at_setupCmdDebug`. -/
def setupCmdDebug (_ : ℕ) (line : ℕ → UInt8) (p : ℕ) (e : Env) : Env :=
  let data := (sscanfAssign (cString line p)).getD (e.undef e.used)
  let e := { e with used := e.used + 1 }
  -- the comparison is signed, the assignment narrows to 16 bits
  if data ≤ 100 then { e with DebugLevel := (data % 65536).toNat }.backOk
  else e.backError

/-! ### The command table -/

/-- `at_funcationType`. -/
structure FuncationType where
  at_cmdName : String
  at_cmdLen : ℤ
  at_testCmd : Option (ℕ → Env → Env)
  at_queryCmd : Option (ℕ → Env → Env)
  at_setupCmd : Option (ℕ → (ℕ → UInt8) → ℕ → Env → Env)
  at_exeCmd : Option (ℕ → Env → Env)

/-- `at_cmdNum`. -/
def at_cmdNum : ℕ := 17

/-- `at_fun`; the entries behind the initialised ones are zero. -/
def atFun : ℕ → FuncationType
  | 0 => ⟨cmdName 0, 0, none, none, none, some exeCmdNull⟩
  | 1 => ⟨cmdName 1, 1, none, none, some setupCmdE, none⟩
  | 2 => ⟨cmdName 2, 4, none, none, none, some exeCmdRst⟩
  | 3 => ⟨cmdName 3, 4, none, none, none, some exeCmdGmr⟩
  | 4 => ⟨cmdName 4, 5, none, none, some setupCmdGslp, none⟩
  | 5 => ⟨cmdName 5, 4, none, none, some setupCmdIpr, none⟩
  | 6 => ⟨cmdName 6, 6, some testCmdDebug, some queryCmdDebug, some setupCmdDebug, none⟩
  | i => ⟨cmdName i, 0, none, none, none, none⟩

/-- `memcmp(pCmd, name, len) == 0`. -/
def sameName (line : ℕ → UInt8) (name : String) (len : ℕ) : Bool :=
  (List.range len).map line = (name.toList.map chr).take len

/-- The loop of `at_cmdSearch`, from entry `i` on with `n` entries left. -/
def cmdSearchFrom (cmdLen : ℤ) (line : ℕ → UInt8) : ℕ → ℕ → ℤ
  | 0, _ => -1
  | n + 1, i =>
      if cmdLen = (atFun i).at_cmdLen ∧ sameName line (atFun i).at_cmdName cmdLen.toNat then i
      else cmdSearchFrom cmdLen line n (i + 1)

/-- `at_cmdSearch`. -/
def cmdSearch (cmdLen : ℤ) (line : ℕ → UInt8) : ℤ :=
  if cmdLen = 0 then 0
  else if cmdLen > 0 then cmdSearchFrom cmdLen line (at_cmdNum - 1) 1
  else -1

/-- The conversion of a `uint8_t` to an `int8_t`. -/
def int8 (n : ℕ) : ℤ := ((n : ℤ) + 128) % 256 - 128

/-- A byte that ends the name of a command. -/
def endsName (b : UInt8) : Bool := b = chr '\r' || b = chr '=' || b = chr '?' || isDigit b

/-- The loop of `at_getCmdLen`: `i` rounds left, `n` bytes scanned. -/
def getCmdLenFrom (line : ℕ → UInt8) : ℕ → ℕ → ℤ
  | 0, _ => -1
  | i + 1, n => if endsName (line n) then int8 n else getCmdLenFrom line i (n + 1)

/-- `at_getCmdLen`. -/
def getCmdLen (line : ℕ → UInt8) : ℤ := getCmdLenFrom line 128 0

/-- Call of a handler, or `at_backError` where there is none. -/
def callOr (handler : Option (Env → Env)) (e : Env) : Env :=
  match handler with
  | some f => f e
  | none => e.backError

/-- `at_cmdProcess`. -/
def cmdProcess (line : ℕ → UInt8) (e : Env) : Env :=
  let cmdLen := getCmdLen line
  let cmdId := if cmdLen ≠ -1 then cmdSearch cmdLen line else -1
  if cmdId ≠ -1 then
    let id := cmdId.toNat
    let p := cmdLen.toNat
    if line p = chr '\r' then callOr ((atFun id).at_exeCmd.map (· id)) e
    else if line p = chr '?' ∧ line (p + 1) = chr '\r' then
      callOr ((atFun id).at_queryCmd.map (· id)) e
    else if line p = chr '=' ∧ line (p + 1) = chr '?' ∧ line (p + 2) = chr '\r' then
      callOr ((atFun id).at_testCmd.map (· id)) e
    else if isDigit (line p) ∨ line p = chr '=' then
      callOr ((atFun id).at_setupCmd.map fun f => f id line p) e
    else e.backError
  else e.backError

/-! ### The two halves of `at_cmdProcess` -/

/-- The entry that the line is for; `-1` if there is none. -/
def cmdIdOf (line : ℕ → UInt8) : ℤ :=
  if getCmdLen line ≠ -1 then cmdSearch (getCmdLen line) line else -1

/-- What is done for the entry `id`, the name of the command ending in front of `p`. -/
def dispatch (id : ℕ) (line : ℕ → UInt8) (p : ℕ) (e : Env) : Env :=
  if line p = chr '\r' then callOr ((atFun id).at_exeCmd.map (· id)) e
  else if line p = chr '?' ∧ line (p + 1) = chr '\r' then
    callOr ((atFun id).at_queryCmd.map (· id)) e
  else if line p = chr '=' ∧ line (p + 1) = chr '?' ∧ line (p + 2) = chr '\r' then
    callOr ((atFun id).at_testCmd.map (· id)) e
  else if isDigit (line p) ∨ line p = chr '=' then
    callOr ((atFun id).at_setupCmd.map fun f => f id line p) e
  else e.backError

theorem cmdProcess_eq (line : ℕ → UInt8) (e : Env) :
    cmdProcess line e =
      if cmdIdOf line ≠ -1 then dispatch (cmdIdOf line).toNat line (getCmdLen line).toNat e
      else e.backError := rfl

end Stm32Templet.At
