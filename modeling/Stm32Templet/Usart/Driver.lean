import Stm32Templet.Lib.Atomic
import Stm32Templet.Lib.Circular
import Mathlib.Data.BitVec

/-! # The serial driver

`SYSTEM/src/usart.c` for one serial line: the two ring buffers of `sutUSART`, the two
functions the tasks call and the interrupt handler they share the rings with.

* A pointer into one of the two buffers is its offset from the start of the buffer, so the
  comparisons and differences of the source are those of the offsets.
* `usartSetData`, `usartGetData` and the two functions around them are programs over the
  atomic accesses `Act`: the interrupt handler may run between any two of them.  Only the
  reads of both pointers of a ring inside the critical section are one access.
* `irqHandler` runs to completion, as interrupts do with respect to tasks.
* The caller's array is the list of its first `size` bytes; what `usartGetData` stores
  through `pData` is returned as a list next to the return value.
* `dr` records every byte written to the data register. -/

namespace Stm32Templet.Usart

open Atomic Circular

/-! ### Data -/

/-- `sutUSART`, the pointers as offsets into their buffer. -/
structure SutUsart where
  pRecBufH : ℕ
  pRecBufE : ℕ
  pSendBufH : ℕ
  pSendBufE : ℕ
  pReceiveBuf : ℕ → UInt8
  pSendBuf : ℕ → UInt8
  len : ℕ

/-- One line: its `g_Usarts` entry, its control register and the bytes written to `DR`. -/
structure Device where
  buf : SutUsart
  cr1 : BitVec 16
  dr : List UInt8

/-- `reg & (1 << n)` as a condition. -/
def tst (reg : BitVec 16) (n : ℕ) : Bool := reg &&& (1#16 <<< n) != 0#16

/-- The conversion to a `u16`. -/
def u16 (x : ℤ) : ℕ := (x % 65536).toNat

theorem u16_of_lt {n : ℕ} (h : n < 65536) : u16 n = n := by
  unfold u16
  omega

theorem tst_or (reg : BitVec 16) : tst (reg ||| 1#16 <<< 7) 7 = true := by
  have h : (reg ||| 1#16 <<< 7) &&& 1#16 <<< 7 = 1#16 <<< 7 := by
    ext i
    simp only [BitVec.getElem_and, BitVec.getElem_or]
    cases reg[i] <;> simp
  rw [tst, h]
  decide

theorem tst_and_not (reg : BitVec 16) : tst (reg &&& ~~~(1#16 <<< 7)) 7 = false := by
  have h : reg &&& ~~~(1#16 <<< 7) &&& 1#16 <<< 7 = 0#16 := by
    rw [BitVec.and_assoc, BitVec.and_comm (~~~(1#16 <<< 7))]
    simp
  rw [tst, h]
  decide

/-- `CR1` bit 7, the enable bit of the transmit-empty interrupt. -/
def Device.txeie (d : Device) : Bool := tst d.cr1 7

/-- `Usart_BufInit`; `Usart_Init` makes the same assignments before it sets up the hardware. -/
def bufInit (pReceiveBuf pSendBuf : ℕ → UInt8) (len : ℕ) : SutUsart where
  pReceiveBuf := pReceiveBuf
  pSendBuf := pSendBuf
  len := len
  pRecBufH := 0
  pRecBufE := 0
  pSendBufH := 0
  pSendBufE := 0

/-! ### Atomic accesses of the tasks -/

/-- The accesses that the two functions make to a line. -/
inductive Act where
  /-- Both send pointers, inside the critical section. -/
  | sendPointers
  | storeSend (pH : ℕ) (b : UInt8)
  | setSendBufH (pH : ℕ)
  | readCr1
  /-- `CR1 |= 1<<7`. -/
  | enableTxe
  /-- Both receive pointers, inside the critical section. -/
  | recPointers
  | loadRec (pE : ℕ)
  | readRecBufH
  | readRecBufE
  | setRecBufE (pE : ℕ)

/-- Results of the accesses. -/
abbrev Act.Res : Act → Type
  | sendPointers => ℕ × ℕ
  | storeSend _ _ => Unit
  | setSendBufH _ => Unit
  | readCr1 => BitVec 16
  | enableTxe => Unit
  | recPointers => ℕ × ℕ
  | loadRec _ => UInt8
  | readRecBufH => ℕ
  | readRecBufE => ℕ
  | setRecBufE _ => Unit

/-- The signature of the driver's programs. -/
abbrev sig : Sig := ⟨Act, Act.Res⟩

/-- The program that makes one access. -/
def atom (a : Act) : Prog sig a.Res := .act a .ret

@[simp] theorem atom_bind {α : Type} (a : Act) (f : a.Res → Prog sig α) :
    (atom a >>= f) = .act a f := rfl

/-- Effect of one access. -/
def access : (a : Act) → Device → a.Res × Device
  | .sendPointers, d => ((d.buf.pSendBufH, d.buf.pSendBufE), d)
  | .storeSend pH b, d =>
      ((), { d with buf := { d.buf with pSendBuf := Function.update d.buf.pSendBuf pH b } })
  | .setSendBufH pH, d => ((), { d with buf := { d.buf with pSendBufH := pH } })
  | .readCr1, d => (d.cr1, d)
  | .enableTxe, d => ((), { d with cr1 := d.cr1 ||| 1#16 <<< 7 })
  | .recPointers, d => ((d.buf.pRecBufH, d.buf.pRecBufE), d)
  | .loadRec pE, d => (d.buf.pReceiveBuf pE, d)
  | .readRecBufH, d => (d.buf.pRecBufH, d)
  | .readRecBufE, d => (d.buf.pRecBufE, d)
  | .setRecBufE pE, d => ((), { d with buf := { d.buf with pRecBufE := pE } })

theorem access_dr (a : Act) (d : Device) : (access a d).2.dr = d.dr := by
  cases a <;> rfl

theorem access_txeie (a : Act) {d : Device} (h : d.txeie = true) :
    (access a d).2.txeie = true := by
  cases a <;> first | exact h | exact tst_or d.cr1

theorem run_access_dr {α : Type} (p : Prog sig α) (d : Device) :
    (p.run access d).2.dr = d.dr := by
  induction p generalizing d with
  | ret r => rfl
  | act a k ih => rw [Prog.run_act, ih, access_dr]

theorem run_access_txeie {α : Type} (p : Prog sig α) {d : Device} (h : d.txeie = true) :
    (p.run access d).2.txeie = true := by
  induction p generalizing d with
  | ret r => exact h
  | act a k ih => exact ih _ (access_txeie a h)

/-! ### The functions of the tasks -/

/-- The copy loop of `usart_SetData`: iteration `i` stores `pData[i]` at `pH`, advances `pH`
and leaves the loop when it meets `pE`.  Returns `i` and `pH`. -/
def setLoop (len pE : ℕ) : List UInt8 → ℕ → ℕ → Prog sig (ℕ × ℕ)
  | [], i, pH => .ret (i, pH)
  | b :: pData, i, pH =>
      .act (.storeSend pH b) fun _ =>
        -- the last byte stored before the `break` is not counted in `i`
        if next len pH = pE then .ret (i, next len pH)
        else setLoop len pE pData (i + 1) (next len pH)

/-- `usart_SetData`: the number of bytes it reports. -/
def usartSetData (len : ℕ) (pData : List UInt8) : Prog sig ℕ :=
  if pData = [] then .ret 0
  else do
    let p : ℕ × ℕ ← atom .sendPointers
    let r ← setLoop len p.2 pData 0 p.1
    if r.1 = 0 then return 0
    else do
      let _ ← atom (.setSendBufH r.2)
      return r.1

/-- `Usart_SetData`, without `USART_SUPPORT_MUX_TASK`. -/
def setData (len : ℕ) (pData : List UInt8) : Prog sig ℕ := do
  let r ← usartSetData len pData
  if r = 0 then return r
  else do
    let cr1 : BitVec 16 ← atom .readCr1
    if tst cr1 7 then return r
    else do
      let _ ← atom .enableTxe
      return r

/-- The copy loops of `usart_GetData`: `i` bytes from `pE` on, `adv` being the increment of
`pE`, which only one of the two loops wraps.  Returns the bytes and `pE`. -/
def getLoop (adv : ℕ → ℕ) : ℕ → ℕ → Prog sig (List UInt8 × ℕ)
  | 0, pE => .ret ([], pE)
  | i + 1, pE =>
      .act (.loadRec pE) fun b => do
        let r ← getLoop adv i (adv pE)
        return (b :: r.1, r.2)

/-- The limit to the caller's size; a size of `0` is no limit. -/
def clip (len size : ℕ) : ℕ := if len > size ∧ size ≠ 0 then size else len

theorem clip_le (len size : ℕ) : clip len size ≤ len := by
  unfold clip
  split <;> omega

theorem clip_le_size {len size : ℕ} (h : size ≠ 0) : clip len size ≤ size := by
  unfold clip
  split
  · exact le_rfl
  · omega

theorem clip_of_le {len size : ℕ} (h : len ≤ size) : clip len size = len := by
  unfold clip
  split <;> omega

/-- The common end of both branches of `usart_GetData`. -/
def takeOut (adv : ℕ → ℕ) (len pE : ℕ) : Prog sig (ℕ × List UInt8) := do
  let r ← getLoop adv len pE
  let _ ← atom (.setRecBufE r.2)
  return (len, r.1)

/-- `usart_GetData`: the return value and the bytes stored through `pData`. -/
def usartGetData (len size : ℕ) : Prog sig (ℕ × List UInt8) := do
  let p : ℕ × ℕ ← atom .recPointers
  if p.1 > p.2 then takeOut (· + 1) (clip (u16 (p.1 - p.2)) size) p.2
  else if p.1 < p.2 then do
    -- the pointers are read again, outside the critical section
    let pE : ℕ ← atom .readRecBufE
    let pH : ℕ ← atom .readRecBufH
    takeOut (next len) (clip (u16 (len - ((pE : ℤ) - pH))) size) p.2
  else return (0, [])

/-- `Usart_GetData`, without `USART_SUPPORT_MUX_TASK`. -/
def getData (len size : ℕ) : Prog sig (ℕ × List UInt8) := usartGetData len size

/-! ### The shape of a call of `Usart_SetData` -/

/-- The accesses behind the copy loop, `r` being what the loop returns. -/
def publish (r : ℕ × ℕ) : Prog sig ℕ :=
  if r.1 = 0 then .ret 0
  else
    .act (.setSendBufH r.2) fun _ =>
      .act .readCr1 fun cr1 =>
        if tst cr1 7 then .ret r.1 else .act .enableTxe fun _ => .ret r.1

theorem setData_nil (len : ℕ) : setData len [] = .ret 0 := rfl

theorem setData_eq {pData : List UInt8} (hd : pData ≠ []) (len : ℕ) :
    setData len pData =
      .act .sendPointers fun p => setLoop len p.2 pData 0 p.1 >>= publish := by
  unfold setData usartSetData
  rw [if_neg hd, atom_bind, Prog.act_bind]
  refine congrArg _ (funext fun p => ?_)
  rw [Prog.bind_assoc]
  refine congrArg _ (funext fun r => ?_)
  by_cases hr : r.1 = 0
  · simp [publish, hr]
  · rw [if_neg hr, publish, if_neg hr]
    change Prog.act _ (fun _ => if r.1 = 0 then Prog.ret r.1 else _) = _
    rw [if_neg hr]
    rfl

/-! ### The copy loops in a specification that they do not change the view of -/

section CopyLoops

variable {V : Type} {P : Spec sig V} {v : V}

/-- The copy loop of `usart_SetData`, `I` being what is known of its pointer. -/
theorem setLoop_safe {len pE : ℕ} {I : ℕ → Prop} (hnext : ∀ pH, I pH → I (next len pH))
    (hpre : ∀ pH b, I pH → P.pre v (.storeSend pH b))
    (hpost : ∀ pH b r v', P.post v (.storeSend pH b) r v' → v' = v)
    (pData : List UInt8) (i : ℕ) {pH : ℕ} (h : I pH) :
    Safe P (fun r v' => I r.2 ∧ v' = v) (setLoop len pE pData i pH) v := by
  induction pData generalizing i pH with
  | nil => exact ⟨h, rfl⟩
  | cons b pData ih =>
      refine ⟨hpre pH b h, fun r v' hv => ?_⟩
      obtain rfl := hpost pH b r v' hv
      split
      · exact ⟨hnext pH h, rfl⟩
      · exact ih (i + 1) (hnext pH h)

/-- The copy loops of `usart_GetData`, `I i pE` being what is known of the pointer when `i`
bytes are still to be copied. -/
theorem getLoop_safe {adv : ℕ → ℕ} {I : ℕ → ℕ → Prop}
    (hadv : ∀ i pE, I (i + 1) pE → I i (adv pE))
    (hpre : ∀ i pE, I (i + 1) pE → P.pre v (.loadRec pE))
    (hpost : ∀ pE r v', P.post v (.loadRec pE) r v' → v' = v) {i pE : ℕ} (h : I i pE) :
    Safe P (fun r v' => r.1.length = i ∧ I 0 r.2 ∧ v' = v) (getLoop adv i pE) v := by
  induction i generalizing pE with
  | zero => exact ⟨rfl, h, rfl⟩
  | succ i ih =>
      refine ⟨hpre i pE h, fun b v' hv => ?_⟩
      obtain rfl := hpost pE b v' hv
      apply (ih (hadv i pE h)).bind
      intro r v' hr
      exact ⟨congrArg Nat.succ hr.1, hr.2⟩

end CopyLoops

/-! ### The interrupt handler -/

/-- The receive branch of `_USART_IRQHandler`: `DR & 0x01FF` is stored in a byte. -/
def rxne (dr : BitVec 16) (d : Device) : Device :=
  { d with buf := { d.buf with
      pReceiveBuf := Function.update d.buf.pReceiveBuf d.buf.pRecBufH
        (UInt8.ofNat (dr &&& 0x01FF#16).toNat)
      pRecBufH := next d.buf.len d.buf.pRecBufH } }

/-- The transmit branch of `_USART_IRQHandler`. -/
def txe (d : Device) : Device :=
  { d with
    dr := d.dr ++ [d.buf.pSendBuf d.buf.pSendBufE]
    buf := { d.buf with pSendBufE := next d.buf.len d.buf.pSendBufE }
    cr1 := if next d.buf.len d.buf.pSendBufE = d.buf.pSendBufH
      then d.cr1 &&& ~~~(1#16 <<< 7) else d.cr1 }

/-- Whether the handler takes its receive branch. -/
def Device.receives (d : Device) (sr : BitVec 16) : Bool := tst sr 5 && tst d.cr1 5

/-- Whether the handler takes its transmit branch. -/
def Device.transmits (d : Device) (sr : BitVec 16) : Bool := tst sr 7 && d.txeie

/-- `_USART_IRQHandler`; `sr` and `sr'` are what its two reads of `SR` return, `dr` what the
data register holds. -/
def irqHandler (sr sr' dr : BitVec 16) (d : Device) : Device :=
  let d := if d.receives sr then rxne dr d else d
  if d.transmits sr' then txe d else d

/-- A transmit-empty interrupt: `SR` has bit 7 alone. -/
def txeIrq (d : Device) : Device := irqHandler 0#16 128#16 0#16 d

/-! ### What the interrupt leaves alone -/

theorem rxne_cr1 (dr : BitVec 16) (d : Device) : (rxne dr d).cr1 = d.cr1 := rfl

theorem rxne_transmits (dr sr : BitVec 16) (d : Device) :
    (rxne dr d).transmits sr = d.transmits sr := rfl

/-- The handler's effect, branch by branch. -/
theorem irqHandler_cases (sr sr' dr : BitVec 16) (d : Device) :
    irqHandler sr sr' dr d =
      (if d.transmits sr' then txe else id) ((if d.receives sr then rxne dr else id) d) := by
  unfold irqHandler
  by_cases h : d.receives sr = true
  · simp only [h, if_true, rxne_transmits]
    split <;> rfl
  · simp only [Bool.not_eq_true] at h
    simp only [h, Bool.false_eq_true, if_false, id]
    split <;> rfl

theorem txeIrq_eq (d : Device) : txeIrq d = if d.txeie then txe d else d := by
  have h5 : tst 0#16 5 = false := by decide
  have h7 : tst 128#16 7 = true := by decide
  simp [txeIrq, irqHandler, Device.receives, Device.transmits, h5, h7]

end Stm32Templet.Usart
