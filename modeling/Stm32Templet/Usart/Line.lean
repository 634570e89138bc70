import Stm32Templet.Lib.Runs
import Stm32Templet.Usart.Driver

/-! # A serial line shared by two tasks and the interrupt

The line of `Driver.lean` as a labelled system.  One task writes and one task reads; each
holds the residual program of its call (`ret` when no call is in progress), and an event is
the start of a call, one access of a call, or one run of the interrupt handler.  Every
placement of interrupts between the accesses of the calls is a list of events.

`passed`, `received` and `got` are histories: no program reads them. -/

namespace Stm32Templet.Usart

open Atomic Circular

/-- A serial line with the calls in progress. -/
structure Line where
  dev : Device
  writer : Prog sig ℕ
  reader : Prog sig (ℕ × List UInt8)
  /-- The data of all calls of `Usart_SetData` so far. -/
  passed : List UInt8
  /-- The bytes that the receive interrupt has stored. -/
  received : List UInt8
  /-- The bytes copied out by the finished calls of `Usart_GetData`. -/
  got : List UInt8

inductive Event where
  /-- The writing task calls `Usart_SetData`. -/
  | setData (pData : List UInt8)
  /-- The writing task makes its next access. -/
  | writer
  /-- The reading task calls `Usart_GetData`. -/
  | getData (size : ℕ)
  /-- The reading task makes its next access. -/
  | reader
  | irq (sr sr' dr : BitVec 16)

/-- The bytes that a finished call of `Usart_GetData` has copied out: as many as it returns. -/
def finished : Prog sig (ℕ × List UInt8) → List UInt8
  | .ret r => r.2.take r.1
  | .act _ _ => []

/-- The byte that an interrupt stores in the receive ring. -/
def storedByte (d : Device) (sr dr : BitVec 16) : List UInt8 :=
  if d.receives sr then [UInt8.ofNat (dr &&& 0x01FF#16).toNat] else []

def Line.step (s : Line) : Event → Option Line
  | .setData pData =>
      match s.writer with
      | .ret _ => some { s with
          writer := Usart.setData s.dev.buf.len pData, passed := s.passed ++ pData }
      | .act _ _ => none
  | .writer =>
      match s.writer with
      | .ret _ => none
      | .act a k => some { s with dev := (access a s.dev).2, writer := k (access a s.dev).1 }
  | .getData size =>
      match s.reader with
      | .ret _ => some { s with reader := Usart.getData s.dev.buf.len size }
      | .act _ _ => none
  | .reader =>
      match s.reader with
      | .ret _ => none
      | .act a k => some { s with
          dev := (access a s.dev).2
          reader := k (access a s.dev).1
          got := s.got ++ finished (k (access a s.dev).1) }
  | .irq sr sr' dr => some { s with
      dev := irqHandler sr sr' dr s.dev
      received := s.received ++ storedByte s.dev sr dr }

/-! ### What each event does -/

section Step

variable {s s' : Line}

theorem step_setData {pData : List UInt8} (h : s.step (.setData pData) = some s') :
    ∃ r, s.writer = .ret r ∧
      s' = { s with writer := Usart.setData s.dev.buf.len pData, passed := s.passed ++ pData } := by
  cases hp : s.writer with
  | ret r => exact ⟨r, rfl, by simpa [Line.step, hp, eq_comm] using h⟩
  | act a k => simp [Line.step, hp] at h

theorem step_writer (h : s.step .writer = some s') :
    ∃ a k, s.writer = .act a k ∧
      s' = { s with dev := (access a s.dev).2, writer := k (access a s.dev).1 } := by
  cases hp : s.writer with
  | ret r => simp [Line.step, hp] at h
  | act a k => exact ⟨a, k, rfl, by simpa [Line.step, hp, eq_comm] using h⟩

theorem step_getData {size : ℕ} (h : s.step (.getData size) = some s') :
    ∃ r, s.reader = .ret r ∧ s' = { s with reader := Usart.getData s.dev.buf.len size } := by
  cases hp : s.reader with
  | ret r => exact ⟨r, rfl, by simpa [Line.step, hp, eq_comm] using h⟩
  | act a k => simp [Line.step, hp] at h

theorem step_reader (h : s.step .reader = some s') :
    ∃ a k, s.reader = .act a k ∧
      s' = { s with
        dev := (access a s.dev).2
        reader := k (access a s.dev).1
        got := s.got ++ finished (k (access a s.dev).1) } := by
  cases hp : s.reader with
  | ret r => simp [Line.step, hp] at h
  | act a k => exact ⟨a, k, rfl, by simpa [Line.step, hp, eq_comm] using h⟩

end Step

/-! ### The contents of the rings -/

/-- The bytes between the two send pointers. -/
def Device.unsent (d : Device) : ℕ := dist d.buf.len d.buf.pSendBufE d.buf.pSendBufH

/-- The bytes between the two receive pointers. -/
def Device.unread (d : Device) : List UInt8 :=
  contents d.buf.pReceiveBuf d.buf.len d.buf.pRecBufE
    (dist d.buf.len d.buf.pRecBufE d.buf.pRecBufH)

/-- Both rings empty with their pointers anywhere in buffers of length `L`, `TXEIE` clear. -/
structure Device.Empty (L : ℕ) (d : Device) : Prop where
  len : d.buf.len = L
  send : d.buf.pSendBufH = d.buf.pSendBufE
  send_lt : d.buf.pSendBufE < L
  recv : d.buf.pRecBufH = d.buf.pRecBufE
  recv_lt : d.buf.pRecBufE < L
  txeie : d.txeie = false
  dr : d.dr = []

/-- A line before its first call. -/
structure Line.Start (L : ℕ) (s : Line) : Prop where
  dev : s.dev.Empty L
  writer : ∃ r, s.writer = .ret r
  reader : s.reader = .ret (0, [])
  passed : s.passed = []
  received : s.received = []
  got : s.got = []

theorem bufInit_empty {L : ℕ} (hL : 0 < L) (rec send : ℕ → UInt8) {cr1 : BitVec 16}
    (h : tst cr1 7 = false) : Device.Empty L ⟨bufInit rec send L, cr1, []⟩ :=
  ⟨rfl, rfl, hL, rfl, hL, h, rfl⟩

/-- The empty line with rings of `L` bytes, the receive interrupt enabled. -/
def blank (L : ℕ) : Device := ⟨bufInit (fun _ => 0) (fun _ => 0) L, 32#16, []⟩

theorem blank_empty {L : ℕ} (hL : 0 < L) : (blank L).Empty L :=
  bufInit_empty hL _ _ (by decide)

/-- A line before its first call, with rings of `L` bytes. -/
def blankLine (L : ℕ) : Line := ⟨blank L, .ret 0, .ret (0, []), [], [], []⟩

theorem blankLine_start {L : ℕ} (hL : 0 < L) : (blankLine L).Start L :=
  ⟨blank_empty hL, ⟨_, rfl⟩, rfl, rfl, rfl, rfl⟩

/-! ### Which task makes which accesses -/

/-- The accesses to the receive ring. -/
def Act.receive : Act → Bool
  | .recPointers => true
  | .loadRec _ => true
  | .readRecBufH => true
  | .readRecBufE => true
  | .setRecBufE _ => true
  | _ => false

/-- Programs that use one of the two rings only. -/
def ringOnly (receive : Bool) : Spec sig Unit where
  pre _ a := a.receive = receive
  post _ _ _ _ := True

theorem setData_ringOnly (len : ℕ) (pData : List UInt8) :
    Safe (ringOnly false) (fun _ _ => True) (setData len pData) () := by
  by_cases hd : pData = []
  · subst hd
    trivial
  rw [setData_eq hd]
  have hloop : ∀ p : ℕ × ℕ, Safe (ringOnly false) (fun r v' => True ∧ v' = ())
      (setLoop len p.2 pData 0 p.1) () := fun p =>
    setLoop_safe (I := fun _ => True) (fun _ h => h) (fun _ _ _ => rfl) (fun _ _ _ _ _ => rfl)
      pData 0 trivial
  refine ⟨rfl, fun p _ _ => (hloop p).bind fun r _ _ => ?_⟩
  unfold publish
  split
  · trivial
  · refine ⟨rfl, fun _ _ _ => ⟨rfl, fun cr1 _ _ => ?_⟩⟩
    by_cases ht : tst cr1 7 = true
    · simp only [ht, if_true, safe_ret]
    · simp only [ht, if_false, Bool.false_eq_true]
      exact ⟨rfl, fun _ _ _ => trivial⟩

theorem getData_ringOnly (len size : ℕ) :
    Safe (ringOnly true) (fun _ _ => True) (getData len size) () := by
  have htake : ∀ (adv : ℕ → ℕ) (n pE : ℕ),
      Safe (ringOnly true) (fun _ _ => True) (takeOut adv n pE) () := by
    intro adv n pE
    have hloop : Safe (ringOnly true) (fun r v' => r.1.length = n ∧ True ∧ v' = ())
        (getLoop adv n pE) () :=
      getLoop_safe (I := fun _ _ => True) (fun _ _ h => h) (fun _ _ _ => rfl)
        (fun _ _ _ _ => rfl) trivial
    exact hloop.bind fun _ _ _ => ⟨rfl, fun _ _ _ => trivial⟩
  refine ⟨rfl, fun p _ _ => ?_⟩
  change Safe _ _ (if p.1 > p.2 then _ else _) _
  split
  · exact htake _ _ _
  · split
    · exact ⟨rfl, fun pE _ _ => ⟨rfl, fun pH _ _ => htake _ _ _⟩⟩
    · trivial

/-- Each task uses its own ring only. -/
structure Line.Sided (s : Line) : Prop where
  writer : Safe (ringOnly false) (fun _ _ => True) s.writer ()
  reader : Safe (ringOnly true) (fun _ _ => True) s.reader ()

theorem Line.Start.sided {L : ℕ} {s : Line} (h : s.Start L) : s.Sided := by
  obtain ⟨r, hr⟩ := h.writer
  exact ⟨hr ▸ trivial, h.reader ▸ trivial⟩

theorem Line.Sided.step {s s' : Line} {e : Event} (h : s.Sided) (hs : s.step e = some s') :
    s'.Sided := by
  obtain ⟨hw, hr⟩ := h
  cases e with
  | setData pData =>
      obtain ⟨_, _, rfl⟩ := step_setData hs
      exact ⟨setData_ringOnly _ pData, hr⟩
  | writer =>
      obtain ⟨a, k, hp, rfl⟩ := step_writer hs
      rw [hp] at hw
      exact ⟨hw.2 _ () trivial, hr⟩
  | getData size =>
      obtain ⟨_, _, rfl⟩ := step_getData hs
      exact ⟨hw, getData_ringOnly _ size⟩
  | reader =>
      obtain ⟨a, k, hp, rfl⟩ := step_reader hs
      rw [hp] at hr
      exact ⟨hw, hr.2 _ () trivial⟩
  | irq sr sr' dr =>
      cases hs
      exact ⟨hw, hr⟩

end Stm32Templet.Usart
