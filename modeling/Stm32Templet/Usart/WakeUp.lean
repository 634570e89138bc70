import Stm32Templet.Usart.Preempted

/-! # Bytes do not get stuck

The transmit interrupt switches itself off when it has taken the last byte, and a call of
`Usart_SetData` switches it on when it finds it off.  Between the store of `pSendBufH` and the
look at `CR1` the ring may have bytes and the interrupt be off; at no other time
(`Line.Woken`), whatever the sizes of the calls are and wherever they are interrupted.  So no
byte waits for a later call (`no_lost_wakeup`). -/

namespace Stm32Templet.Usart

open Atomic Circular Runs

/-- The interrupt is on, or there is nothing to send. -/
def Device.Awake (d : Device) : Prop := d.txeie = true ∨ d.buf.pSendBufH = d.buf.pSendBufE

/-- The view of the writing task: whether it has stored `pSendBufH` and not looked at `CR1`
since.  All accesses are allowed. -/
def wakeSpec : Spec sig Bool where
  pre _ _ := True
  post v
    | .setSendBufH _, _, v' => v' = true
    | .readCr1, cr1, v' => v' = (v && !tst cr1 7)
    | .enableTxe, _, v' => v' = false
    | _, _, v' => v' = v

/-- With nothing left to look at, the line is awake. -/
def WakeInv (d : Device) (v : Bool) : Prop := v = false → d.Awake

theorem wake_sound : Sound wakeSpec access WakeInv := by
  intro d v a h _
  cases a with
  | setSendBufH pH => exact ⟨true, rfl, fun h => absurd h (by decide)⟩
  | readCr1 =>
      refine ⟨_, rfl, fun hv => ?_⟩
      cases v with
      | false => exact h rfl
      | true =>
          -- the bit was found set
          change (true && !tst d.cr1 7) = false at hv
          have hset : tst d.cr1 7 = true := by simpa using hv
          exact Or.inl hset
  | enableTxe => exact ⟨false, rfl, fun _ => Or.inl (tst_or d.cr1)⟩
  | sendPointers => exact ⟨v, rfl, h⟩
  | storeSend pH b => exact ⟨v, rfl, h⟩
  | recPointers => exact ⟨v, rfl, h⟩
  | loadRec pE => exact ⟨v, rfl, h⟩
  | readRecBufH => exact ⟨v, rfl, h⟩
  | readRecBufE => exact ⟨v, rfl, h⟩
  | setRecBufE pE => exact ⟨v, rfl, h⟩

/-! ### The interrupt and the other task -/

theorem Device.Awake.rxne {d : Device} (h : d.Awake) (dr : BitVec 16) : (rxne dr d).Awake := h

theorem Device.Awake.txe {d : Device} (h : d.txeie = true) : (txe d).Awake := by
  unfold Usart.txe Device.Awake Device.txeie
  by_cases hlast : next d.buf.len d.buf.pSendBufE = d.buf.pSendBufH
  · exact Or.inr hlast.symm
  · rw [if_neg hlast]
    exact Or.inl h

theorem Device.Awake.irq {d : Device} (h : d.Awake) (sr sr' dr : BitVec 16) :
    (irqHandler sr sr' dr d).Awake := by
  have htxe : ∀ d' : Device, d'.cr1 = d.cr1 → d'.Awake →
      ((if d.transmits sr' then Usart.txe else id) d').Awake := by
    intro d' hcr h'
    split
    · rename_i ht
      rw [Device.transmits, Bool.and_eq_true, Device.txeie, ← hcr] at ht
      exact Device.Awake.txe ht.2
    · exact h'
  rw [irqHandler_cases]
  by_cases hr : d.receives sr = true
  · rw [if_pos hr]
    exact htxe (Usart.rxne dr d) (rxne_cr1 dr d) (h.rxne dr)
  · rw [if_neg hr]
    exact htxe d rfl h

theorem Device.Awake.reader {d : Device} (h : d.Awake) {a : Act} (ha : a.receive = true) :
    (access a d).2.Awake := by
  cases a with
  | sendPointers => cases ha
  | storeSend pH b => cases ha
  | setSendBufH pH => cases ha
  | readCr1 => cases ha
  | enableTxe => cases ha
  | recPointers => exact h
  | loadRec pE => exact h
  | readRecBufH => exact h
  | readRecBufE => exact h
  | setRecBufE pE => exact h

/-! ### A call -/

/-- A call ends with nothing left to look at, also when it stops at a full ring. -/
theorem setData_wake (len : ℕ) (pData : List UInt8) :
    Safe wakeSpec (fun _ v => v = false) (setData len pData) false := by
  by_cases hd : pData = []
  · subst hd
    rfl
  rw [setData_eq hd]
  refine ⟨trivial, fun p v hv => ?_⟩
  obtain rfl : v = false := hv
  have hloop : Safe wakeSpec (fun _ v => True ∧ v = false) (setLoop len p.2 pData 0 p.1) false :=
    setLoop_safe (I := fun _ => True) (fun _ h => h) (fun _ _ _ => trivial)
      (fun _ _ _ _ hv => hv) pData 0 trivial
  refine hloop.bind fun r v hv => ?_
  obtain ⟨_, hv⟩ := hv
  unfold publish
  split
  · exact hv
  · refine ⟨trivial, fun _ v₁ hv₁ => ⟨trivial, fun cr1 v₂ hv₂ => ?_⟩⟩
    obtain rfl : v₁ = true := hv₁
    obtain rfl : v₂ = (true && !tst cr1 7) := hv₂
    by_cases ht : tst cr1 7 = true
    · simp [ht]
    · simp only [ht, if_false, Bool.false_eq_true]
      exact ⟨trivial, fun _ v hv => hv⟩

/-! ### Runs -/

/-- The line is awake, but for the moment before the writing task looks at `CR1`. -/
def Line.Woken (s : Line) : Prop :=
  ∃ v, WakeInv s.dev v ∧ Safe wakeSpec (fun _ v => v = false) s.writer v

variable {L : ℕ} {s s' : Line}

theorem Line.Woken.step (h : s.Woken) (hside : s.Sided) {e : Event} (hs : s.step e = some s') :
    s'.Woken := by
  obtain ⟨v, hinv, hsafe⟩ := h
  cases e with
  | setData pData =>
      obtain ⟨r, hw, rfl⟩ := step_setData hs
      rw [hw, safe_ret] at hsafe
      exact ⟨false, hsafe ▸ hinv, setData_wake _ pData⟩
  | writer =>
      obtain ⟨a, k, hw, rfl⟩ := step_writer hs
      rw [hw] at hsafe
      obtain ⟨v', _, hinv', hsafe'⟩ := hsafe.step wake_sound hinv
      exact ⟨v', hinv', hsafe'⟩
  | getData size =>
      obtain ⟨r, _, rfl⟩ := step_getData hs
      exact ⟨v, hinv, hsafe⟩
  | reader =>
      obtain ⟨a, k, hr, rfl⟩ := step_reader hs
      have hside' := hside.reader
      rw [hr] at hside'
      exact ⟨v, fun hv => (hinv hv).reader hside'.1, hsafe⟩
  | irq sr sr' dr =>
      cases hs
      exact ⟨v, fun hv => (hinv hv).irq sr sr' dr, hsafe⟩

theorem Line.Start.woken (h : s.Start L) : s.Woken := by
  obtain ⟨r, hr⟩ := h.writer
  exact ⟨false, fun _ => Or.inr h.dev.send, hr ▸ rfl⟩

/-- In every state in which no call of `Usart_SetData` is in progress and the ring is not
empty, the transmit interrupt is on. -/
theorem no_lost_wakeup (h : s.Start L) {es : List Event} (hs : exec Line.step s es = some s')
    {r : ℕ} (hw : s'.writer = .ret r) (hne : s'.dev.buf.pSendBufH ≠ s'.dev.buf.pSendBufE) :
    s'.dev.txeie = true := by
  have hstep : ∀ (t : Line) e t', t.Woken ∧ t.Sided → t.step e = some t' → t'.Woken ∧ t'.Sided :=
    fun t e t' hI ht => ⟨hI.1.step hI.2 ht, hI.2.step ht⟩
  obtain ⟨⟨v, hinv, hsafe⟩, _⟩ := exec_invariant' hstep ⟨h.woken, h.sided⟩ hs
  rw [hw, safe_ret] at hsafe
  exact (hinv hsafe).resolve_right hne

/-- The second of two calls stops at a full ring; the interrupt takes the one byte that was in
it, and switches itself off, before the call stores `pSendBufH`. -/
theorem woken_after_full_ring : ∃ s', exec Line.step (blankLine 3) [.setData [1], .writer, .writer,
      .writer, .writer, .writer, .setData [2, 3], .writer, .writer, .writer, .irq 0 128 0, .writer,
      .writer, .writer] = some s' ∧ s'.dev.txeie = true :=
  ⟨_, rfl, @no_lost_wakeup 3 _ _ (blankLine_start (by decide)) [.setData [1], .writer, .writer,
    .writer, .writer, .writer, .setData [2, 3], .writer, .writer, .writer, .irq 0 128 0, .writer,
    .writer, .writer] rfl 1 rfl (by decide)⟩

end Stm32Templet.Usart
