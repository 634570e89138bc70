import Stm32Templet.Usart.SetData

/-! # Transmitting under preemption

The system of `Line.lean` when no call is given more data than the ring has free slots, the
interrupt running between any two accesses of a call.

The bytes sent are a prefix of the data passed as long as no interrupt takes the last unsent
byte between the store of `pSendBufH` and the test of `CR1` (`preempted_iff_spares`).  Such an
interrupt finds head and tail equal and clears `TXEIE`; the task then finds the bit clear,
sets it over an empty ring, and the next interrupt sends a stale byte
(`drained_before_test`). -/

namespace Stm32Templet.Usart

open Atomic Circular Runs

/-- The data of a call fits in the free slots. -/
def Room (L : ℕ) (s : Line) : Event → Prop
  | .setData pData => s.dev.unsent + pData.length < L
  | _ => True

instance (L : ℕ) (s : Line) : ∀ e, Decidable (Room L s e)
  | .setData _ => inferInstanceAs (Decidable (_ < _))
  | .writer => isTrue trivial
  | .getData _ => isTrue trivial
  | .reader => isTrue trivial
  | .irq _ _ _ => isTrue trivial

/-- Whether the next access of the program is the test of `CR1`. -/
def atTest : Prog sig ℕ → Bool
  | .act .readCr1 _ => true
  | _ => false

/-- An interrupt does not take the last unsent byte while the task is about to test `CR1`. -/
def Spares (s : Line) : Event → Prop
  | .irq _ sr' _ => ¬ (atTest s.writer = true ∧ s.dev.transmits sr' = true ∧ s.dev.unsent = 1)
  | _ => True

instance (s : Line) : ∀ e, Decidable (Spares s e)
  | .setData _ => isTrue trivial
  | .writer => isTrue trivial
  | .getData _ => isTrue trivial
  | .reader => isTrue trivial
  | .irq _ _ _ => inferInstanceAs (Decidable (¬ _))

/-- The bytes sent once the call in progress has run to its end and `n` more transmit
interrupts have come. -/
def Line.settled (n : ℕ) (s : Line) : List UInt8 :=
  (txeIrq^[n] (s.writer.run access s.dev).2).dr

/-- The result of a call: everything passed is published. -/
def Published (passed : List UInt8) (_ : ℕ) (v : TxView) : Prop :=
  v.phase = .idle ∧ v.pub = passed ∧ v.goal = passed

/-- The transmit ring agrees with the call in progress. -/
structure Line.Sending (L : ℕ) (s : Line) (v : TxView) (unsent : List UInt8) : Prop where
  inv : TxInv L s.dev v unsent
  goal : v.goal = s.passed
  safe : Safe (txSpec L) (Published s.passed) s.writer v

variable {L : ℕ} {s s' : Line} {v : TxView} {unsent : List UInt8}

/-! ### One step -/

theorem TxInv.reader {d : Device} (h : TxInv L d v unsent) {a : Act} (ha : a.receive = true) :
    TxInv L (access a d).2 v unsent := by
  cases a with
  | sendPointers => cases ha
  | storeSend pH b => cases ha
  | setSendBufH pH => cases ha
  | readCr1 => cases ha
  | enableTxe => cases ha
  | recPointers => exact h
  | loadRec pE => exact h
  | readRecBufH => exact h
  | readRecBufE => exact h
  | setRecBufE pE => exact { h with }

theorem atTest_of_published {passed : List UInt8} {p : Prog sig ℕ}
    (h : Safe (txSpec L) (Published passed) p v) (hv : v.phase = .published) :
    atTest p = true := by
  cases p with
  | ret r => rw [safe_ret, Published, hv] at h; cases h.1
  | act a k =>
      cases a with
      | readCr1 => rfl
      | sendPointers => exact absurd (hv.symm.trans h.1) (by decide)
      | storeSend pH b => exact absurd (hv.symm.trans h.1.1) (by decide)
      | setSendBufH pH => exact absurd (hv.symm.trans h.1.1) (by decide)
      | enableTxe => exact absurd (hv.symm.trans h.1) (by decide)
      | recPointers => exact h.1.elim
      | loadRec pE => exact h.1.elim
      | readRecBufH => exact h.1.elim
      | readRecBufE => exact h.1.elim
      | setRecBufE pE => exact h.1.elim

theorem Line.Sending.step (h : ∃ v unsent, s.Sending L v unsent) (hside : s.Sided) {e : Event}
    (hroom : Room L s e) (hsp : Spares s e) (hs : s.step e = some s') :
    ∃ v unsent, s'.Sending L v unsent := by
  obtain ⟨v, unsent, hinv, hgoal, hsafe⟩ := h
  cases e with
  | setData pData =>
      obtain ⟨r, hw, rfl⟩ := step_setData hs
      rw [hw, safe_ret] at hsafe
      obtain ⟨hi, hp, _⟩ := hsafe
      rw [Room, hinv.unsent_eq] at hroom
      refine ⟨_, unsent, hinv.fresh hi (s.passed ++ pData) (hp ▸ List.prefix_append _ _),
        rfl, ?_⟩
      simp only [hinv.len]
      refine (safe_setData pData rfl rfl (by simp only; omega) (by simp only [hp])).mono ?_
      rintro r v' ⟨_, h₁, h₂, h₃⟩
      exact ⟨h₁, h₂, h₃⟩
  | writer =>
      obtain ⟨a, k, hw, rfl⟩ := step_writer hs
      rw [hw] at hsafe
      obtain ⟨v', hpost, ⟨unsent', hinv'⟩, hsafe'⟩ := hsafe.step (tx_sound L) ⟨unsent, hinv⟩
      exact ⟨v', unsent', hinv', (txSpec_goal hpost).trans hgoal, hsafe'⟩
  | getData size =>
      obtain ⟨r, _, rfl⟩ := step_getData hs
      exact ⟨v, unsent, hinv, hgoal, hsafe⟩
  | reader =>
      obtain ⟨a, k, hr, rfl⟩ := step_reader hs
      have hside' := hside.reader
      rw [hr] at hside'
      exact ⟨v, unsent, hinv.reader hside'.1, hgoal, hsafe⟩
  | irq sr sr' dr =>
      cases hs
      obtain ⟨rest, hinv'⟩ := hinv.irq sr sr' dr fun ht hv hu =>
        hsp ⟨atTest_of_published hsafe hv, ht, hinv.unsent_eq.trans hu⟩
      exact ⟨v, rest, hinv', hgoal, hsafe⟩

/-! ### The end of a call -/

/-- Interrupts between calls. -/
theorem TxInv.iterate {d : Device} (h : TxInv L d v unsent) (hi : v.phase = .idle) :
    ∀ n, ∃ rest, TxInv L (txeIrq^[n] d) v rest
  | 0 => ⟨unsent, h⟩
  | n + 1 => by
      obtain ⟨rest, h'⟩ := h.iterate hi n
      rw [Function.iterate_succ_apply']
      exact h'.irq 0#16 128#16 0#16 fun _ hp => by rw [hi] at hp; cases hp

theorem Line.Sending.sent (h : s.Sending L v unsent) : s.dev.dr <+: s.passed :=
  h.goal ▸ h.inv.sent_prefix

theorem Line.Sending.settled (h : s.Sending L v unsent) (n : ℕ) : s.settled n <+: s.passed := by
  obtain ⟨v', ⟨hi, _, hg⟩, unsent', hinv'⟩ := h.safe.run (tx_sound L) ⟨unsent, h.inv⟩
  obtain ⟨rest, hinv''⟩ := hinv'.iterate hi n
  exact hg ▸ hinv''.sent_prefix

/-! ### The interrupt between publication and test -/

theorem enable_of_armed {passed : List UInt8} {p : Prog sig ℕ}
    (h : Safe (txSpec L) (Published passed) p v) (hv : v.phase = .armed) :
    ∃ k, p = .act .enableTxe k := by
  cases p with
  | ret r => rw [safe_ret, Published, hv] at h; cases h.1
  | act a k =>
      cases a with
      | enableTxe => exact ⟨k, rfl⟩
      | sendPointers => exact absurd (hv.symm.trans h.1) (by decide)
      | storeSend pH b => exact absurd (hv.symm.trans h.1.1) (by decide)
      | setSendBufH pH => exact absurd (hv.symm.trans h.1.1) (by decide)
      | readCr1 => exact absurd (hv.symm.trans h.1) (by decide)
      | recPointers => exact h.1.elim
      | loadRec pE => exact h.1.elim
      | readRecBufH => exact h.1.elim
      | readRecBufE => exact h.1.elim
      | setRecBufE pE => exact h.1.elim

/-- Taking the last unsent byte clears the enable bit. -/
theorem TxInv.irq_last {d : Device} (h : TxInv L d v unsent) (sr dr : BitVec 16) {sr' : BitVec 16}
    (ht : d.transmits sr' = true) (hu : unsent.length = 1) :
    (irqHandler sr sr' dr d).dr.length = d.dr.length + 1 ∧
      (irqHandler sr sr' dr d).txeie = false := by
  obtain ⟨b, rfl⟩ := List.length_eq_one_iff.mp hu
  have hmeet := h.meets.mpr rfl
  rw [irqHandler_cases, if_pos ht]
  split
  · refine ⟨by simp [Usart.txe, Usart.rxne], ?_⟩
    unfold Device.txeie Usart.txe Usart.rxne
    rw [if_pos hmeet, tst_and_not]
  · refine ⟨by simp [Usart.txe], ?_⟩
    unfold Device.txeie Usart.txe
    rw [id, if_pos hmeet, tst_and_not]

/-- The task that finds `TXEIE` clear after the ring was drained switches the interrupt on
over an empty ring, and the next interrupt sends a byte that nobody passed. -/
theorem drained_before_test (h : s.Sending L v unsent) {sr sr' dr : BitVec 16}
    (hsp : ¬ Spares s (.irq sr sr' dr)) (hs : s.step (.irq sr sr' dr) = some s') :
    ¬ s'.settled 1 <+: s'.passed := by
  obtain ⟨hinv, hgoal, hsafe⟩ := h
  cases hs
  obtain ⟨hat, ht, hu⟩ := not_not.mp hsp
  rw [hinv.unsent_eq] at hu
  obtain ⟨k, hw⟩ : ∃ k, s.writer = .act .readCr1 k := by
    unfold atTest at hat
    split at hat
    · exact ⟨_, ‹_›⟩
    · cases hat
  rw [hw] at hsafe
  have hv : v.phase = .published := hsafe.1
  obtain ⟨hcount, hoff⟩ := hinv.irq_last sr dr ht hu
  have hpassed : s.passed.length = s.dev.dr.length + 1 := by
    rw [← hgoal, ← hinv.goal_eq (by simp [hv]), ← hinv.sent, List.length_append, hu]
  -- the rest of the call: the test fails, the bit is set
  obtain ⟨k', hk⟩ := enable_of_armed (hsafe.2 (irqHandler sr sr' dr s.dev).cr1 _ rfl)
    (by simp only; rw [if_neg]; rw [Device.txeie] at hoff; simp [hoff])
  have hrun : (s.writer.run access (irqHandler sr sr' dr s.dev)).2 =
      ((k' ()).run access (access .enableTxe (irqHandler sr sr' dr s.dev)).2).2 := by
    rw [hw, Prog.run_act]
    change ((k (irqHandler sr sr' dr s.dev).cr1).run access _).2 = _
    rw [hk]
    rfl
  have hon : (s.writer.run access (irqHandler sr sr' dr s.dev)).2.txeie = true := by
    rw [hrun]
    exact run_access_txeie _ (tst_or _)
  intro hp
  have hlen := hp.length_le
  simp only [Line.settled, Function.iterate_one] at hlen
  rw [txeIrq_eq, if_pos hon] at hlen
  simp only [txe, List.length_append, run_access_dr, hcount, hpassed] at hlen
  simp at hlen

/-! ### Runs -/

theorem Line.Start.sending (h : s.Start L) :
    Line.Sending L s ⟨s.dev.buf.pSendBufH, L - 1, [], [], [], .idle⟩ [] := by
  refine ⟨h.dev.txInv, h.passed.symm, ?_⟩
  obtain ⟨r, hr⟩ := h.writer
  rw [hr, safe_ret, h.passed]
  exact ⟨rfl, rfl, rfl⟩

/-- In a run whose calls find room for their data, the bytes sent are at every moment a
prefix of the data passed, and stay so when the call in progress ends and the ring is
drained, exactly if no interrupt drains the ring between publication and test. -/
theorem preempted_iff_spares (h : s.Start L) (es : List Event)
    (hroom : Along Line.step (Room L) s es) :
    (∀ es₁ s', es₁ <+: es → exec Line.step s es₁ = some s' →
        s'.dev.dr <+: s'.passed ∧ ∀ n, s'.settled n <+: s'.passed) ↔
      Along Line.step Spares s es := by
  refine along_iff (I := fun t => (∃ v unsent, t.Sending L v unsent) ∧ t.Sided)
    (fun t e t' hI hroom hsp ht => ?_) (fun t hI => ?_) (fun t e hI hroom hsent => ?_)
    ⟨⟨_, _, h.sending⟩, h.sided⟩ hroom
  · exact ⟨Line.Sending.step hI.1 hI.2 hroom hsp ht, hI.2.step ht⟩
  · obtain ⟨⟨v, unsent, hI⟩, _⟩ := hI
    exact ⟨hI.sent, hI.settled⟩
  · obtain ⟨⟨v, unsent, hI⟩, _⟩ := hI
    by_contra hc
    cases e with
    | irq sr sr' dr => exact drained_before_test hI hc rfl ((hsent _ rfl).2 1)
    | setData pData => exact hc trivial
    | writer => exact hc trivial
    | getData size => exact hc trivial
    | reader => exact hc trivial

/-- A call interrupted before it sets the enable bit. -/
theorem preempted_one_call : ∃ s', exec Line.step (blankLine 4) [.setData [7], .writer, .writer,
      .writer, .writer, .irq 0 128 0, .writer, .irq 0 128 0] = some s' ∧
    s'.dev.dr <+: s'.passed ∧ ∀ n, s'.settled n <+: s'.passed :=
  ⟨_, rfl, (preempted_iff_spares (L := 4) (blankLine_start (by decide)) [.setData [7], .writer,
    .writer, .writer, .writer, .irq 0 128 0, .writer, .irq 0 128 0] (by decide)).mpr (by decide) _ _
    List.prefix_rfl rfl⟩

/-- The second of two calls is interrupted twice before its test: the byte sent after it is
neither of the two passed. -/
theorem stale_byte_sent :
    ¬ ∀ (L : ℕ) (s s' : Line) (es : List Event), 2 ≤ L → s.Start L →
      Along Line.step (Room L) s es → exec Line.step s es = some s' → s'.dev.dr <+: s'.passed := by
  intro h
  have := h 4 (blankLine 4) _ [.setData [1], .writer, .writer, .writer, .writer, .writer,
    .setData [2], .writer, .writer, .writer, .irq 0 128 0, .irq 0 128 0, .writer, .writer,
    .irq 0 128 0] (by decide) (blankLine_start (by decide)) (by decide) rfl
  exact absurd this (by decide)

end Stm32Templet.Usart
