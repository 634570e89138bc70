import Stm32Templet.Usart.SetData

/-! # Transmit accounting

Calls of `Usart_SetData` that run undisturbed, with interrupts in between.  `accepted` is
the data that the calls reported as accepted: the first `r` bytes of a call that returned
`r`.

The bytes written to `DR` account for exactly this data as long as every call finds room for
all its bytes, or finds no free slot at all (`accounted_iff_fits`).  A call with more bytes than
the free slots, some slot being free, breaks the accounting: it publishes the head on top of
the tail, the interrupt sends the whole ring of `L` bytes, one more than was accepted in
total (`overfull_not_accounted`). -/

namespace Stm32Templet.Usart

open Atomic Circular Runs

/-- A device with the data accepted so far. -/
structure Calls where
  dev : Device
  accepted : List UInt8

inductive CallEvent where
  /-- A whole call of `Usart_SetData`. -/
  | setData (pData : List UInt8)
  | irq (sr sr' dr : BitVec 16)

def Calls.step (s : Calls) : CallEvent → Option Calls
  | .setData pData =>
      let r := (Usart.setData s.dev.buf.len pData).run access s.dev
      some ⟨r.2, s.accepted ++ pData.take r.1⟩
  | .irq sr sr' dr => some { s with dev := irqHandler sr sr' dr s.dev }

/-- The bytes sent are a prefix of the accepted data, and all of it once `TXEIE` is clear. -/
def Calls.Accounted (s : Calls) : Prop :=
  s.dev.dr <+: s.accepted ∧ (s.dev.txeie = false → s.dev.dr = s.accepted)

instance (s : Calls) : Decidable s.Accounted :=
  inferInstanceAs (Decidable (_ ∧ (_ → _)))

/-- The call's data fits in the free slots, or there is no free slot. -/
def Fits (L : ℕ) (s : Calls) : CallEvent → Prop
  | .setData pData => s.dev.unsent + pData.length < L ∨ s.dev.unsent + 1 = L
  | .irq _ _ _ => True

instance (L : ℕ) (s : Calls) : ∀ e, Decidable (Fits L s e)
  | .setData _ => inferInstanceAs (Decidable (_ ∨ _))
  | .irq _ _ _ => isTrue trivial

/-- Between calls the ring holds the accepted bytes not yet sent. -/
def Calls.Holds (L : ℕ) (s : Calls) (unsent : List UInt8) : Prop :=
  TxInv L s.dev ⟨s.dev.buf.pSendBufH, L - 1 - unsent.length, [], s.accepted, s.accepted, .idle⟩
    unsent

variable {L : ℕ} {s s' : Calls} {unsent : List UInt8}

/-- Any view of an idle writer that has published the accepted data will do. -/
theorem TxInv.calls {d : Device} {v : TxView} (h : TxInv L d v unsent) (hi : v.phase = .idle) :
    Calls.Holds L ⟨d, v.pub⟩ unsent := by
  unfold Calls.Holds
  rw [h.head]
  exact h.fresh hi _ List.prefix_rfl

theorem Calls.Holds.accounted (h : s.Holds L unsent) : s.Accounted := by
  refine ⟨h.sent_prefix, fun ht => ?_⟩
  by_cases hu : unsent = []
  · have := h.sent
    rwa [hu, List.append_nil] at this
  · exact absurd rfl (h.off ht hu)

/-! ### One step -/

/-- A call within the free slots publishes all its data. -/
theorem Calls.Holds.fitting (h : s.Holds L unsent) (pData : List UInt8)
    (hfit : unsent.length + pData.length < L) (hs : s.step (.setData pData) = some s') :
    ∃ unsent', s'.Holds L unsent' := by
  have hv := TxInv.fresh h rfl (s.accepted ++ pData) (List.prefix_append _ _)
  have hsafe := safe_setData (L := L) (v := ⟨s.dev.buf.pSendBufH, L - 1 - unsent.length, [],
    s.accepted, s.accepted ++ pData, .idle⟩) pData rfl rfl (by simp only; omega) rfl
  obtain ⟨v', ⟨hr, hi, hp, hg⟩, unsent', h'⟩ := hsafe.run (tx_sound L) ⟨unsent, hv⟩
  have := h'.calls hi
  rw [hp] at this
  simp only [Calls.step, h.len, hr, List.take_length, Option.some.injEq] at hs
  subst hs
  exact ⟨unsent', this⟩

/-- A call that finds no free slot accepts nothing. -/
theorem Calls.Holds.full (h : s.Holds L unsent) (pData : List UInt8)
    (hfull : unsent.length + 1 = L) (hs : s.step (.setData pData) = some s') :
    ∃ unsent', s'.Holds L unsent' := by
  simp only [Calls.step, h.len, Option.some.injEq] at hs
  subst hs
  cases pData with
  | nil =>
      rw [setData_nil, Prog.run_ret, List.take_nil, List.append_nil]
      exact ⟨unsent, h⟩
  | cons b pData =>
      rw [setData_run_full h rfl hfull, List.take_zero, List.append_nil]
      exact ⟨unsent, (h.storeSend b (by simp)).calls rfl⟩

theorem Calls.Holds.irq (h : s.Holds L unsent) (sr sr' dr : BitVec 16) :
    ∃ unsent', Calls.Holds L { s with dev := irqHandler sr sr' dr s.dev } unsent' := by
  obtain ⟨rest, h'⟩ := TxInv.irq h sr sr' dr fun _ hp => by cases hp
  exact ⟨rest, h'.calls rfl⟩

theorem Calls.Holds.step (h : ∃ unsent, s.Holds L unsent) {e : CallEvent} (hf : Fits L s e)
    (hs : s.step e = some s') : ∃ unsent, s'.Holds L unsent := by
  obtain ⟨unsent, h⟩ := h
  cases e with
  | setData pData =>
      rw [Fits, h.unsent_eq] at hf
      rcases hf with hf | hf
      · exact h.fitting pData hf hs
      · exact h.full pData hf hs
  | irq sr sr' dr =>
      cases hs
      exact h.irq sr sr' dr

/-! ### Runs -/

theorem Device.Empty.calls {d : Device} (h : d.Empty L) : Calls.Holds L ⟨d, []⟩ [] :=
  h.txInv.calls rfl

/-- The state after `n` more transmit interrupts. -/
def Calls.drained (n : ℕ) (s : Calls) : Calls := { s with dev := txeIrq^[n] s.dev }

theorem Calls.Holds.drained (h : s.Holds L unsent) : ∀ n, ∃ rest, (s.drained n).Holds L rest
  | 0 => ⟨unsent, h⟩
  | n + 1 => by
      obtain ⟨rest, h'⟩ := Calls.Holds.drained h n
      obtain ⟨rest', h''⟩ := h'.irq 0#16 128#16 0#16
      rw [Calls.drained, Function.iterate_succ_apply']
      exact ⟨rest', h''⟩

/-! ### The overfull call -/

/-- Transmit interrupts from equal pointers on: the tail goes once round the ring, and the
last interrupt clears `TXEIE`. -/
theorem txeIrq_iterate {d : Device} (hlen : d.buf.len = L) (hlt : d.buf.pSendBufE < L)
    (heq : d.buf.pSendBufH = d.buf.pSendBufE) (ht : d.txeie = true) : ∀ n, n ≤ L →
    (txeIrq^[n] d).buf.len = L ∧ (txeIrq^[n] d).buf.pSendBufH = d.buf.pSendBufH ∧
      (txeIrq^[n] d).buf.pSendBufE = (d.buf.pSendBufE + n) % L ∧
      (txeIrq^[n] d).dr.length = d.dr.length + n ∧ ((txeIrq^[n] d).txeie = true ↔ n < L)
  | 0, _ => by
      refine ⟨hlen, rfl, (Nat.mod_eq_of_lt hlt).symm, rfl, ?_⟩
      exact ⟨fun _ => Nat.zero_lt_of_lt hlt, fun _ => ht⟩
  | n + 1, hn => by
      obtain ⟨h₁, h₂, h₃, h₄, h₅⟩ := txeIrq_iterate hlen hlt heq ht n (by omega)
      rw [Function.iterate_succ_apply', txeIrq_eq, if_pos (h₅.mpr hn)]
      generalize txeIrq^[n] d = e at h₁ h₂ h₃ h₄ h₅
      have hnext : next e.buf.len e.buf.pSendBufE = (d.buf.pSendBufE + (n + 1)) % L := by
        rw [h₁, h₃, next_add_mod (by omega)]
      refine ⟨h₁, h₂, hnext, by simp [txe, h₄, Nat.add_assoc], ?_⟩
      have hmeet : next e.buf.len e.buf.pSendBufE = e.buf.pSendBufH ↔ n + 1 = L := by
        rw [hnext, h₂, heq]
        constructor
        · intro he
          rcases add_mod_cases hlt hn with ⟨e', _⟩ | ⟨e', _⟩ <;> omega
        · intro he
          rw [he, Nat.add_mod_right, Nat.mod_eq_of_lt hlt]
      unfold Device.txeie txe
      by_cases hm : n + 1 = L
      · simp only [hmeet.mpr hm, if_true, tst_and_not]
        simp only [Bool.false_eq_true, false_iff]
        omega
      · simp only [mt hmeet.mp hm, if_false]
        exact ⟨fun _ => by omega, fun _ => h₅.mpr hn⟩

/-- After a call outside `Fits` the ring sends one byte more than was ever accepted. -/
theorem overfull_not_accounted (h : s.Holds L unsent) {pData : List UInt8}
    (hf : ¬ Fits L s (.setData pData)) (hs : s.step (.setData pData) = some s') :
    ¬ (s'.drained L).Accounted := by
  have hroom := h.room
  simp only at hroom
  rw [Fits, h.unsent_eq, not_or] at hf
  obtain ⟨hr, d', hd, hlen, heq, hlt, hdr, ht⟩ :=
    setData_run_over (v := ⟨s.dev.buf.pSendBufH, L - 1 - unsent.length, [], s.accepted,
      s.accepted, .idle⟩) h pData (by omega) (by omega)
  simp only [Calls.step, h.len, hr, hd, Option.some.injEq] at hs
  subst hs
  obtain ⟨_, _, _, hcount, hoff⟩ := txeIrq_iterate hlen hlt heq ht L le_rfl
  intro hacc
  have hoff' : (txeIrq^[L] d').txeie = false := by
    rw [Bool.eq_false_iff]
    exact fun h => absurd (hoff.mp h) (lt_irrefl L)
  have hall := congrArg List.length (hacc.2 hoff')
  have hsent := congrArg List.length h.sent
  simp only [Calls.drained, List.length_append, List.length_take] at hall hsent
  rw [hdr] at hcount
  omega

/-! ### The accounting of a run -/

/-- A run accounts for its bytes, in every state and in whatever the transmit interrupt makes
of it, exactly if each of its calls finds room for all its data or no free slot. -/
theorem accounted_iff_fits {d : Device} (h : d.Empty L) (es : List CallEvent) :
    (∀ es₁ s n, es₁ <+: es → exec Calls.step ⟨d, []⟩ es₁ = some s → (s.drained n).Accounted) ↔
      Along Calls.step (Fits L) ⟨d, []⟩ es := by
  have hall : (∀ es₁ s, es₁ <+: es → exec Calls.step ⟨d, []⟩ es₁ = some s →
      ∀ n, (s.drained n).Accounted) ↔ Along Calls.step (Fits L) ⟨d, []⟩ es := by
    refine along_iff (A := fun _ _ => True) (fun _ _ _ hI _ hf hs => Calls.Holds.step hI hf hs)
      (fun t hI n => ?_) (fun t e hI _ hacc => ?_) ⟨[], h.calls⟩ (along_true _ es)
    · obtain ⟨unsent, hI⟩ := hI
      obtain ⟨rest, hI'⟩ := hI.drained n
      exact hI'.accounted
    · obtain ⟨unsent, hI⟩ := hI
      by_contra hf
      cases e with
      | setData pData => exact overfull_not_accounted hI hf rfl (hacc _ rfl L)
      | irq sr sr' dr => exact hf trivial
  rw [← hall]
  exact ⟨fun hacc es₁ s hp hs n => hacc es₁ s n hp hs, fun hacc es₁ s n hp hs => hacc es₁ s hp hs n⟩

/-- Two calls that fit, with an interrupt in between. -/
theorem accounted_two_calls : ∃ s, exec Calls.step ⟨blank 4, []⟩
      [.setData [1, 2], .irq 0 128 0, .setData [3]] = some s ∧ (s.drained 2).Accounted :=
  ⟨_, rfl, (accounted_iff_fits (L := 4) (blank_empty (by decide))
    [.setData [1, 2], .irq 0 128 0, .setData [3]]).mpr (by decide) _ _ 2 List.prefix_rfl rfl⟩

/-- Four bytes for the three free slots of a ring of four: all four are sent, three were
accepted. -/
theorem overfull_call_unaccounted :
    ¬ ∀ (L : ℕ) (d : Device), 2 ≤ L → d.Empty L → ∀ (es : List CallEvent) (s : Calls),
      exec Calls.step ⟨d, []⟩ es = some s → s.Accounted := by
  intro h
  have := h 4 (blank 4) (by decide) (blank_empty (by decide))
    [.setData [1, 2, 3, 4], .irq 0 128 0, .irq 0 128 0, .irq 0 128 0, .irq 0 128 0] _ rfl
  exact absurd this (by decide)

end Stm32Templet.Usart
