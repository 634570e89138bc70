import Stm32Templet.Usart.Line

/-! # The transmit ring

The writing task against the transmit interrupt.  `TxView` is what the task can rely on
between two of its accesses: the head pointer, which only it moves, a number of free slots,
which the interrupt can only increase, and the bytes it has stored behind the head but not
yet published.  `TxInv` ties the view to the device; it is kept by the accesses of the task
(`tx_sound`) and by the interrupt (`TxInv.irq`), and `safe_setData` checks `Usart_SetData`
against it for a call whose data fits.

`Phase` follows the end of a call: `published` between the store of `pSendBufH` and the test
of `CR1`, `armed` between a test that found `TXEIE` clear and the setting of the bit.  In
these two phases the ring must not be empty while `TXEIE` is clear, or the task would switch
the interrupt on with nothing to send. -/

namespace Stm32Templet.Usart

open Atomic Circular

/-- Where the writing task stands with respect to publishing its bytes. -/
inductive Phase where
  | idle
  | published
  | armed
deriving DecidableEq, Repr

/-- What the writing task relies on. -/
structure TxView where
  head : ℕ
  free : ℕ
  staged : List UInt8
  pub : List UInt8
  goal : List UInt8
  phase : Phase

/-- The accesses of the writing task and what it learns from them. -/
def txSpec (L : ℕ) : Spec sig TxView where
  pre v
    | .sendPointers => v.phase = .idle
    | .storeSend pH _ => v.phase = .idle ∧ pH = (v.head + v.staged.length) % L ∧
        v.staged.length ≤ v.free
    | .setSendBufH pH => v.phase = .idle ∧ pH = (v.head + v.staged.length) % L ∧
        v.staged ≠ [] ∧ v.staged.length ≤ v.free ∧ v.pub ++ v.staged = v.goal
    | .readCr1 => v.phase = .published
    | .enableTxe => v.phase = .armed
    | _ => False
  post v
    | .sendPointers, r, v' => v.head < L ∧ ∃ f, v.free ≤ f ∧ f < L ∧
        r = (v.head, (v.head + (f + 1)) % L) ∧ v' = { v with free := f }
    | .storeSend _ b, _, v' => v' = { v with staged := v.staged ++ [b] }
    | .setSendBufH pH, _, v' => v' = { v with
        head := pH
        free := v.free - v.staged.length
        staged := []
        pub := v.goal
        phase := .published }
    | .readCr1, r, v' => v' = { v with phase := if tst r 7 then .idle else .armed }
    | .enableTxe, _, v' => v' = { v with phase := .idle }
    | _, _, _ => False

theorem txSpec_goal {L : ℕ} {v v' : TxView} {a : Act} {r : a.Res}
    (h : (txSpec L).post v a r v') : v'.goal = v.goal := by
  cases a with
  | sendPointers => obtain ⟨_, _, _, _, _, rfl⟩ := h; rfl
  | storeSend pH b => cases h; rfl
  | setSendBufH pH => cases h; rfl
  | readCr1 => cases h; rfl
  | enableTxe => cases h; rfl
  | recPointers => cases h
  | loadRec pE => cases h
  | readRecBufH => cases h
  | readRecBufE => cases h
  | setRecBufE pE => cases h

/-- The device agrees with the view of the writing task, `unsent` being the bytes in the
ring. -/
structure TxInv (L : ℕ) (d : Device) (v : TxView) (unsent : List UInt8) : Prop where
  len : d.buf.len = L
  head : d.buf.pSendBufH = v.head
  tail_lt : d.buf.pSendBufE < L
  head_eq : v.head = (d.buf.pSendBufE + unsent.length) % L
  held : Holds d.buf.pSendBuf L d.buf.pSendBufE (unsent ++ v.staged)
  room : unsent.length + v.free < L
  staged_le : v.staged.length ≤ v.free + 1
  sent : d.dr ++ unsent = v.pub
  goal : v.pub <+: v.goal
  goal_eq : v.phase ≠ .idle → v.pub = v.goal
  on : d.txeie = true → unsent ≠ []
  off : d.txeie = false → unsent ≠ [] → v.phase ≠ .idle
  pending : d.txeie = false → v.phase ≠ .idle → unsent ≠ []
  armed : v.phase = .armed → d.txeie = false

variable {L : ℕ} {d : Device} {v : TxView} {unsent : List UInt8}

theorem TxInv.pos (h : TxInv L d v unsent) : 0 < L := Nat.zero_lt_of_lt h.tail_lt

theorem TxInv.head_lt (h : TxInv L d v unsent) : v.head < L := by
  rw [h.head_eq]
  exact Nat.mod_lt _ h.pos

theorem TxInv.unsent_eq (h : TxInv L d v unsent) : d.unsent = unsent.length := by
  unfold Device.unsent
  rw [h.len, h.head, h.head_eq]
  exact dist_add_mod h.tail_lt (by have := h.room; omega)

theorem TxInv.sent_prefix (h : TxInv L d v unsent) : d.dr <+: v.goal :=
  (List.prefix_append d.dr unsent).trans (h.sent ▸ h.goal)

theorem TxInv.tail_eq (h : TxInv L d v unsent) {f : ℕ} (hf : unsent.length + (f + 1) = L) :
    d.buf.pSendBufE = (v.head + (f + 1)) % L := by
  rw [h.head_eq, Nat.mod_add_mod, Nat.add_assoc, hf, Nat.add_mod_right,
    Nat.mod_eq_of_lt h.tail_lt]

/-! ### The accesses of the task -/

theorem TxInv.sendPointers (h : TxInv L d v unsent) :
    ∃ f, v.free ≤ f ∧ f < L ∧
      (d.buf.pSendBufH, d.buf.pSendBufE) = (v.head, (v.head + (f + 1)) % L) ∧
      TxInv L d { v with free := f } unsent := by
  have hroom := h.room
  have hs := h.staged_le
  refine ⟨L - unsent.length - 1, by omega, by omega, ?_, ?_⟩
  · rw [h.head, h.tail_eq (f := L - unsent.length - 1) (by omega)]
  · exact { h with room := by simp only; omega, staged_le := by simp only; omega }

theorem TxInv.storeSend (h : TxInv L d v unsent) (b : UInt8) (hf : v.staged.length ≤ v.free) :
    TxInv L (access (.storeSend ((v.head + v.staged.length) % L) b) d).2
      { v with staged := v.staged ++ [b] } unsent := by
  have hroom := h.room
  refine { h with held := ?_, staged_le := by simp; omega }
  have hpush := h.held.push (a := b) (by simp; omega)
  rw [List.length_append, ← Nat.add_assoc, ← Nat.mod_add_mod, ← h.head_eq,
    List.append_assoc] at hpush
  exact hpush

theorem TxInv.setSendBufH (h : TxInv L d v unsent) (hne : v.staged ≠ [])
    (hf : v.staged.length ≤ v.free) (hg : v.pub ++ v.staged = v.goal) :
    TxInv L (access (.setSendBufH ((v.head + v.staged.length) % L)) d).2
      { v with
        head := (v.head + v.staged.length) % L
        free := v.free - v.staged.length
        staged := []
        pub := v.goal
        phase := .published } (unsent ++ v.staged) := by
  have hroom := h.room
  exact {
    len := h.len
    head := rfl
    tail_lt := h.tail_lt
    head_eq := by rw [h.head_eq, Nat.mod_add_mod, List.length_append, Nat.add_assoc]; rfl
    held := by rw [List.append_nil]; exact h.held
    room := by simp only [List.length_append]; omega
    staged_le := by simp
    sent := by rw [← List.append_assoc]; simp only [access]; rw [h.sent, hg]
    goal := List.prefix_rfl
    goal_eq := fun _ => rfl
    on := fun _ => by simp [hne]
    off := fun _ _ => by simp
    pending := fun _ _ => by simp [hne]
    armed := fun hp => by simp at hp }

theorem TxInv.readCr1 (h : TxInv L d v unsent) (hp : v.phase = .published) :
    TxInv L d { v with phase := if tst d.cr1 7 then .idle else .armed } unsent := by
  have hne : v.phase ≠ .idle := by simp [hp]
  by_cases ht : tst d.cr1 7 = true
  · simp only [ht, if_true]
    exact { h with
      goal_eq := fun hn => absurd rfl hn
      off := fun hf => by rw [Device.txeie, ht] at hf; cases hf
      pending := fun _ hn => absurd rfl hn
      armed := fun he => by cases he }
  · simp only [ht, Bool.false_eq_true, if_false]
    exact { h with
      goal_eq := fun _ => h.goal_eq hne
      off := fun _ _ => by simp
      pending := fun hf _ => h.pending hf hne
      armed := fun _ => by simpa [Device.txeie] using ht }

theorem TxInv.enableTxe (h : TxInv L d v unsent) (hp : v.phase = .armed) :
    TxInv L (access .enableTxe d).2 { v with phase := .idle } unsent := by
  have hne : v.phase ≠ .idle := by simp [hp]
  have ht : (access .enableTxe d).2.txeie = true := tst_or d.cr1
  exact { h with
    goal_eq := fun hn => absurd rfl hn
    on := fun _ => h.pending (h.armed hp) hne
    off := fun hf => by rw [ht] at hf; cases hf
    pending := fun _ hn => absurd rfl hn
    armed := fun he => by cases he }

/-- The invariant honours the specification of the writing task. -/
theorem tx_sound (L : ℕ) : Sound (txSpec L) access fun d v => ∃ unsent, TxInv L d v unsent := by
  rintro d v a ⟨unsent, h⟩ hpre
  cases a with
  | sendPointers =>
      obtain ⟨f, h₁, h₂, h₃, h₄⟩ := h.sendPointers
      exact ⟨_, ⟨h.head_lt, f, h₁, h₂, h₃, rfl⟩, unsent, h₄⟩
  | storeSend pH b =>
      obtain ⟨_, rfl, hf⟩ := hpre
      exact ⟨_, rfl, unsent, h.storeSend b hf⟩
  | setSendBufH pH =>
      obtain ⟨_, rfl, hne, hf, hg⟩ := hpre
      exact ⟨_, rfl, _, h.setSendBufH hne hf hg⟩
  | readCr1 => exact ⟨_, rfl, unsent, h.readCr1 hpre⟩
  | enableTxe => exact ⟨_, rfl, unsent, h.enableTxe hpre⟩
  | recPointers => exact hpre.elim
  | loadRec pE => exact hpre.elim
  | readRecBufH => exact hpre.elim
  | readRecBufE => exact hpre.elim
  | setRecBufE pE => exact hpre.elim

/-! ### The interrupt -/

theorem TxInv.next_tail (h : TxInv L d v unsent) :
    next d.buf.len d.buf.pSendBufE = (d.buf.pSendBufE + 1) % L := by
  rw [h.len, next_eq_mod h.tail_lt]

/-- Behind the first unsent byte the tail meets the head exactly when no other is left. -/
theorem TxInv.meets {b : UInt8} {rest : List UInt8} (h : TxInv L d v (b :: rest)) :
    next d.buf.len d.buf.pSendBufE = d.buf.pSendBufH ↔ rest = [] := by
  have hroom := h.room
  rw [List.length_cons] at hroom
  rw [h.next_tail, h.head, h.head_eq, List.length_cons]
  constructor
  · intro e
    have := add_mod_inj (n := L) (s := d.buf.pSendBufE + 1) (i := 0) (j := rest.length)
      (by omega) (by omega) (by rw [Nat.add_zero, e]; congr 1; omega)
    exact List.length_eq_zero_iff.mp this.symm
  · rintro rfl
    rfl

/-- The transmit branch takes the first unsent byte.  It must not take the last one while
the task is about to test `CR1`. -/
theorem TxInv.txe (h : TxInv L d v unsent) (ht : d.txeie = true)
    (hw : v.phase = .published → unsent.length ≠ 1) : ∃ rest, TxInv L (txe d) v rest := by
  obtain ⟨b, rest, rfl⟩ := List.exists_cons_of_ne_nil (h.on ht)
  have hroom := h.room
  simp only [List.length_cons] at hroom hw
  have hnext := h.next_tail
  have hmeet := h.meets
  have harm : v.phase ≠ .armed := fun hp => by rw [h.armed hp] at ht; cases ht
  have hbyte : d.buf.pSendBuf d.buf.pSendBufE = b := by
    have := h.held.head
    rwa [Nat.mod_eq_of_lt h.tail_lt] at this
  have hcr : (Usart.txe d).txeie = true ↔ rest ≠ [] := by
    unfold Usart.txe Device.txeie
    by_cases hr : rest = []
    · simp only [hmeet.mpr hr, if_true, tst_and_not, hr]
      simp
    · simp only [mt hmeet.mp hr, if_false]
      exact ⟨fun _ => hr, fun _ => ht⟩
  refine ⟨rest, { h with
    tail_lt := ?_, head_eq := ?_, held := ?_, room := by omega, sent := ?_, on := hcr.mp,
    off := fun hf hr => ?_, pending := fun _ hp => ?_, armed := fun hp => absurd hp harm }⟩
  · exact next_lt (h.len ▸ h.tail_lt) |>.trans_eq h.len
  · simp only [Usart.txe]
    rw [hnext, Nat.mod_add_mod, h.head_eq, List.length_cons]
    congr 1
    omega
  · simp only [Usart.txe]
    rw [hnext]
    exact h.held.tail
  · simp only [Usart.txe]
    rw [hbyte, List.append_assoc]
    exact h.sent
  · rw [hcr.mpr hr] at hf
    cases hf
  · -- the phase is `published`, where the last byte is not taken
    have : v.phase = .published := by
      cases hv : v.phase with
      | idle => exact absurd hv hp
      | published => rfl
      | armed => exact absurd hv harm
    intro hr
    subst hr
    exact hw this rfl

theorem TxInv.rxne (h : TxInv L d v unsent) (dr : BitVec 16) : TxInv L (rxne dr d) v unsent :=
  { h with }

theorem TxInv.irq (h : TxInv L d v unsent) (sr sr' dr : BitVec 16)
    (hw : d.transmits sr' = true → v.phase = .published → unsent.length ≠ 1) :
    ∃ rest, TxInv L (irqHandler sr sr' dr d) v rest := by
  have h' : TxInv L ((if d.receives sr then Usart.rxne dr else id) d) v unsent := by
    split
    · exact h.rxne dr
    · exact h
  rw [irqHandler_cases]
  by_cases ht : d.transmits sr' = true
  · have hon : d.txeie = true := by
      unfold Device.transmits at ht
      exact (Bool.and_eq_true _ _ ▸ ht).2
    simp only [ht, if_true]
    refine h'.txe ?_ (hw ht)
    split
    · exact hon
    · exact hon
  · simp only [ht, Bool.false_eq_true, if_false]
    exact ⟨unsent, h'⟩

end Stm32Templet.Usart
