import Stm32Templet.Usart.Line
import Stm32Templet.Usart.Rings

/-! # Overruns of the receive ring

`_USART_IRQHandler` moves the head of the receive ring without a look at the tail, where
`usart_SetData` stops when its head meets the tail of the send ring.  The bytes unread and the
bytes received since are one stream that is written on and on into the ring; a call of
`Usart_GetData` returns what stands between the tail and the head, and this is the end of the
stream behind its last full revolution (`getData_after`).  Nothing is lost without need only if
the stream is short or stops one byte before a full revolution (`survives_iff`). -/

namespace Stm32Templet.Usart

open Atomic Circular

/-! ### Runs of the interrupt -/

/-- What one run of the handler reads from the hardware: `SR` twice and `DR`. -/
structure Irq where
  sr : BitVec 16
  sr' : BitVec 16
  dr : BitVec 16

/-- The line after runs of the handler with nothing in between. -/
def interrupted (d : Device) (irqs : List Irq) : Device :=
  irqs.foldl (fun d q => irqHandler q.sr q.sr' q.dr d) d

/-- The bytes that they receive. -/
def arrivals : Device → List Irq → List UInt8
  | _, [] => []
  | d, q :: irqs => storedByte d q.sr q.dr ++ arrivals (irqHandler q.sr q.sr' q.dr d) irqs

/-- The stream that was written into the receive ring from the tail on. -/
structure Device.Filled (L E : ℕ) (d : Device) (stream : List UInt8) : Prop where
  bounded : d.Bounded L
  tail : d.buf.pRecBufE = E
  head : d.buf.pRecBufH = (E + stream.length) % L
  recent : Recent d.buf.pReceiveBuf L E stream

variable {L E : ℕ} {d : Device} {stream : List UInt8}

theorem Device.Filled.start (h : d.Bounded L) : d.Filled L d.buf.pRecBufE d.unread := by
  have hlen : d.unread.length = dist L d.buf.pRecBufE d.buf.pRecBufH := by
    simp [Device.unread, contents, h.len]
  refine ⟨h, rfl, ?_, Holds.recent ?_⟩
  · rw [hlen]
    exact (add_dist_mod h.recBufE h.recBufH).symm
  · refine holds_iff_contents.mpr ?_
    rw [hlen, Device.unread, h.len]

theorem Device.Filled.rxne (h : d.Filled L E stream) (dr : BitVec 16) :
    (rxne dr d).Filled L E (stream ++ [UInt8.ofNat (dr &&& 0x01FF#16).toNat]) := by
  have hL : 0 < L := Nat.zero_lt_of_lt h.bounded.recBufH
  refine ⟨{ h.bounded with recBufH := h.bounded.next h.bounded.recBufH }, h.tail, ?_, ?_⟩
  · simp only [Usart.rxne]
    rw [h.bounded.len, h.head, next_add_mod hL, List.length_append, List.length_singleton]
  · simp only [Usart.rxne]
    rw [h.head]
    exact h.recent.push

theorem Device.Filled.irq (h : d.Filled L E stream) (q : Irq) :
    (irqHandler q.sr q.sr' q.dr d).Filled L E (stream ++ storedByte d q.sr q.dr) := by
  have hrec : ((if d.receives q.sr then Usart.rxne q.dr else id) d).Filled L E
      (stream ++ storedByte d q.sr q.dr) := by
    unfold storedByte
    by_cases hr : d.receives q.sr = true
    · rw [if_pos hr, if_pos hr]
      exact h.rxne q.dr
    · rw [if_neg hr, if_neg hr, List.append_nil]
      exact h
  have hbounded := h.bounded.irq q.sr q.sr' q.dr
  rw [irqHandler_cases] at hbounded ⊢
  by_cases ht : d.transmits q.sr' = true
  · rw [if_pos ht] at hbounded ⊢
    exact ⟨hbounded, hrec.tail, hrec.head, hrec.recent⟩
  · rw [if_neg ht]
    exact hrec

theorem Device.Filled.interrupted (h : d.Filled L E stream) (irqs : List Irq) :
    (interrupted d irqs).Filled L E (stream ++ arrivals d irqs) := by
  induction irqs generalizing d stream with
  | nil => simpa [arrivals, Usart.interrupted] using h
  | cons q irqs ih =>
      have := ih (h.irq q)
      rw [List.append_assoc] at this
      exact this

/-- What the ring shows of the stream. -/
theorem Device.Filled.unread (h : d.Filled L E stream) :
    d.unread = stream.drop (L * (stream.length / L)) := by
  have hE : E < L := h.tail ▸ h.bounded.recBufE
  have hL : 0 < L := by omega
  have hdist : dist L E ((E + stream.length) % L) = stream.length % L := by
    rw [← Nat.add_mod_mod]
    exact dist_add_mod hE (Nat.mod_lt _ hL)
  rw [Device.unread, h.bounded.len, h.tail, h.head, hdist]
  exact h.recent.contents hL

/-! ### A call without interference -/

theorem run_getLoop {adv : ℕ → ℕ} (d : Device) (n s : ℕ)
    (hadv : ∀ i < n, adv ((s + i) % L) = (s + i + 1) % L) :
    (getLoop adv n (s % L)).run access d =
      ((contents d.buf.pReceiveBuf L s n, (s + n) % L), d) := by
  induction n generalizing s with
  | zero => rfl
  | succ n ih =>
      have hfirst : adv (s % L) = (s + 1) % L := hadv 0 (by omega)
      have hrest := ih (s + 1) fun i hi => by
        have := hadv (i + 1) (by omega)
        rwa [← Nat.add_assoc, Nat.add_right_comm] at this
      rw [getLoop, Prog.run_act, Prog.run_bind, hfirst]
      simp only [access]
      rw [hrest, contents_succ, Nat.add_right_comm, Nat.add_assoc]
      rfl

theorem run_takeOut {adv : ℕ → ℕ} (d : Device) {n s : ℕ} (hs : s < L)
    (hadv : ∀ i < n, adv ((s + i) % L) = (s + i + 1) % L) :
    ((takeOut adv n s).run access d).1 = (n, contents d.buf.pReceiveBuf L s n) := by
  have hloop := run_getLoop d n s hadv
  rw [Nat.mod_eq_of_lt hs] at hloop
  unfold takeOut
  rw [Prog.run_bind, hloop]
  rfl

/-- Alone, both reads of the pointers return the same. -/
theorem run_getData_eq (L size : ℕ) (d : Device) :
    (getData L size).run access d =
      if d.buf.pRecBufH > d.buf.pRecBufE then
        (takeOut (· + 1) (clip (u16 ((d.buf.pRecBufH : ℤ) - d.buf.pRecBufE)) size)
          d.buf.pRecBufE).run access d
      else if d.buf.pRecBufH < d.buf.pRecBufE then
        (takeOut (next L) (clip (u16 (L - ((d.buf.pRecBufE : ℤ) - d.buf.pRecBufH))) size)
          d.buf.pRecBufE).run access d
      else ((0, []), d) := by
  change (if d.buf.pRecBufH > d.buf.pRecBufE then _ else if _ then _ else _ :
    Prog sig (ℕ × List UInt8)).run access d = _
  rw [Prog.run_ite, Prog.run_ite]
  rfl

/-- Alone, a call with room for the whole ring returns the bytes that the ring shows. -/
theorem run_getData (hL : L < 65536) (h : d.Bounded L) {size : ℕ} (hs : L ≤ size) :
    ((getData L size).run access d).1 = (d.unread.length, d.unread) := by
  have hH := h.recBufH
  have hE := h.recBufE
  have hunread : d.unread = contents d.buf.pReceiveBuf L d.buf.pRecBufE
      (dist L d.buf.pRecBufE d.buf.pRecBufH) := by
    rw [Device.unread, h.len]
  rw [hunread, contents_length]
  rw [run_getData_eq]
  rcases Nat.lt_trichotomy d.buf.pRecBufE d.buf.pRecBufH with hlt | heq | hgt
  · -- the bytes stand in one piece
    have hdist : dist L d.buf.pRecBufE d.buf.pRecBufH = d.buf.pRecBufH - d.buf.pRecBufE := by
      unfold Circular.dist
      rw [Nat.mod_eq_sub_mod (by omega), Nat.mod_eq_of_lt (by omega)]
      omega
    have hlen : u16 ((d.buf.pRecBufH : ℤ) - d.buf.pRecBufE) =
        dist L d.buf.pRecBufE d.buf.pRecBufH := by
      rw [← Nat.cast_sub hlt.le, u16_of_lt (by omega), hdist]
    rw [if_pos hlt, hlen, clip_of_le (by omega)]
    refine run_takeOut d hE fun i hi => ?_
    rw [Nat.mod_eq_of_lt (by omega), Nat.mod_eq_of_lt (by omega)]
  · rw [if_neg (by omega), if_neg (by omega)]
    have hdist : dist L d.buf.pRecBufE d.buf.pRecBufH = 0 := by
      unfold Circular.dist
      rw [heq, Nat.add_sub_cancel_left, Nat.mod_self]
    rw [hdist]
    rfl
  · -- the head has wrapped
    have hdist : dist L d.buf.pRecBufE d.buf.pRecBufH =
        d.buf.pRecBufH + L - d.buf.pRecBufE := by
      unfold Circular.dist
      exact Nat.mod_eq_of_lt (by omega)
    have hlen : u16 ((L : ℤ) - ((d.buf.pRecBufE : ℤ) - d.buf.pRecBufH)) =
        dist L d.buf.pRecBufE d.buf.pRecBufH := by
      have hcast : (L : ℤ) - ((d.buf.pRecBufE : ℤ) - d.buf.pRecBufH) =
          (d.buf.pRecBufH + L - d.buf.pRecBufE : ℕ) := by
        omega
      rw [hcast, u16_of_lt (by omega), hdist]
    rw [if_neg (by omega), if_pos hgt, hlen, clip_of_le (by omega)]
    exact run_takeOut d hE fun i _ => next_add_mod (by omega)

/-! ### What survives an overrun -/

theorem getData_after (hL : L < 65536) (h : d.Bounded L) (irqs : List Irq) {size : ℕ}
    (hs : L ≤ size) :
    ((getData L size).run access (interrupted d irqs)).1 =
      ((d.unread ++ arrivals d irqs).length % L,
        (d.unread ++ arrivals d irqs).drop (L * ((d.unread ++ arrivals d irqs).length / L))) := by
  have hfilled := (Device.Filled.start h).interrupted irqs
  rw [run_getData hL hfilled.bounded hs, hfilled.unread, List.length_drop]
  have := Nat.mod_add_div (d.unread ++ arrivals d irqs).length L
  rw [Prod.mk.injEq]
  exact ⟨by omega, rfl⟩

/-- The call returns all the bytes of the stream that fit in a ring of length `L`, in one piece
of the stream, and it returns something if there was anything. -/
structure Survives (L : ℕ) (stream : List UInt8) (r : ℕ × List UInt8) : Prop where
  enough : min stream.length (L - 1) ≤ r.1
  counted : r.2.length = r.1
  contiguous : r.2 <:+: stream
  nonempty : stream ≠ [] → r.1 ≠ 0

/-- An overrun is survived only if it stops one byte before a full revolution. -/
theorem survives_iff (hL : 2 ≤ L) (hw : L < 65536) (h : d.Bounded L) (irqs : List Irq)
    {size : ℕ} (hs : L ≤ size) :
    Survives L (d.unread ++ arrivals d irqs)
        ((getData L size).run access (interrupted d irqs)).1 ↔
      (d.unread ++ arrivals d irqs).length < L ∨
        (d.unread ++ arrivals d irqs).length % L = L - 1 := by
  rw [getData_after hw h irqs hs]
  generalize d.unread ++ arrivals d irqs = stream
  have hmod := Nat.mod_lt stream.length (by omega : 0 < L)
  constructor
  · intro hsurv
    have := hsurv.enough
    omega
  · intro hlen
    have henough : min stream.length (L - 1) ≤ stream.length % L := by
      rcases hlen with hlt | hfull
      · rw [Nat.mod_eq_of_lt hlt]
        omega
      · omega
    refine ⟨henough, ?_, (List.drop_suffix _ _).isInfix, fun hne => ?_⟩
    · have := Nat.mod_add_div stream.length L
      rw [List.length_drop]
      omega
    · have := List.length_pos_of_ne_nil hne
      simp only
      omega

/-- Seven bytes in a ring of length `4`: the last three are there. -/
theorem survives_seven :
    Survives 4
      ((blank 4).unread ++ arrivals (blank 4) ([1, 2, 3, 4, 5, 6, 7].map (Irq.mk 32 0)))
      ((getData 4 4).run access
        (interrupted (blank 4) ([1, 2, 3, 4, 5, 6, 7].map (Irq.mk 32 0)))).1 :=
  (@survives_iff 4 (blank 4) (by decide) (by decide)
    ⟨rfl, by decide, by decide, by decide, by decide⟩ _ 4 le_rfl).mpr (by decide)

/-- Four bytes in a ring of length `4` make it look empty. -/
theorem full_revolution_lost :
    ¬ Survives 4 ((blank 4).unread ++ arrivals (blank 4) ([1, 2, 3, 4].map (Irq.mk 32 0)))
      ((getData 4 4).run access (interrupted (blank 4) ([1, 2, 3, 4].map (Irq.mk 32 0)))).1 :=
  fun h => h.nonempty (by decide) (by decide)

end Stm32Templet.Usart
