import Stm32Templet.Usart.Line

/-! # The receive ring

The reading task against the receive interrupt.  Between two of its accesses the task can
rely on the tail pointer, which only it moves, and on the bytes it has seen in the ring: the
interrupt only appends to them (`RxView`).  `usart_GetData` takes the head from the snapshot
in one branch and reads it again in the other; in both the number of bytes it computes is the
number of bytes seen by its last read of the head (`safe_getData`).

As long as the bytes not yet released stay below the length of the ring, every byte received
is copied out once and in order (`received_in_order`). -/

namespace Stm32Templet.Usart

open Atomic Circular Runs

/-- What the reading task relies on. -/
structure RxView where
  tail : ℕ
  /-- The bytes that its last read of the head showed to be in the ring. -/
  known : List UInt8
  /-- The bytes copied out so far. -/
  out : List UInt8
  /-- The bytes released by the store of `pRecBufE`. -/
  taken : List UInt8

/-- The accesses of the reading task and what it learns from them.  The store of `pRecBufE`
is the last one. -/
def rxSpec (L : ℕ) : Spec sig RxView where
  pre v
    | .recPointers => v.taken = []
    | .loadRec pE => v.taken = [] ∧ pE = (v.tail + v.out.length) % L ∧
        v.out.length < v.known.length
    | .readRecBufH => v.taken = []
    | .readRecBufE => v.taken = []
    | .setRecBufE pE => v.taken = [] ∧ pE = (v.tail + v.out.length) % L
    | _ => False
  post v
    | .recPointers, r, v' => v.tail < L ∧ ∃ k, v.known <+: k ∧ k.length < L ∧
        r = ((v.tail + k.length) % L, v.tail) ∧ v' = { v with known := k }
    | .loadRec _, r, v' => v' = { v with out := v.out ++ [r] }
    | .readRecBufH, r, v' => ∃ k, v.known <+: k ∧ k.length < L ∧
        r = (v.tail + k.length) % L ∧ v' = { v with known := k }
    | .readRecBufE, r, v' => r = v.tail ∧ v' = v
    | .setRecBufE pE, _, v' => v' = ⟨pE, v.known.drop v.out.length, [], v.out⟩
    | _, _, _ => False

/-- The device agrees with the view of the reading task, `unread` being the bytes in the
ring. -/
structure RxInv (L : ℕ) (d : Device) (v : RxView) (unread : List UInt8) : Prop where
  len : d.buf.len = L
  tail : d.buf.pRecBufE = v.tail
  tail_lt : v.tail < L
  head : d.buf.pRecBufH = (v.tail + unread.length) % L
  held : Holds d.buf.pReceiveBuf L v.tail unread
  room : unread.length < L
  known : v.known <+: unread
  out : v.out <+: v.known

variable {L : ℕ} {d : Device} {v : RxView} {unread : List UInt8}

theorem RxInv.unread_eq (h : RxInv L d v unread) : d.unread = unread := by
  unfold Device.unread
  rw [h.len, h.tail, h.head, dist_add_mod h.tail_lt h.room]
  exact holds_iff_contents.mp h.held

/-! ### The accesses of the task -/

theorem RxInv.look (h : RxInv L d v unread) : RxInv L d { v with known := unread } unread :=
  { h with known := List.prefix_rfl, out := h.out.trans h.known }

theorem RxInv.loadRec (h : RxInv L d v unread) (hlt : v.out.length < v.known.length) :
    RxInv L d
      { v with out := v.out ++ [d.buf.pReceiveBuf ((v.tail + v.out.length) % L)] } unread := by
  have hlt' : v.out.length < unread.length := hlt.trans_le h.known.length_le
  refine { h with out := ?_ }
  rw [h.held v.out.length hlt', ← h.known.getElem hlt]
  exact List.concat_get_prefix h.out hlt

theorem RxInv.setRecBufE (h : RxInv L d v unread) :
    RxInv L (access (.setRecBufE ((v.tail + v.out.length) % L)) d).2
      ⟨(v.tail + v.out.length) % L, v.known.drop v.out.length, [], v.out⟩
      (unread.drop v.out.length) := by
  have hle : v.out.length ≤ unread.length := (h.out.trans h.known).length_le
  have hroom := h.room
  refine { len := h.len, tail := rfl, tail_lt := Nat.mod_lt _ (by omega), head := ?_,
           held := h.held.drop hle, room := ?_, known := h.known.drop _, out := List.nil_prefix }
  · simp only [access]
    rw [h.head, Nat.mod_add_mod, List.length_drop]
    congr 1
    omega
  · rw [List.length_drop]
    omega

/-- The bytes released and those in the ring, as one sequence. -/
theorem rx_sound (L : ℕ) (total : List UInt8) : Sound (rxSpec L) access fun d v =>
    ∃ unread, RxInv L d v unread ∧ v.taken ++ unread = total := by
  rintro d v a ⟨unread, h, ht⟩ hpre
  cases a with
  | recPointers =>
      refine ⟨_, ⟨h.tail_lt, unread, h.known, h.room, ?_, rfl⟩, unread, h.look, ht⟩
      simp only [access, h.head, h.tail]
  | loadRec pE =>
      obtain ⟨_, rfl, hlt⟩ := hpre
      exact ⟨_, rfl, unread, h.loadRec hlt, ht⟩
  | readRecBufH => exact ⟨_, ⟨unread, h.known, h.room, h.head, rfl⟩, unread, h.look, ht⟩
  | readRecBufE => exact ⟨_, ⟨h.tail, rfl⟩, unread, h, ht⟩
  | setRecBufE pE =>
      obtain ⟨htk, rfl⟩ := hpre
      refine ⟨_, rfl, _, h.setRecBufE, ?_⟩
      rw [htk, List.nil_append] at ht
      obtain ⟨rest, hrest⟩ := h.out.trans h.known
      rw [← ht, ← hrest, List.drop_left]
  | sendPointers => exact hpre.elim
  | storeSend pH b => exact hpre.elim
  | setSendBufH pH => exact hpre.elim
  | readCr1 => exact hpre.elim
  | enableTxe => exact hpre.elim

/-! ### `Usart_GetData` -/

/-- A finished call returns the bytes it has released. -/
def Released (r : ℕ × List UInt8) (v : RxView) : Prop := r.1 = r.2.length ∧ r.2 = v.taken

/-- The copy loop, its increment agreeing with the wrap-around on the slots it visits. -/
theorem safe_getLoop {adv : ℕ → ℕ} (n : ℕ) (v : RxView) (ht : v.taken = [])
    (hn : v.out.length + n ≤ v.known.length)
    (hadv : ∀ i < v.known.length, adv ((v.tail + i) % L) = (v.tail + (i + 1)) % L) :
    Safe (rxSpec L) (fun r v' => r.1.length = n ∧ v' = { v with out := v.out ++ r.1 } ∧
      r.2 = (v.tail + v'.out.length) % L) (getLoop adv n ((v.tail + v.out.length) % L)) v := by
  induction n generalizing v with
  | zero =>
      rw [getLoop, safe_ret, List.append_nil]
      exact ⟨rfl, rfl, rfl⟩
  | succ n ih =>
      refine ⟨⟨ht, rfl, by omega⟩, ?_⟩
      rintro b _ rfl
      rw [hadv v.out.length (by omega)]
      have hrest := ih { v with out := v.out ++ [b] } ht (by simp; omega) hadv
      simp only [List.length_append, List.length_singleton] at hrest
      apply hrest.bind
      rintro r _ ⟨hr, rfl, hp⟩
      refine ⟨by simp [hr], by simp, ?_⟩
      simpa using hp

theorem safe_takeOut {adv : ℕ → ℕ} {n : ℕ} (ht : v.taken = []) (ho : v.out = [])
    (hlt : v.tail < L) (hn : n ≤ v.known.length)
    (hadv : ∀ i < v.known.length, adv ((v.tail + i) % L) = (v.tail + (i + 1)) % L) :
    Safe (rxSpec L) Released (takeOut adv n v.tail) v := by
  have hloop := safe_getLoop n v ht (by rw [ho, List.length_nil]; omega) hadv
  rw [ho, List.length_nil, Nat.add_zero, Nat.mod_eq_of_lt hlt] at hloop
  refine hloop.bind ?_
  rintro r _ ⟨hr, rfl, hp⟩
  refine ⟨⟨ht, hp⟩, ?_⟩
  rintro _ _ rfl
  exact ⟨hr.symm, by simp⟩

/-- A call releases a part of the bytes it has seen, whichever branch it takes. -/
theorem safe_getData (hL : L < 65536) (size : ℕ) (ht : v.taken = []) (ho : v.out = []) :
    Safe (rxSpec L) Released (getData L size) v := by
  refine ⟨ht, ?_⟩
  rintro _ _ ⟨hlt, k, _, hk, rfl, rfl⟩
  change Safe _ _ (if _ then _ else _) _
  rcases add_mod_cases hlt hk.le with ⟨e, _⟩ | ⟨e, hwrap⟩
  · -- the bytes of the snapshot stand in front of the end of the buffer
    simp only [e]
    by_cases hne : v.tail + k.length > v.tail
    · rw [if_pos hne]
      have hlen : u16 (((v.tail + k.length : ℕ) : ℤ) - (v.tail : ℤ)) = k.length := by
        rw [Nat.cast_add, add_sub_cancel_left, u16_of_lt (by omega)]
      rw [hlen]
      refine safe_takeOut (v := { v with known := k }) ht ho hlt (clip_le _ _) fun i hi => ?_
      simp only at hi ⊢
      rw [Nat.mod_eq_of_lt (by omega), Nat.mod_eq_of_lt (by omega), Nat.add_assoc]
    · rw [if_neg hne, if_neg (by omega)]
      exact ⟨rfl, ht.symm⟩
  · -- the head has wrapped: it is read again, and more bytes may have come
    simp only [e]
    rw [if_neg (by omega), if_pos (by omega)]
    refine ⟨ht, ?_⟩
    rintro _ _ ⟨rfl, rfl⟩
    refine ⟨ht, ?_⟩
    rintro _ _ ⟨k', hpre, hk', rfl, rfl⟩
    have hkk' : k.length ≤ k'.length := hpre.length_le
    have hlen : u16 ((L : ℤ) - ((v.tail : ℤ) - ((v.tail + k'.length) % L : ℕ))) = k'.length := by
      rcases add_mod_cases hlt hk'.le with ⟨e', _⟩ | ⟨e', _⟩
      · omega
      · have : (L : ℤ) - ((v.tail : ℤ) - ((v.tail + k'.length) % L : ℕ)) = (k'.length : ℕ) := by
          rw [e']
          omega
        rw [this, u16_of_lt (by omega)]
    change Safe _ _ (takeOut (next L) (clip (u16 _) size) v.tail) _
    simp only [hlen]
    exact safe_takeOut (v := { v with known := k' }) ht ho hlt (clip_le _ _)
      fun i _ => next_add_mod (by omega)

/-! ### One step of the line -/

/-- The bytes received and not yet released stay below the length of the ring. -/
def Keeps (L : ℕ) (s : Line) (e : Event) : Prop :=
  ∀ s' ∈ s.step e, s'.received.length < s'.got.length + L

instance (L : ℕ) (s : Line) (e : Event) : Decidable (Keeps L s e) :=
  inferInstanceAs (Decidable (∀ s' ∈ s.step e, _))

/-- The receive ring agrees with the call in progress, and the bytes copied out followed by
those in the ring are the bytes received. -/
structure Line.Reading (L : ℕ) (s : Line) (v : RxView) (unread : List UInt8) : Prop where
  inv : RxInv L s.dev v unread
  order : s.got ++ unread = s.received
  safe : Safe (rxSpec L) Released s.reader v

variable {s s' : Line}

theorem rxSpec_taken {a : Act} (h : (rxSpec L).pre v a) : v.taken = [] := by
  cases a with
  | recPointers => exact h
  | loadRec pE => exact h.1
  | readRecBufH => exact h
  | readRecBufE => exact h
  | setRecBufE pE => exact h.1
  | sendPointers => exact h.elim
  | storeSend pH b => exact h.elim
  | setSendBufH pH => exact h.elim
  | readCr1 => exact h.elim
  | enableTxe => exact h.elim

theorem finished_eq {p : Prog sig (ℕ × List UInt8)} (h : Safe (rxSpec L) Released p v) :
    finished p = v.taken := by
  cases p with
  | ret r =>
      obtain ⟨h₁, h₂⟩ := h
      rw [finished, h₁, List.take_length, h₂]
  | act a k => exact (rxSpec_taken h.1).symm

theorem RxInv.writer (h : RxInv L d v unread) {a : Act} (ha : a.receive = false) :
    RxInv L (access a d).2 v unread := by
  cases a with
  | sendPointers => exact h
  | storeSend pH b => exact { h with }
  | setSendBufH pH => exact { h with }
  | readCr1 => exact h
  | enableTxe => exact { h with }
  | recPointers => cases ha
  | loadRec pE => cases ha
  | readRecBufH => cases ha
  | readRecBufE => cases ha
  | setRecBufE pE => cases ha

theorem RxInv.txe (h : RxInv L d v unread) : RxInv L (txe d) v unread := { h with }

/-- The interrupt appends a byte while a slot besides the unused one is free. -/
theorem RxInv.rxne (h : RxInv L d v unread) (dr : BitVec 16) (hroom : unread.length + 1 < L) :
    RxInv L (rxne dr d) v (unread ++ [UInt8.ofNat (dr &&& 0x01FF#16).toNat]) := by
  refine { h with head := ?_, held := ?_, room := by simpa using hroom,
                  known := h.known.trans (List.prefix_append _ _) }
  · simp only [Usart.rxne]
    rw [h.len, h.head, next_add_mod (by omega), List.length_append, List.length_singleton]
  · simp only [Usart.rxne]
    rw [h.head]
    exact h.held.push h.room

theorem RxInv.irq (h : RxInv L d v unread) (sr sr' dr : BitVec 16)
    (hroom : unread.length + (storedByte d sr dr).length < L) :
    RxInv L (irqHandler sr sr' dr d) v (unread ++ storedByte d sr dr) := by
  have h' : RxInv L ((if d.receives sr then Usart.rxne dr else id) d) v
      (unread ++ storedByte d sr dr) := by
    unfold storedByte at hroom ⊢
    by_cases hr : d.receives sr = true
    · simp only [hr, if_true, List.length_singleton] at hroom ⊢
      exact h.rxne dr hroom
    · simp only [hr, if_false, Bool.false_eq_true, List.append_nil] at hroom ⊢
      exact h
  rw [irqHandler_cases]
  split
  · exact h'.txe
  · exact h'

theorem Line.Reading.step (hL : L < 65536) (h : ∃ v unread, s.Reading L v unread)
    (hside : s.Sided) {e : Event} (hk : Keeps L s e) (hs : s.step e = some s') :
    ∃ v unread, s'.Reading L v unread := by
  obtain ⟨v, unread, hinv, horder, hsafe⟩ := h
  cases e with
  | setData pData =>
      obtain ⟨r, _, rfl⟩ := step_setData hs
      exact ⟨v, unread, hinv, horder, hsafe⟩
  | writer =>
      obtain ⟨a, k, hw, rfl⟩ := step_writer hs
      have hside' := hside.writer
      rw [hw] at hside'
      exact ⟨v, unread, hinv.writer hside'.1, horder, hsafe⟩
  | getData size =>
      obtain ⟨r, _, rfl⟩ := step_getData hs
      refine ⟨⟨v.tail, [], [], []⟩, unread, ?_, horder, ?_⟩
      · exact { hinv with known := List.nil_prefix, out := List.prefix_rfl }
      · simp only [hinv.len]
        exact safe_getData hL size rfl rfl
  | reader =>
      obtain ⟨a, k, hr, rfl⟩ := step_reader hs
      rw [hr] at hsafe
      have htaken := rxSpec_taken hsafe.1
      obtain ⟨v', _, ⟨unread', hinv', ht⟩, hsafe'⟩ :=
        hsafe.step (rx_sound L unread) ⟨unread, hinv, by rw [htaken, List.nil_append]⟩
      refine ⟨v', unread', hinv', ?_, hsafe'⟩
      rw [finished_eq hsafe', List.append_assoc, ht, horder]
  | irq sr sr' dr =>
      have hlen := hk _ hs
      cases hs
      have horder' := congrArg List.length horder
      simp only [List.length_append] at hlen horder'
      exact ⟨v, _, hinv.irq sr sr' dr (by omega), by rw [← List.append_assoc, horder], hsafe⟩

/-! ### Runs -/

theorem Line.Start.reading (h : s.Start L) :
    Line.Reading L s ⟨s.dev.buf.pRecBufE, [], [], []⟩ [] := by
  have hd := h.dev
  refine ⟨⟨hd.len, rfl, hd.recv_lt, ?_, .nil, ?_, List.prefix_rfl, List.prefix_rfl⟩, ?_, ?_⟩
  · rw [hd.recv]
    exact (Nat.mod_eq_of_lt hd.recv_lt).symm
  · have := hd.recv_lt
    simp only [List.length_nil]
    omega
  · rw [h.got, h.received, List.append_nil]
  · rw [h.reader]
    exact ⟨rfl, rfl⟩

/-- As long as the bytes not yet released stay below the length of the ring, the bytes
copied out followed by the bytes in the ring are the bytes received. -/
theorem received_in_order (hL : L < 65536) (h : s.Start L) {es : List Event}
    (hk : Along Line.step (Keeps L) s es) (hs : exec Line.step s es = some s') :
    s'.got ++ s'.dev.unread = s'.received := by
  have hstep : ∀ t e t', ((∃ v unread, t.Reading L v unread) ∧ t.Sided) → Keeps L t e →
      t.step e = some t' → (∃ v unread, t'.Reading L v unread) ∧ t'.Sided :=
    fun t e t' hI hc ht => ⟨Line.Reading.step hL hI.1 hI.2 hc ht, hI.2.step ht⟩
  obtain ⟨⟨v, unread, hinv, horder, _⟩, _⟩ :=
    exec_invariant hstep ⟨⟨_, _, h.reading⟩, h.sided⟩ hk hs
  rw [hinv.unread_eq, horder]

/-- A byte that arrives during the call stays in the ring. -/
theorem received_in_order_three : ∃ s', exec Line.step (blankLine 4) [.irq 32 0 5, .irq 32 0 6,
      .getData 2, .reader, .reader, .irq 32 0 7, .reader, .reader] = some s' ∧
    s'.got ++ s'.dev.unread = s'.received :=
  ⟨_, rfl, @received_in_order 4 _ _ (by decide) (blankLine_start (by decide)) [.irq 32 0 5,
    .irq 32 0 6, .getData 2, .reader, .reader, .irq 32 0 7, .reader, .reader] (by decide) rfl⟩

end Stm32Templet.Usart
