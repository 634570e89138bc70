import Stm32Templet.Lib.Runs
import Stm32Templet.Usart.Driver

/-! # The pointers stay inside their buffers

Nothing in the driver stops several tasks from using one line, and nothing stops the receive
interrupt from overtaking a reader.  The bytes may then come out wrong, but no access leaves
the buffers: the pointers are in range in every reachable state, and so is every access that a
call is about to make (`contained`).  The copy loop of `usart_GetData` without a wrap test is
safe since the two pointers are read together, the one with the test for any length it has got
from pointers read later. -/

namespace Stm32Templet.Usart

open Atomic Circular Runs

/-! ### Any number of tasks on one line -/

/-- A call and the accesses it still has to make. -/
inductive Running where
  | setData (prog : Prog sig ℕ)
  | getData (size : ℕ) (prog : Prog sig (ℕ × List UInt8))

/-- The access that a call makes next. -/
def Running.pending : Running → Option Act
  | .setData (.act a _) => some a
  | .getData _ (.act a _) => some a
  | _ => none

/-- A line and its tasks; a task that has made no call yet is like one whose call is over. -/
structure Station (Tid : Type) where
  dev : Device
  task : Tid → Running

inductive StationEvent (Tid : Type) where
  | setData (x : Tid) (pData : List UInt8)
  | getData (x : Tid) (size : ℕ)
  /-- The call of a task makes its next access. -/
  | act (x : Tid)
  | irq (sr sr' dr : BitVec 16)

variable {Tid : Type} [DecidableEq Tid]

def Station.step (s : Station Tid) : StationEvent Tid → Option (Station Tid)
  | .setData x pData =>
      if (s.task x).pending.isNone then
        some { s with
          task := Function.update s.task x (.setData (Usart.setData s.dev.buf.len pData)) }
      else none
  | .getData x size =>
      if (s.task x).pending.isNone then
        some { s with
          task := Function.update s.task x (.getData size (Usart.getData s.dev.buf.len size)) }
      else none
  | .act x =>
      match s.task x with
      | .setData (.act a k) => some {
          dev := (access a s.dev).2
          task := Function.update s.task x (.setData (k (access a s.dev).1)) }
      | .getData size (.act a k) => some {
          dev := (access a s.dev).2
          task := Function.update s.task x (.getData size (k (access a s.dev).1)) }
      | _ => none
  | .irq sr sr' dr => some { s with dev := irqHandler sr sr' dr s.dev }

/-- After `Usart_Init` or `Usart_BufInit` with buffers of length `L`. -/
def Station.start (rec send : ℕ → UInt8) (L : ℕ) (cr1 : BitVec 16) : Station Tid :=
  ⟨⟨bufInit rec send L, cr1, []⟩, fun _ => .setData (.ret 0)⟩

/-! ### What is in range -/

/-- The pointers are offsets in buffers of length `L`. -/
structure Device.Bounded (L : ℕ) (d : Device) : Prop where
  len : d.buf.len = L
  recBufH : d.buf.pRecBufH < L
  recBufE : d.buf.pRecBufE < L
  sendBufH : d.buf.pSendBufH < L
  sendBufE : d.buf.pSendBufE < L

/-- What the access reads, writes or stores as a pointer is in range. -/
def Act.Inside (L : ℕ) : Act → Prop
  | .storeSend pH _ => pH < L
  | .setSendBufH pH => pH < L
  | .loadRec pE => pE < L
  | .setRecBufE pE => pE < L
  | _ => True

/-- What the access returns is in range, if it is a pointer. -/
def Act.Gives (L : ℕ) : (a : Act) → a.Res → Prop
  | .sendPointers, p => p.1 < L ∧ p.2 < L
  | .recPointers, p => p.1 < L ∧ p.2 < L
  | .readRecBufH, pH => pH < L
  | .readRecBufE, pE => pE < L
  | _, _ => True

/-- A call stays inside the buffers if what it is given does. -/
def boundSpec (L : ℕ) : Spec sig Unit where
  pre _ a := a.Inside L
  post _ a r _ := a.Gives L r

variable {L : ℕ}

theorem bound_sound (L : ℕ) : Sound (boundSpec L) access fun d _ => d.Bounded L := by
  intro d _ a h ha
  refine ⟨(), ?_⟩
  cases a with
  | sendPointers => exact ⟨⟨h.sendBufH, h.sendBufE⟩, h⟩
  | storeSend pH b => exact ⟨trivial, { h with }⟩
  | setSendBufH pH => exact ⟨trivial, { h with sendBufH := ha }⟩
  | readCr1 => exact ⟨trivial, h⟩
  | enableTxe => exact ⟨trivial, { h with }⟩
  | recPointers => exact ⟨⟨h.recBufH, h.recBufE⟩, h⟩
  | loadRec pE => exact ⟨trivial, h⟩
  | readRecBufH => exact ⟨h.recBufH, h⟩
  | readRecBufE => exact ⟨h.recBufE, h⟩
  | setRecBufE pE => exact ⟨trivial, { h with recBufE := ha }⟩

theorem Device.Bounded.next {d : Device} (h : d.Bounded L) {i : ℕ} (hi : i < L) :
    next d.buf.len i < L := by
  rw [h.len]
  exact next_lt hi

/-- The interrupt uses the pointers as they are and moves them with a wrap test. -/
theorem Device.Bounded.irq {d : Device} (h : d.Bounded L) (sr sr' dr : BitVec 16) :
    (irqHandler sr sr' dr d).Bounded L := by
  have htxe : ∀ d' : Device, d'.Bounded L →
      ((if d.transmits sr' then Usart.txe else id) d').Bounded L := by
    intro d' h'
    split
    · exact { h' with sendBufE := h'.next h'.sendBufE }
    · exact h'
  rw [irqHandler_cases]
  by_cases hr : d.receives sr = true
  · rw [if_pos hr]
    exact htxe (rxne dr d) { h with recBufH := h.next h.recBufH }
  · rw [if_neg hr]
    exact htxe d h

/-! ### The calls -/

theorem setData_bounded (L : ℕ) (pData : List UInt8) :
    Safe (boundSpec L) (fun _ _ => True) (setData L pData) () := by
  by_cases hd : pData = []
  · subst hd
    trivial
  rw [setData_eq hd]
  refine ⟨trivial, fun p _ hp => ?_⟩
  have hloop : Safe (boundSpec L) (fun r v' => r.2 < L ∧ v' = ()) (setLoop L p.2 pData 0 p.1) () :=
    setLoop_safe (I := (· < L)) (fun _ h => next_lt h) (fun _ _ h => h) (fun _ _ _ _ _ => rfl)
      pData 0 hp.1
  refine hloop.bind fun r _ hr => ?_
  unfold publish
  split
  · trivial
  · refine ⟨hr.1, fun _ _ _ => ⟨trivial, fun cr1 _ _ => ?_⟩⟩
    by_cases ht : tst cr1 7 = true
    · simp only [ht, if_true, safe_ret]
    · simp only [ht, if_false, Bool.false_eq_true]
      exact ⟨trivial, fun _ _ _ => trivial⟩

/-- A call returns the number of the bytes it has copied, which the caller's size limits. -/
def Counted (size : ℕ) (r : ℕ × List UInt8) : Prop :=
  r.2.length = r.1 ∧ (size ≠ 0 → r.1 ≤ size)

/-- The copy, `I i pE` being what is known of the pointer when `i` bytes are still to be
copied. -/
theorem takeOut_bounded {adv : ℕ → ℕ} {I : ℕ → ℕ → Prop} (hlt : ∀ i pE, I i pE → pE < L)
    (hadv : ∀ i pE, I (i + 1) pE → I i (adv pE)) {n size pE : ℕ} (hn : size ≠ 0 → n ≤ size)
    (h : I n pE) : Safe (boundSpec L) (fun r _ => Counted size r) (takeOut adv n pE) () := by
  have hloop := getLoop_safe (P := boundSpec L) (v := ()) hadv (fun i pE h => hlt _ pE h)
    (fun _ _ _ _ => rfl) h
  apply hloop.bind
  intro r _ hr
  exact ⟨hlt 0 _ hr.2.1, fun _ _ _ => ⟨hr.1, hn⟩⟩

theorem getData_bounded (L size : ℕ) :
    Safe (boundSpec L) (fun r _ => Counted size r) (getData L size) () := by
  refine ⟨trivial, fun p _ hp => ?_⟩
  change Safe _ _ (if p.1 > p.2 then _ else _) _
  split
  · -- the two pointers were read together, the copy ends in front of the head
    rename_i hlt
    apply takeOut_bounded (I := fun i pE => pE + i < L) (fun i pE h => by omega)
      (fun i pE h => by omega) clip_le_size
    have hclip := clip_le (u16 (p.1 - p.2)) size
    have hu16 : u16 (p.1 - p.2) ≤ p.1 - p.2 := by
      unfold u16
      omega
    have hhead : p.1 < L := hp.1
    omega
  · split
    · -- the head may have passed the tail in the meantime, the loop wraps all the same
      refine ⟨trivial, fun pE _ _ => ⟨trivial, fun pH _ _ => ?_⟩⟩
      exact takeOut_bounded (I := fun _ pE => pE < L) (fun _ _ h => h) (fun _ _ h => next_lt h)
        clip_le_size hp.2
    · exact ⟨rfl, fun _ => Nat.zero_le size⟩

/-! ### Runs -/

/-- The call keeps inside the buffers, and returns what it should. -/
def Running.Bounded (L : ℕ) : Running → Prop
  | .setData prog => Safe (boundSpec L) (fun _ _ => True) prog ()
  | .getData size prog => Safe (boundSpec L) (fun r _ => Counted size r) prog ()

/-- The accesses of the tasks and of the interrupt, and the results of the calls. -/
structure Station.Contained (L : ℕ) (s : Station Tid) : Prop where
  /-- The interrupt stores at `pRecBufH` and loads at `pSendBufE`. -/
  pointers : s.dev.Bounded L
  accesses : ∀ x, ∀ a ∈ (s.task x).pending, a.Inside L
  counted : ∀ x size r, s.task x = .getData size (.ret r) → Counted size r

/-- All calls keep inside the buffers. -/
structure Station.Inv (L : ℕ) (s : Station Tid) : Prop where
  dev : s.dev.Bounded L
  task : ∀ x, (s.task x).Bounded L

variable {s s' : Station Tid}

theorem Running.Bounded.pending {r : Running} (h : r.Bounded L) {a : Act} (ha : a ∈ r.pending) :
    a.Inside L := by
  unfold Running.pending at ha
  split at ha
  · cases ha
    exact h.1
  · cases ha
    exact h.1
  · cases ha

omit [DecidableEq Tid] in
theorem Station.Inv.stays (h : s.Inv L) : s.Contained L := by
  refine ⟨h.dev, fun x a ha => (h.task x).pending ha, fun x size r hx => ?_⟩
  have hr := h.task x
  rw [hx] at hr
  exact hr

theorem Station.Inv.update (h : s.Inv L) {d : Device} (hd : d.Bounded L) (x : Tid) {r : Running}
    (hr : r.Bounded L) : Station.Inv L ⟨d, Function.update s.task x r⟩ := by
  refine ⟨hd, fun y => ?_⟩
  change Running.Bounded L (Function.update s.task x r y)
  by_cases hy : y = x
  · subst hy
    rwa [Function.update_self]
  · rw [Function.update_of_ne hy]
    exact h.task y

theorem Station.Inv.step (h : s.Inv L) {e : StationEvent Tid} (hs : s.step e = some s') :
    s'.Inv L := by
  cases e with
  | setData x pData =>
      obtain ⟨_, hs⟩ := Option.ite_none_right_eq_some.mp hs
      cases hs
      refine h.update h.dev x ?_
      rw [h.dev.len]
      exact setData_bounded L pData
  | getData x size =>
      obtain ⟨_, hs⟩ := Option.ite_none_right_eq_some.mp hs
      cases hs
      refine h.update h.dev x ?_
      rw [h.dev.len]
      exact getData_bounded L size
  | act x =>
      have hx := h.task x
      simp only [Station.step] at hs
      split at hs
      · rename_i a k hr
        cases hs
        rw [hr] at hx
        obtain ⟨_, _, hd, hk⟩ := Safe.step (bound_sound L) h.dev hx
        exact h.update hd x hk
      · rename_i size a k hr
        cases hs
        rw [hr] at hx
        obtain ⟨_, _, hd, hk⟩ := Safe.step (bound_sound L) h.dev hx
        exact h.update hd x hk
      · cases hs
  | irq sr sr' dr =>
      cases hs
      exact ⟨h.dev.irq sr sr' dr, h.task⟩

/-- In every interleaving of any number of tasks and the interrupt, full rings and overruns
included, the pointers and all accesses are in range, and a call of `Usart_GetData` returns the
number of the bytes it has copied. -/
theorem contained (hL : 1 ≤ L) (rec send : ℕ → UInt8) (cr1 : BitVec 16)
    {es : List (StationEvent Tid)}
    (hs : exec Station.step (Station.start rec send L cr1) es = some s) : s.Contained L := by
  have hstart : Station.Inv L (Station.start rec send L cr1 : Station Tid) :=
    ⟨⟨rfl, hL, hL, hL, hL⟩, fun _ => trivial⟩
  exact (exec_invariant' (fun _ _ _ hI ht => hI.step ht) hstart hs).stays

/-- Two tasks read at the same time, after the interrupt has overtaken the first one. -/
theorem contained_two_readers : ∃ s, exec Station.step
      (Station.start (fun _ => 0) (fun _ => 0) 2 32#16 : Station Bool)
      [.irq 32 0 5, .getData true 0, .act true, .irq 32 0 6, .irq 32 0 7, .getData false 9,
        .act false, .act true, .act true, .act false] = some s ∧ s.Contained 2 :=
  ⟨_, rfl, @contained Bool _ 2 _ (by decide) (fun _ => 0) (fun _ => 0) 32#16
    [.irq 32 0 5, .getData true 0, .act true, .irq 32 0 6, .irq 32 0 7, .getData false 9,
      .act false, .act true, .act true, .act false] rfl⟩

end Stm32Templet.Usart
