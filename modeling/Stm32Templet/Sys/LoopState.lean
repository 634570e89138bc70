import Stm32Templet.Sys.Loop

/-! # The state of the loop

`LoopOk` says what holds between the events of a run of the loop.  The place of the loop says
which call of the task is running and which message it holds; while the module sends, the bytes
stand in its static buffer.  The bytes passed on are those of the messages received and
handled; the bytes taken are those posted to the queue and those about to be, as long as
nothing is lost, and in any case the numbers agree. -/

namespace Stm32Templet.Sys

open Memory Os Tasks Atomic Places Runs

variable {Tid : Type}

/-! ### Bytes -/

/-- The bytes in the messages of the module. -/
def loops (l : List Msg) : List UInt8 :=
  (l.filter fun m => m.message = MESSAGE_USART_LOOP).flatMap Msg.payload

@[simp] theorem loops_nil : loops [] = [] := rfl

theorem loops_append (l l' : List Msg) : loops (l ++ l') = loops l ++ loops l' := by
  unfold loops
  rw [List.filter_append, List.flatMap_append]

theorem loops_own {m : Msg} (h : m.message = MESSAGE_USART_LOOP) : loops [m] = m.payload := by
  simp [loops, h]

theorem loops_other {m : Msg} (h : m.message ≠ MESSAGE_USART_LOOP) : loops [m] = [] := by
  simp [loops, h]

/-- The messages posted to a queue. -/
def Machine.inbox (s : Machine Tid) (t : Fin TASK_NUM) : List Msg :=
  (s.shared.posted.filter fun e => e.call.task = t).map Post.msg

/-- The bytes that a call is about to post. -/
def Loop.unposted (x₀ : Tid) (s : Loop Tid) : List UInt8 :=
  match s.pc with
  | .sending chunk => if (s.machine.task x₀).posting = [] then chunk else []
  | _ => []

/-- The bytes that were sent, or are about to be. -/
def Loop.passed (x₀ : Tid) (s : Loop Tid) : List UInt8 :=
  loops (s.machine.inbox 0) ++ s.unposted x₀

/-- The message that the module has not seen yet. -/
def Loop.unhandled (x₀ : Tid) (s : Loop Tid) : List Msg :=
  match s.pc with
  | .handling _ => (s.machine.task x₀).held.map Held.msg
  | _ => []

/-- The bytes that the module has kept for a later attempt. -/
def Loop.kept (K : LoopLayout) (s : Loop Tid) : List UInt8 :=
  bytes s.machine.shared.kernel.mem K.usartBuf usartLen

/-! ### The invariant -/

/-- The bytes stand in the static buffer. -/
def LoopLayout.Buffered (K : LoopLayout) (m : Mem) (chunk : List UInt8) : Prop :=
  chunk.length ≤ USART_BUF_SIZE ∧ bytes m K.usartBuf chunk.length = chunk

/-- The call and the messages of the task, in each place of the loop. -/
def Pc.Holds (K : LoopLayout) (m : Mem) (ts : TaskState) : Pc → Prop
  | .between => ts.run = none ∧ ts.held = []
  | .polling chunk => ts.run = none ∧ ts.held = [] ∧ K.Buffered m chunk
  | .sending chunk => ts.held = [] ∧ K.Buffered m chunk ∧ ∃ r, ts.run = some r ∧
      r.call = .send (usartLoopModuleProcess0 K chunk.length) ∧ r.src = some chunk
  | .draining => ts.run = none ∧ ts.held = []
  | .receiving => ts.held = [] ∧ ∃ r, ts.run = some r ∧ r.call = .receive 0
  | .handling pMessage => (∃ g, ts.held = [g] ∧ g.pMessage = pMessage ∧
        (g.msg.message = MESSAGE_USART_LOOP → g.touched = false)) ∧
      ∀ r, ts.run = some r → r.call.Handler
  | .handled pMessage => ts.run = none ∧ ∃ g, ts.held = [g] ∧ g.pMessage = pMessage
  | .freeing => ts.held = [] ∧ ∃ r pMessage, ts.run = some r ∧ r.call = .free pMessage

variable [DecidableEq Tid]

/-- Queue 0 belongs to the task, and the messages of the module are its own. -/
structure Machine.Dedicated (L : Layout) (x₀ : Tid) (s : Machine Tid) : Prop where
  ok : s.Ok L
  logged : s.Logged
  others : ∀ y ≠ x₀, ∀ r, (s.task y).run = some r → r.call.Foreign
  mine : ∀ e ∈ s.shared.received 0, e.1 = x₀

/-- The bytes taken are those passed and those lost. -/
def Loop.Accounted (x₀ : Tid) (s : Loop Tid) : Prop :=
  s.taken.length = (s.passed x₀).length + s.lost.length ∧ (s.lost = [] → s.taken = s.passed x₀)

/-- The bytes passed on are those of the messages received, apart from the one in hand. -/
def Loop.Echoes (x₀ : Tid) (s : Loop Tid) : Prop :=
  loops ((s.machine.task x₀).received 0) = s.echoed ++ loops (s.unhandled x₀)

/-- What holds in a run of the loop. -/
structure LoopOk (K : LoopLayout) (x₀ : Tid) (s : Loop Tid) : Prop where
  machine : s.machine.Dedicated K.toLayout x₀
  holds : s.pc.Holds K s.machine.shared.kernel.mem (s.machine.task x₀)
  echo : s.Echoes x₀
  accounted : s.Accounted x₀

variable {K : LoopLayout} {x₀ : Tid} {s s' : Loop Tid} {m m' : Mem} {ts : TaskState}
  {pc : Pc} {chunk : List UInt8} {e : Event Tid} {t : Machine Tid}

omit [DecidableEq Tid] in
theorem Loop.Accounted.congr (h : s.Accounted x₀) (htaken : s'.taken = s.taken)
    (hlost : s'.lost = s.lost) (hpassed : s'.passed x₀ = s.passed x₀) : s'.Accounted x₀ := by
  unfold Loop.Accounted
  rw [htaken, hlost, hpassed]
  exact h

omit [DecidableEq Tid] in
theorem Loop.Echoes.congr (h : s.Echoes x₀)
    (hreceived : (s'.machine.task x₀).received = (s.machine.task x₀).received)
    (hechoed : s'.echoed = s.echoed) (hunhandled : s'.unhandled x₀ = s.unhandled x₀) :
    s'.Echoes x₀ := by
  unfold Loop.Echoes
  rw [hreceived, hechoed, hunhandled]
  exact h

omit [DecidableEq Tid] in
theorem unposted_nil (h : ∀ chunk, s.pc ≠ .sending chunk) : s.unposted x₀ = [] := by
  unfold Loop.unposted
  split
  · exact absurd (by assumption) (h _)
  · rfl

omit [DecidableEq Tid] in
theorem unposted_sending (h : s.pc = .sending chunk) :
    s.unposted x₀ = if (s.machine.task x₀).posting = [] then chunk else [] := by
  unfold Loop.unposted
  rw [h]

omit [DecidableEq Tid] in
theorem unhandled_nil (h : ∀ pMessage, s.pc ≠ .handling pMessage) : s.unhandled x₀ = [] := by
  unfold Loop.unhandled
  split
  · exact absurd (by assumption) (h _)
  · rfl

omit [DecidableEq Tid] in
theorem passed_quiet (hposted : s'.machine.shared.posted = s.machine.shared.posted)
    (h : ∀ chunk, s.pc ≠ .sending chunk) (h' : ∀ chunk, s'.pc ≠ .sending chunk) :
    s'.passed x₀ = s.passed x₀ := by
  unfold Loop.passed Machine.inbox
  rw [unposted_nil h', unposted_nil h, hposted]

omit [DecidableEq Tid] in
theorem unhandled_quiet (h : ∀ pMessage, s.pc ≠ .handling pMessage)
    (h' : ∀ pMessage, s'.pc ≠ .handling pMessage) : s'.unhandled x₀ = s.unhandled x₀ :=
  (unhandled_nil h').trans (unhandled_nil h).symm

/-! ### The static buffer -/

omit [DecidableEq Tid] in
theorem LoopLayout.Buffered.toNat (h : K.Buffered m chunk) :
    (UInt16.ofNat chunk.length).toNat = chunk.length :=
  UInt16.toNat_ofNat_of_lt' (h.1.trans_lt (by decide))

omit [DecidableEq Tid] in
theorem source_of_buffered (h : K.Buffered m chunk) :
    (Call.send (usartLoopModuleProcess0 K chunk.length)).source m = some chunk := by
  show some (bytes m K.usartBuf (UInt16.ofNat chunk.length).toNat) = some chunk
  rw [h.toNat, h.2]

/-- Only `Usart_ModuleGetData` changes the buffer. -/
theorem LoopLayout.Buffered.step (h : K.Buffered s.machine.shared.kernel.mem chunk)
    (hok : s.machine.Ok K.toLayout) (hallow : s.Allows K x₀ e)
    (hs : s.machine.step K.toLayout e = some t) : K.Buffered t.shared.kernel.mem chunk := by
  refine ⟨h.1, (bytes_congr fun i hi => ?_).trans h.2⟩
  have hlt : i < USART_BUF_SIZE := hi.trans_le h.1
  apply hok.step_outside hs (K.outside i hlt)
  rintro x w rfl
  exact hallow.1 ⟨Nat.le_add_right _ _, Nat.add_lt_add_left hlt _⟩

/-! ### The place of the loop -/

omit [DecidableEq Tid] in
/-- The record of the sources is kept as long as the buffer is. -/
theorem Pc.Holds.watch (h : pc.Holds K m ts)
    (hbuf : ∀ chunk, K.Buffered m chunk → K.Buffered m' chunk) :
    pc.Holds K m' (ts.watch m') := by
  have hnone : ts.run = none → (ts.watch m').run = none := fun hrun =>
    Option.map_eq_none_iff.mpr hrun
  have hsome : ∀ {r}, ts.run = some r → (ts.watch m').run = some (r.watch m') := fun hrun =>
    Option.map_eq_some_iff.mpr ⟨_, hrun, rfl⟩
  cases pc with
  | between => exact ⟨hnone h.1, h.2⟩
  | polling chunk => exact ⟨hnone h.1, h.2.1, hbuf chunk h.2.2⟩
  | sending chunk =>
      obtain ⟨hheld, hb, r, hr, hcall, hsrc⟩ := h
      refine ⟨hheld, hbuf chunk hb, r.watch m', hsome hr, hcall, ?_⟩
      have hsource := source_of_buffered (hbuf chunk hb)
      simp only [Running.watch, hsrc, hcall, hsource, Option.filter_some, decide_true, if_true]
  | draining => exact ⟨hnone h.1, h.2⟩
  | receiving =>
      obtain ⟨hheld, r, hr, hcall⟩ := h
      exact ⟨hheld, r.watch m', hsome hr, hcall⟩
  | handling pMessage =>
      refine ⟨h.1, fun r hr => ?_⟩
      obtain ⟨r', hr', rfl⟩ := Option.map_eq_some_iff.mp hr
      exact h.2 r' hr'
  | handled pMessage => exact ⟨hnone h.1, h.2⟩
  | freeing =>
      obtain ⟨hheld, r, pMessage, hr, hcall⟩ := h
      exact ⟨hheld, r.watch m', pMessage, hsome hr, hcall⟩

omit [DecidableEq Tid] in
theorem Pc.Holds.busy (h : pc.Holds K m ts) {r : Running} (hr : ts.run = some r) :
    (∃ chunk, pc = .sending chunk ∧ ts.held = [] ∧ K.Buffered m chunk ∧
        r.call = .send (usartLoopModuleProcess0 K chunk.length) ∧ r.src = some chunk) ∨
      (pc = .receiving ∧ ts.held = [] ∧ r.call = .receive 0) ∨
      (∃ pMessage, pc = .handling pMessage ∧ (∃ g, ts.held = [g] ∧ g.pMessage = pMessage ∧
        (g.msg.message = MESSAGE_USART_LOOP → g.touched = false)) ∧ r.call.Handler) ∨
      (pc = .freeing ∧ ts.held = [] ∧ ∃ pMessage, r.call = .free pMessage) := by
  have hbusy : ts.run ≠ none := by
    rw [hr]
    exact Option.some_ne_none r
  cases pc with
  | between => exact absurd h.1 hbusy
  | polling chunk => exact absurd h.1 hbusy
  | draining => exact absurd h.1 hbusy
  | handled pMessage => exact absurd h.1 hbusy
  | sending chunk =>
      obtain ⟨hheld, hb, r', hr', hcall, hsrc⟩ := h
      obtain rfl := Option.some.inj (hr.symm.trans hr')
      exact Or.inl ⟨chunk, rfl, hheld, hb, hcall, hsrc⟩
  | receiving =>
      obtain ⟨hheld, r', hr', hcall⟩ := h
      obtain rfl := Option.some.inj (hr.symm.trans hr')
      exact Or.inr (Or.inl ⟨rfl, hheld, hcall⟩)
  | handling pMessage => exact Or.inr (Or.inr (Or.inl ⟨pMessage, rfl, h.1, h.2 r hr⟩))
  | freeing =>
      obtain ⟨hheld, r', pMessage, hr', hcall⟩ := h
      obtain rfl := Option.some.inj (hr.symm.trans hr')
      exact Or.inr (Or.inr (Or.inr ⟨rfl, hheld, pMessage, hcall⟩))

omit [DecidableEq Tid] in
theorem Pc.Holds.act (h : pc.Holds K m ts) {r : Running} (hrun : ts.run = some r)
    (prog : Prog sig (ℕ × ℕ)) (seen : Seen) :
    pc.Holds K m { ts with run := some { r with prog := prog, seen := seen } } := by
  rcases h.busy hrun with ⟨chunk, rfl, hheld, hb, hcall, hsrc⟩ | ⟨rfl, hheld, hcall⟩ |
    ⟨pMessage, rfl, hg, hhandler⟩ | ⟨rfl, hheld, pMessage, hcall⟩
  · exact ⟨hheld, hb, _, rfl, hcall, hsrc⟩
  · exact ⟨hheld, _, rfl, hcall⟩
  · refine ⟨hg, ?_⟩
    rintro _ ⟨⟩
    exact hhandler
  · exact ⟨hheld, _, pMessage, rfl, hcall⟩

omit [DecidableEq Tid] in
theorem Pc.Holds.write (h : pc.Holds K m ts) (hother : ∃ pMessage, pc = .handling pMessage ∧
    load m 2 pMessage ≠ MESSAGE_USART_LOOP) (hheld : ∀ g ∈ ts.held, HeldOk K.toLayout m g)
    (a : ℕ) : pc.Holds K m { ts with held := ts.held.map (.write K.toLayout m a) } := by
  obtain ⟨pMessage, rfl, hne⟩ := hother
  obtain ⟨⟨g, hg, rfl, _⟩, hrun⟩ := h
  refine ⟨⟨g.write K.toLayout m a, ?_, rfl, fun hmessage => ?_⟩, hrun⟩
  · show ts.held.map _ = _
    rw [hg]
    rfl
  · have hhead := (hheld g (hg ▸ List.mem_cons_self)).head
    exact absurd ((congrArg Prod.fst hhead).trans hmessage) hne

theorem LoopOk.holds_step (h : LoopOk K x₀ s) (hallow : s.Allows K x₀ e)
    (hs : s.machine.step K.toLayout e = some t) (hcall : ∀ c, e ≠ .call x₀ c)
    (hret : e ≠ .ret x₀) : s.pc.Holds K t.shared.kernel.mem (t.task x₀) := by
  have hbuf : ∀ chunk, K.Buffered s.machine.shared.kernel.mem chunk →
      K.Buffered t.shared.kernel.mem chunk := fun chunk hb => hb.step h.machine.ok hallow hs
  rcases step_task hs hcall hret with htask | ⟨r, prog, seen, _, hrun, htask⟩ | ⟨a, w, rfl, htask⟩
  · rw [htask]
    exact h.holds.watch hbuf
  · rw [htask]
    exact (h.holds.act hrun prog seen).watch hbuf
  · rw [htask]
    have hother : s.Other := hallow.2 rfl
    refine Pc.Holds.watch (Pc.Holds.write h.holds ?_ (h.machine.ok.task x₀).held a) hbuf
    unfold Loop.Other at hother
    split at hother
    · rename_i pMessage hpc
      exact ⟨pMessage, hpc, hother⟩
    · cases hother

omit [DecidableEq Tid] in
/-- A call of a handler changes nothing but the blocks of the task. -/
theorem ret_handler {c : Call} (h : c.Handler) (m : Mem) (ts : TaskState) (r : ℕ × ℕ) :
    (ts.ret m c r).held = ts.held ∧ (ts.ret m c r).received = ts.received := by
  cases c with
  | get size =>
      show (if r.1 = 0 then _ else _ : TaskState).held = _ ∧
        (if r.1 = 0 then _ else _ : TaskState).received = _
      split <;> exact ⟨rfl, rfl⟩
  | put pblk => exact ⟨rfl, rfl⟩
  | _ => cases h

end Stm32Templet.Sys
