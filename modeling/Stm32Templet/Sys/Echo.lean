import Stm32Templet.Sys.Capacity
import Stm32Templet.Sys.LoopInvariant

/-! # What comes in goes out

`UsartLoop_ModuleProcess0` does not look at the result of `MSG_Send` and keeps nothing, so
what a failing call was given is lost.  A call of the module can fail for one reason, that an
allocation finds no free block: its length is at most 64, and the queue has room for every
message block.  So whenever the queue is empty between two iterations, the bytes passed on are
the bytes taken if and only if every allocation for bytes of the module has found a free block
(`echoed_iff_supplied`). -/

namespace Stm32Templet.Sys

open Memory Os Tasks Atomic Places Runs

variable {Tid : Type}

/-- An allocation for bytes of the module finds a free block. -/
def Supplied (x₀ : Tid) (s : Loop Tid) : LoopEvent Tid → Prop
  | .sys (.act x) => x = x₀ → ∀ chunk, s.pc = .sending chunk → chunk ≠ [] →
      ∀ p seen, s.machine.pending x₀ = some (.osMemGet p, seen) →
        s.machine.shared.kernel.freeList p ≠ []
  | _ => True

/-- Nothing is lost, and the call of the module has not failed. -/
def Loop.Intact (x₀ : Tid) (s : Loop Tid) : Prop :=
  s.lost = [] ∧ ∀ chunk r, s.pc = .sending chunk → chunk ≠ [] →
    (s.machine.task x₀).run = some r → r.seen.refused = false

variable [DecidableEq Tid] {K : LoopLayout} {x₀ : Tid} {s s' : Loop Tid} {chunk : List UInt8}
  {e : Event Tid} {t : Machine Tid}

/-! ### One event -/

omit [DecidableEq Tid] in
theorem intact_iff (h : ∀ chunk, s.pc ≠ .sending chunk) : s.Intact x₀ ↔ s.lost = [] :=
  and_iff_left fun chunk _ hpc => absurd hpc (h chunk)

omit [DecidableEq Tid] in
theorem intact_sending (hpc : s.pc = .sending chunk) {r : Running}
    (hr : (s.machine.task x₀).run = some r) :
    s.Intact x₀ ↔ s.lost = [] ∧ (chunk ≠ [] → r.seen.refused = false) := by
  refine and_congr_right fun _ => ⟨fun h hne => h chunk r hpc hne hr, ?_⟩
  intro h chunk' r' hpc' hne hr'
  obtain rfl := Pc.sending.inj (hpc.symm.trans hpc')
  obtain rfl := Option.some.inj (hr.symm.trans hr')
  exact h hne

theorem intact_act (h : LoopOk K x₀ s) (hpc : s.pc = .sending chunk)
    (hs : s.machine.step K.toLayout (.act x₀) = some t) :
    Loop.Intact x₀ { s with machine := t } ↔
      s.Intact x₀ ∧ Supplied x₀ s (.sys (.act x₀)) := by
  obtain ⟨c, a, k, src, seen, hrun, _, htask⟩ := step_act hs
  have hpending : s.machine.pending x₀ = some (a, seen) := by
    unfold Machine.pending
    rw [hrun]
  have hrun' : (t.task x₀).run = some (Running.watch t.shared.kernel.mem
      ⟨c, k (turn x₀ c src a (s.machine.shared, seen)).1, src,
        (turn x₀ c src a (s.machine.shared, seen)).2.2⟩) := by
    rw [htask]
    rfl
  rw [intact_sending (s := { s with machine := t }) hpc hrun', intact_sending hpc hrun, and_assoc]
  refine and_congr_right fun _ => ?_
  show (chunk ≠ [] → (turn x₀ c src a (s.machine.shared, seen)).2.2.refused = false) ↔ _
  rw [refused_turn h.machine.ok hrun]
  constructor
  · intro hall
    refine ⟨fun hne => (hall hne).1, ?_⟩
    rintro - chunk' hpc' hne p seen' hpending'
    obtain rfl := Pc.sending.inj (hpc.symm.trans hpc')
    cases hpending.symm.trans hpending'
    exact (hall hne).2 p rfl
  · rintro ⟨hseen, hsupplied⟩ hne
    refine ⟨hseen hne, ?_⟩
    rintro p rfl
    exact hsupplied rfl chunk hpc hne p seen hpending

theorem intact_beside (h : LoopOk K x₀ s) (hpc : s.pc = .sending chunk)
    (hs : s.machine.step K.toLayout e = some t) (hact : e ≠ .act x₀) (hret : e ≠ .ret x₀) :
    Loop.Intact x₀ { s with machine := t } ↔ s.Intact x₀ := by
  have hholds := h.holds
  rw [hpc] at hholds
  obtain ⟨_, _, r, hr, _⟩ := hholds
  have hcall : ∀ c, e ≠ .call x₀ c := by
    rintro c rfl
    obtain ⟨hidle, _⟩ := step_call hs
    rw [hr] at hidle
    cases hidle
  have hrun : ∃ r', (t.task x₀).run = some r' ∧ r'.seen = r.seen := by
    rcases step_task hs hcall hret with htask | ⟨_, _, _, he, _⟩ | ⟨_, _, _, htask⟩
    · rw [htask]
      exact ⟨_, Option.map_eq_some_iff.mpr ⟨r, hr, rfl⟩, rfl⟩
    · exact absurd he hact
    · rw [htask]
      exact ⟨_, Option.map_eq_some_iff.mpr ⟨r, hr, rfl⟩, rfl⟩
  obtain ⟨r', hr', hseen⟩ := hrun
  rw [intact_sending (s := { s with machine := t }) hpc hr', intact_sending hpc hr, hseen]

theorem intact_ret (h : LoopOk K x₀ s) (hpc : s.pc = .sending chunk)
    (hs : s.machine.step K.toLayout (.ret x₀) = some t) :
    (s.returned (s.machine.result x₀) t).Intact x₀ ↔ s.Intact x₀ := by
  have hholds := h.holds
  rw [hpc] at hholds
  obtain ⟨_, hbuf, r, hr, hcall, _⟩ := hholds
  obtain ⟨c, v, src, seen, hrun, _, _⟩ := step_ret hs
  obtain rfl := Option.some.inj (hrun.symm.trans hr)
  obtain rfl : c = _ := hcall
  obtain ⟨view, _, rfl, hdone⟩ := (h.machine.ok.task x₀).busy _ hrun
  rw [returned_sending hpc hrun, intact_iff (by simp), intact_sending hpc hrun]
  show (if v.2 = 0 then s.lost else s.lost ++ chunk) = [] ↔ _
  obtain ⟨_, _, ⟨hv, _, hrefused⟩ | ⟨hv, _, hrefused⟩⟩ := hdone
  · rw [if_pos hv]
    exact (and_iff_left fun _ => hrefused).symm
  · have hrefused' : view.seen.refused = true := by
      refine hrefused.resolve_right fun hbig => ?_
      have hlen : (UInt16.ofNat chunk.length).toNat > MEM_BIG_SIZE := hbig
      rw [hbuf.toNat] at hlen
      exact absurd (hlen.trans_le hbuf.1) (by decide)
    rw [if_neg hv, List.append_eq_nil_iff]
    refine and_congr_right fun _ => ⟨fun hnil hne => absurd hnil hne, fun hall => ?_⟩
    by_contra hne
    rw [hall hne] at hrefused'
    cases hrefused'

omit [DecidableEq Tid] in
theorem returned_other (h : ∀ chunk, s.pc ≠ .sending chunk) (r : ℕ × ℕ) (t : Machine Tid) :
    (s.returned r t).lost = s.lost ∧ ∀ chunk, (s.returned r t).pc ≠ .sending chunk := by
  unfold Loop.returned
  split
  · exact absurd (by assumption) (h _)
  · refine ⟨rfl, fun chunk => ?_⟩
    show (if r.1 = 0 then _ else _) ≠ _
    split <;> simp
  · exact ⟨rfl, by simp⟩
  · exact ⟨rfl, h⟩

omit [DecidableEq Tid] in
theorem intact_quiet (h : ∀ chunk, s.pc ≠ .sending chunk) (h' : ∀ chunk, s'.pc ≠ .sending chunk)
    (hlost : s'.lost = s.lost) : s'.Intact x₀ ↔ s.Intact x₀ := by
  rw [intact_iff h', intact_iff h, hlost]

theorem intact_machine (h : LoopOk K x₀ s) (hs : s.machine.step K.toLayout e = some t)
    (hret : e ≠ .ret x₀) :
    Loop.Intact x₀ { s with machine := t } ↔ s.Intact x₀ ∧ Supplied x₀ s (.sys e) := by
  by_cases hpc : ∃ chunk, s.pc = .sending chunk
  · obtain ⟨chunk, hpc⟩ := hpc
    by_cases hact : e = .act x₀
    · subst hact
      exact intact_act h hpc hs
    · refine (intact_beside h hpc hs hact hret).trans (and_iff_left ?_).symm
      cases e with
      | act x =>
          rintro rfl
          exact absurd rfl hact
      | _ => trivial
  · have hne : ∀ chunk, s.pc ≠ .sending chunk := fun chunk hc => hpc ⟨chunk, hc⟩
    have hsupplied : Supplied x₀ s (.sys e) := by
      cases e with
      | act x => exact fun _ chunk hc => absurd hc (hne chunk)
      | _ => trivial
    refine Iff.trans ?_ (and_iff_left hsupplied).symm
    exact intact_quiet hne hne rfl

/-- The call of the loop returns, if it is the one that sends. -/
theorem intact_returned (h : LoopOk K x₀ s)
    (hs : s.machine.step K.toLayout (.ret x₀) = some t) :
    (s.returned (s.machine.result x₀) t).Intact x₀ ↔ s.Intact x₀ := by
  by_cases hpc : ∃ chunk, s.pc = .sending chunk
  · obtain ⟨chunk, hpc⟩ := hpc
    exact intact_ret h hpc hs
  · have hne : ∀ chunk, s.pc ≠ .sending chunk := fun chunk hc => hpc ⟨chunk, hc⟩
    obtain ⟨hlost, hpc'⟩ := returned_other hne (s.machine.result x₀) t
    exact intact_quiet hne hpc' hlost

theorem intact_step (h : LoopOk K x₀ s) {ev : LoopEvent Tid} (hs : s.step K x₀ ev = some s') :
    s'.Intact x₀ ↔ s.Intact x₀ ∧ Supplied x₀ s ev := by
  cases ev with
  | poll =>
      obtain ⟨hpc, rfl⟩ := loop_poll hs
      refine Iff.trans ?_ (and_iff_left trivial).symm
      exact intact_quiet (by simp [hpc]) (by simp) rfl
  | getByte b =>
      obtain ⟨chunk, t, hpc, _, _, rfl⟩ := loop_getByte hs
      refine Iff.trans ?_ (and_iff_left trivial).symm
      exact intact_quiet (by simp [hpc]) (by simp) rfl
  | receive =>
      obtain ⟨t, hpc, _, rfl⟩ := loop_receive hs
      refine Iff.trans ?_ (and_iff_left trivial).symm
      exact intact_quiet (by simp [hpc]) (by simp) rfl
  | handle =>
      obtain ⟨pMessage, hpc, _, rfl⟩ := loop_handle hs
      refine Iff.trans ?_ (and_iff_left trivial).symm
      exact intact_quiet (by simp [hpc]) (by simp) rfl
  | free =>
      obtain ⟨pMessage, t, hpc, _, rfl⟩ := loop_free hs
      refine Iff.trans ?_ (and_iff_left trivial).symm
      exact intact_quiet (by simp [hpc]) (by simp) rfl
  | send =>
      obtain ⟨chunk, t, hpc, ht, rfl⟩ := loop_send hs
      obtain ⟨_, _, _, htask⟩ := step_call ht
      have hrun : ∃ r, (t.task x₀).run = some r ∧ r.seen = Seen.start := by
        rw [htask]
        exact ⟨_, rfl, rfl⟩
      obtain ⟨r, hr, hseen⟩ := hrun
      rw [intact_sending rfl hr, intact_iff (s := s) (by simp [hpc]), hseen]
      exact (and_iff_left fun _ => rfl).trans (and_iff_left trivial).symm
  | sys e =>
      obtain ⟨t, _, ht, rfl⟩ := loop_sys hs
      by_cases hret : e = .ret x₀
      · subst hret
        have hadvance : s.advance x₀ t (.ret x₀) = s.returned (s.machine.result x₀) t := if_pos rfl
        rw [hadvance]
        exact (intact_returned h ht).trans (and_iff_left trivial).symm
      · rw [advance_of_ne hret]
        exact intact_machine h ht hret

/-! ### Runs -/

/-- When the queue is empty between two iterations, the bytes passed on and kept are the bytes
taken, if and only if every allocation for them has found a free block. -/
theorem echoed_iff_supplied (K : LoopLayout) (x₀ : Tid) (mem : Mem)
    (OSQ_MSG : Fin TASK_NUM → ℕ → ℕ) {es : List (LoopEvent Tid)} {s : Loop Tid}
    (h : exec (Loop.step K x₀) (Loop.start K.toLayout mem OSQ_MSG) es = some s)
    (hpc : s.pc = .between) (hqueue : s.machine.shared.kernel.queued 0 = []) :
    s.echoed ++ s.kept K = s.taken ↔
      Along (Loop.step K x₀) (Supplied x₀) (Loop.start K.toLayout mem OSQ_MSG) es := by
  have hstart := loopOk_start K x₀ mem OSQ_MSG
  have hstep : ∀ (s : Loop Tid) e s', LoopOk K x₀ s → s.step K x₀ e = some s' →
      LoopOk K x₀ s' := fun _ _ _ hs ht => hs.step ht
  have hok : LoopOk K x₀ s := exec_invariant' hstep hstart h
  have hintact : s.Intact x₀ ↔ _ ∧ _ :=
    exec_iff hstep (fun _ _ _ hs ht => intact_step hs ht) hstart h
  have hbegin : (Loop.start K.toLayout mem OSQ_MSG : Loop Tid).Intact x₀ :=
    (intact_iff (by simp [Loop.start])).mpr rfl
  rw [intact_iff (by simp [hpc]), and_iff_right hbegin] at hintact
  -- all that was posted was received, and all that was received was handled
  have hreceiver : s.machine.inbox 0 = (s.machine.task x₀).received 0 := by
    obtain ⟨free, queue, hp⟩ := hok.machine.ok.sound
    have hholds := hok.holds
    rw [hpc] at hholds
    have hall : (s.machine.shared.received 0).filter (fun e => e.1 = x₀) =
        s.machine.shared.received 0 :=
      List.filter_eq_self.mpr fun e he => decide_eq_true (hok.machine.mine e he)
    have hreceived := (hok.machine.logged.task x₀).received 0
    have haccepting : (s.machine.task x₀).accepting 0 = [] := by
      unfold TaskState.accepting
      rw [hholds.1]
    rw [hall, haccepting, List.append_nil] at hreceived
    have hlog := hp.log 0
    rw [← hp.queued_eq, hqueue, List.map_nil, List.append_nil, hreceived] at hlog
    exact hlog
  have hecho : loops _ = s.echoed ++ loops (s.unhandled x₀) := hok.echo
  rw [unhandled_nil (by simp [hpc]), loops_nil, List.append_nil, ← hreceiver] at hecho
  have hpassed : s.passed x₀ = s.echoed := by
    unfold Loop.passed
    rw [unposted_nil (by simp [hpc]), List.append_nil, hecho]
  have hkept : s.kept K = [] := rfl
  obtain ⟨hlength, hwhole⟩ := hok.accounted
  rw [hpassed] at hlength hwhole
  rw [hkept, List.append_nil, ← hintact]
  constructor
  · intro heq
    apply List.eq_nil_of_length_eq_zero
    rw [heq] at hlength
    omega
  · exact fun hlost => (hwhole hlost).symm

/-- The buffer below the two arrays. -/
def sideBySideLoop : LoopLayout where
  toLayout := sideBySide
  usartBuf := 4096
  outside := by decide

/-- Before the first iteration, on memory filled with zeros. -/
def bootedLoop : Loop MainTask :=
  Loop.start sideBySideLoop.toLayout (fun _ => 0) fun _ _ => 0

/-- Accesses of task 0. -/
def accesses (n : ℕ) : List (LoopEvent MainTask) := List.replicate n (.sys (.act .start))

/-- Two bytes come in, in one iteration. -/
def twoBytes : List (LoopEvent MainTask) :=
  [.poll, .getByte 7, .getByte 8, .send] ++ accesses 11 ++ [.sys (.ret .start), .receive] ++
    accesses 2 ++ [.sys (.ret .start), .handle, .free] ++ accesses 2 ++
    [.sys (.ret .start), .receive] ++ accesses 1 ++ [.sys (.ret .start)]

theorem echoed_two_bytes :
    ∃ s, exec (Loop.step sideBySideLoop .start) bootedLoop twoBytes = some s ∧
      (s.echoed ++ s.kept sideBySideLoop = s.taken ↔
        Along (Loop.step sideBySideLoop .start) (Supplied .start) bootedLoop twoBytes) := by
  have hrun : (exec (Loop.step sideBySideLoop .start) bootedLoop twoBytes).map
      (fun s => (s.pc, s.machine.shared.kernel.queued 0)) = some (.between, []) := by
    decide +kernel
  obtain ⟨s, hs, hquiet⟩ := Option.map_eq_some_iff.mp hrun
  obtain ⟨hpc, hqueue⟩ := Prod.mk.inj hquiet
  exact ⟨s, hs, echoed_iff_supplied sideBySideLoop MainTask.start _ _ hs hpc hqueue⟩

/-- Task 1 takes all small blocks.  Then a byte comes in. -/
def withoutBlocks : List (LoopEvent MainTask) :=
  (List.replicate 30 [.sys (.call .one (.get 8)), .sys (.act .one), .sys (.ret .one)]).flatten ++
    [.poll, .getByte 7, .send] ++ accesses 1 ++ [.sys (.ret .start), .receive] ++ accesses 1 ++
    [.sys (.ret .start)]

/-- `MSG_Send` fails, and the byte is gone. -/
theorem byte_lost :
    ∃ s, exec (Loop.step sideBySideLoop .start) bootedLoop withoutBlocks = some s ∧
      s.pc = .between ∧ s.machine.shared.kernel.queued 0 = [] ∧
      s.echoed ++ s.kept sideBySideLoop ≠ s.taken := by
  have hrun : (exec (Loop.step sideBySideLoop .start) bootedLoop withoutBlocks).map
      (fun s => (s.pc, s.machine.shared.kernel.queued 0, s.echoed, s.taken)) =
      some (.between, [], [], [7]) := by
    decide +kernel
  obtain ⟨s, hs, hquiet⟩ := Option.map_eq_some_iff.mp hrun
  simp only [Prod.mk.injEq] at hquiet
  obtain ⟨hpc, hqueue, hechoed, htaken⟩ := hquiet
  refine ⟨s, hs, hpc, hqueue, ?_⟩
  rw [hechoed, htaken]
  exact (List.cons_ne_nil 7 []).symm

end Stm32Templet.Sys
