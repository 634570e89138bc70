import Stm32Templet.Sys.LoopState

/-! # The bytes on their way

Every event of the loop and of the other tasks keeps `LoopOk`.  A post of the module moves its
bytes from the call to the queue (`LoopOk.passed_step`); when its `MSG_Send` returns, they are
in the queue or lost (`LoopOk.ret_sending`); `MSG_Receive` takes messages out of the queue and
`Module_MsgHandle` passes their bytes on. -/

namespace Stm32Templet.Sys

open Memory Os Tasks Atomic Places Runs

variable {Tid : Type} [DecidableEq Tid] {K : LoopLayout} {x₀ : Tid} {s s' : Loop Tid} {m : Mem}
  {chunk : List UInt8} {e : Event Tid} {t : Machine Tid}

/-! ### The other tasks -/

/-- The events that keep queue 0 to the task. -/
theorem Machine.Dedicated.step {L : Layout} {s t : Machine Tid} (h : s.Dedicated L x₀)
    (hs : s.step L e = some t) (hcall : ∀ x c, e = .call x c → x ≠ x₀ → c.Foreign) :
    t.Dedicated L x₀ := by
  refine ⟨h.ok.step hs, h.logged.step h.ok hs, fun y hy r hr => ?_, fun e' he' => ?_⟩
  · by_cases hbegin : ∃ c, e = .call y c
    · obtain ⟨c, rfl⟩ := hbegin
      obtain ⟨_, _, _, htask⟩ := step_call hs
      rw [htask] at hr
      obtain rfl := Option.some.inj hr
      exact hcall y c rfl hy
    · obtain ⟨_, r₀, hr₀, hsame⟩ := run_step hs hr fun c hc => hbegin ⟨c, hc⟩
      exact hsame ▸ h.others y hy r₀ hr₀
  · rcases step_received h.ok hs 0 with hsame | ⟨x, r, msg, _, hr, hrcall, hnew⟩
    · exact h.mine e' (hsame ▸ he')
    · rw [hnew] at he'
      rcases List.mem_append.mp he' with he' | he'
      · exact h.mine e' he'
      · obtain rfl := List.mem_singleton.mp he'
        by_contra hx
        have hforeign := h.others x hx r hr
        rw [hrcall] at hforeign
        exact hforeign rfl

theorem Machine.Dedicated.call {L : Layout} {s t : Machine Tid} (h : s.Dedicated L x₀) {c : Call}
    (hs : s.step L (.call x₀ c) = some t) : t.Dedicated L x₀ := by
  apply h.step hs
  intro x c hx hne
  cases hx
  exact absurd rfl hne

/-! ### The bytes that were sent -/

theorem posting_step {s t : Machine Tid} {y : Tid} {new : List (Post Tid)} {L : Layout}
    (hlog : s.Logged) (hlog' : t.Logged) (hs : s.step L e = some t) (hret : e ≠ .ret y)
    (hnew : t.shared.posted = s.shared.posted ++ new) :
    (t.task y).posting =
      (s.task y).posting ++ (new.filter fun e => e.sender = y).map Post.call := by
  have hsent := (hlog.task y).sent
  have hsent' := (hlog'.task y).sent
  rw [hnew, List.filter_append, List.map_append, hsent, (step_sent hs hret).1,
    List.append_assoc] at hsent'
  exact (List.append_cancel_left hsent').symm

omit [DecidableEq Tid] in
theorem inbox_append {s t : Machine Tid} {new : List (Post Tid)}
    (h : t.shared.posted = s.shared.posted ++ new) (q : Fin TASK_NUM) :
    t.inbox q = s.inbox q ++ (new.filter fun e => e.call.task = q).map Post.msg := by
  unfold Machine.inbox
  rw [h, List.filter_append, List.map_append]

omit [DecidableEq Tid] in
theorem loops_foreign {e : Post Tid} (h : (Call.send e.call).Foreign) :
    loops (([e].filter fun e => e.call.task = 0).map Post.msg) = [] := by
  by_cases htask : e.call.task = 0
  · have hmessage : e.msg.message ≠ MESSAGE_USART_LOOP := fun hm => h ⟨htask, hm⟩
    simp only [List.filter_cons, htask, decide_true, if_true, List.filter_nil, List.map_cons,
      List.map_nil]
    exact loops_other hmessage
  · simp [htask]

/-- A call of `MSG_Send` by the task is that of the module. -/
theorem LoopOk.sending (h : LoopOk K x₀ s) {r : Running} {d : Send}
    (hr : (s.machine.task x₀).run = some r) (hd : r.call = .send d) :
    ∃ chunk, s.pc = .sending chunk ∧ d = usartLoopModuleProcess0 K chunk.length ∧
      r.src = some chunk := by
  rcases h.holds.busy hr with ⟨chunk, hpc, _, _, hcall, hsrc⟩ | ⟨_, _, hcall⟩ |
    ⟨_, _, _, hhandler⟩ | ⟨_, _, _, hcall⟩
  · exact ⟨chunk, hpc, Call.send.inj (hd.symm.trans hcall), hsrc⟩
  · cases hd.symm.trans hcall
  · rw [hd] at hhandler
    cases hhandler
  · cases hd.symm.trans hcall

/-- A post of the module moves its bytes from the call to the queue. -/
theorem LoopOk.passed_step (h : LoopOk K x₀ s) (hs : s.machine.step K.toLayout e = some t)
    (hret : e ≠ .ret x₀) : Loop.passed x₀ { s with machine := t } = s.passed x₀ := by
  have hok := h.machine.ok
  have hlog := h.machine.logged
  have hlog' := hlog.step hok hs
  unfold Loop.passed
  rcases step_posted hok hs with hp | ⟨x, d, r, rfl, hr, hd, hp⟩
  · rw [← List.append_nil s.machine.shared.posted] at hp
    have hinbox := inbox_append hp 0
    have hposting := posting_step hlog hlog' hs hret hp
    simp only [List.filter_nil, List.map_nil, List.append_nil] at hinbox hposting
    rw [hinbox]
    unfold Loop.unposted
    rw [hposting]
  · rw [inbox_append hp 0, loops_append]
    have hposting := posting_step hlog hlog' hs hret hp
    by_cases hx : x = x₀
    · subst hx
      obtain ⟨chunk, hpc, rfl, hsrc⟩ := h.sending hr hd
      have hgood : Post.Good ⟨x, usartLoopModuleProcess0 K chunk.length, r.seen.read, r.src⟩ :=
        hlog'.good _ (hp ▸ List.mem_append_right _ List.mem_cons_self)
      have hread : r.seen.read = chunk := hgood.2 chunk hsrc
      have hlen := (t.task x).length_posting
      rw [hposting, List.length_append] at hlen
      have hnil : (s.machine.task x).posting = [] := by
        apply List.eq_nil_of_length_eq_zero
        simpa using hlen
      have hcons : (t.task x).posting ≠ [] := by
        rw [hposting]
        simp
      have hmsg : loops [(⟨x, usartLoopModuleProcess0 K chunk.length, r.seen.read, r.src⟩ :
          Post Tid).msg] = chunk := (loops_own rfl).trans hread
      rw [unposted_sending (s := { s with machine := t }) hpc, unposted_sending hpc, hnil,
        if_neg hcons, if_pos rfl, List.append_nil]
      exact congrArg _ hmsg
    · have hforeign := h.machine.others x hx r hr
      rw [hd] at hforeign
      simp only [List.filter_cons, hx, decide_false, Bool.false_eq_true, if_false,
        List.filter_nil, List.map_nil, List.append_nil] at hposting
      rw [loops_foreign hforeign, List.append_nil]
      unfold Loop.unposted
      rw [hposting]

/-! ### A call of the task returns -/

/-- A call of `MSG_Send` has posted its message if and only if it returns `OS_ERR_NONE`. -/
theorem ret_posting {L : Layout} {s t : Machine Tid} (hlog : s.Logged) (hlog' : t.Logged)
    (hs : s.step L (.ret x₀) = some t) {d : Send} {v : ℕ × ℕ} {src : Option (List UInt8)}
    {seen : Seen} (hrun : (s.task x₀).run = some ⟨.send d, .ret v, src, seen⟩) :
    (s.task x₀).posting = [] ↔ v.2 ≠ OS_ERR_NONE := by
  obtain ⟨c, v', src', seen', hrun', hshared, htask⟩ := step_ret hs
  cases hrun.symm.trans hrun'
  have hsent := (hlog.task x₀).sent
  have hsent' := (hlog'.task x₀).sent
  rw [hshared, hsent, htask] at hsent'
  have hlogs : (s.task x₀).sent ++ (s.task x₀).posting =
      (if v.2 = 0 then (s.task x₀).sent ++ [d] else (s.task x₀).sent) ++ [] := hsent'
  rw [List.append_nil] at hlogs
  split at hlogs
  · rename_i hv
    rw [List.append_cancel_left hlogs]
    exact iff_of_false (List.cons_ne_nil d []) fun hne => hne hv
  · rename_i hv
    exact iff_of_true (List.append_right_eq_self.mp hlogs) hv

omit [DecidableEq Tid] in
theorem returned_sending (hpc : s.pc = .sending chunk) {c : Call} {v : ℕ × ℕ}
    {src : Option (List UInt8)} {seen : Seen}
    (hrun : (s.machine.task x₀).run = some ⟨c, .ret v, src, seen⟩) (t : Machine Tid) :
    s.returned (s.machine.result x₀) t = { s with
      machine := t
      pc := .draining
      lost := if v.2 = OS_ERR_NONE then s.lost else s.lost ++ chunk } := by
  unfold Loop.returned Machine.result
  rw [hpc, hrun]

/-- `MSG_Send` returns.  What it was given is in the queue, or lost. -/
theorem LoopOk.ret_sending (h : LoopOk K x₀ s) (hpc : s.pc = .sending chunk)
    (hs : s.machine.step K.toLayout (.ret x₀) = some t) :
    LoopOk K x₀ (s.returned (s.machine.result x₀) t) := by
  have hmachine := h.machine.step hs (by rintro x c ⟨⟩)
  have hholds := h.holds
  rw [hpc] at hholds
  obtain ⟨hnil, _, r, hr, hcall, _⟩ := hholds
  obtain ⟨c, v, src, seen, hrun, hshared, htask⟩ := step_ret hs
  obtain rfl := Option.some.inj (hrun.symm.trans hr)
  obtain rfl : c = _ := hcall
  have hposting := ret_posting h.machine.logged hmachine.logged hs hrun
  have hinbox : t.inbox 0 = s.machine.inbox 0 := by
    unfold Machine.inbox
    rw [hshared]
  obtain ⟨hlength, hwhole⟩ := h.accounted
  unfold Loop.passed at hlength hwhole
  rw [unposted_sending hpc] at hlength hwhole
  rw [returned_sending hpc hrun]
  refine ⟨hmachine, ?_, h.echo.congr ?_ rfl (unhandled_quiet (by simp [hpc]) (by simp)), ?_, ?_⟩
  · show (t.task x₀).run = none ∧ (t.task x₀).held = []
    rw [htask]
    exact ⟨TaskState.ret_run _ _ _ _, hnil⟩
  · show (t.task x₀).received = _
    rw [htask]
    rfl
  · unfold Loop.passed
    rw [unposted_nil (by simp)]
    show s.taken.length = (loops (t.inbox 0) ++ []).length + List.length (if _ then _ else _)
    rw [hinbox, hlength, List.append_nil]
    by_cases hv : v.2 = OS_ERR_NONE
    · rw [if_pos hv, if_neg fun hp => hposting.mp hp hv, List.append_nil]
    · rw [if_neg hv, if_pos (hposting.mpr hv), List.length_append, List.length_append]
      omega
  · unfold Loop.passed
    rw [unposted_nil (by simp)]
    show (if _ then _ else _) = [] → s.taken = loops (t.inbox 0) ++ []
    rw [hinbox, List.append_nil]
    by_cases hv : v.2 = OS_ERR_NONE
    · rw [if_pos hv]
      intro hlost
      rw [hwhole hlost, if_neg fun hp => hposting.mp hp hv, List.append_nil]
    · rw [if_neg hv]
      intro hboth
      obtain ⟨hlost, rfl⟩ := List.append_eq_nil_iff.mp hboth
      rw [hwhole hlost, ite_self, List.append_nil]

theorem LoopOk.ret_receiving (h : LoopOk K x₀ s) (hpc : s.pc = .receiving)
    (hs : s.machine.step K.toLayout (.ret x₀) = some t) :
    LoopOk K x₀ (s.returned (s.machine.result x₀) t) := by
  have hmachine := h.machine.step hs (by rintro x c ⟨⟩)
  have hholds := h.holds
  rw [hpc] at hholds
  obtain ⟨hnil, r, hr, hcall⟩ := hholds
  obtain ⟨c, v, src, seen, hrun, hshared, htask⟩ := step_ret hs
  obtain rfl := Option.some.inj (hrun.symm.trans hr)
  obtain rfl : c = _ := hcall
  have hreturned : s.returned (s.machine.result x₀) t = { s with
      machine := t
      pc := if v.1 = 0 then .between else .handling v.1 } := by
    unfold Loop.returned Machine.result
    rw [hpc, hrun]
  have hecho : loops _ = s.echoed ++ loops (s.unhandled x₀) := h.echo
  rw [unhandled_nil (by simp [hpc])] at hecho
  have hne : ∀ chunk, (if v.1 = 0 then Pc.between else .handling v.1) ≠ .sending chunk := by
    intro chunk
    split <;> simp
  have hshow : (s.machine.task x₀).ret s.machine.shared.kernel.mem (.receive 0) v =
    if v.1 = 0 then _ else _ := rfl
  rw [hreturned]
  refine ⟨hmachine, ?_, ?_, h.accounted.congr rfl rfl
    (passed_quiet (congrArg Shared.posted hshared) (by simp [hpc]) hne)⟩
  · show Pc.Holds K _ (t.task x₀) (if v.1 = 0 then Pc.between else .handling v.1)
    rw [htask, hshow]
    by_cases hv : v.1 = 0
    · rw [if_pos hv, if_pos hv]
      exact ⟨rfl, hnil⟩
    · rw [if_neg hv, if_neg hv]
      refine ⟨⟨_, congrArg (List.cons _) hnil, rfl, fun _ => rfl⟩, ?_⟩
      rintro _ ⟨⟩
  · unfold Loop.Echoes
    by_cases hv : v.1 = 0
    · rw [unhandled_nil (by simp [hv])]
      show loops ((t.task x₀).received 0) = _
      rw [htask, hshow, if_pos hv]
      exact hecho
    · simp only [Loop.unhandled, if_neg hv]
      show loops ((t.task x₀).received 0) = _
      rw [htask, hshow, if_neg hv, hnil]
      simp only [Function.update_self, loops_append, hecho]
      simp

theorem LoopOk.ret_handling (h : LoopOk K x₀ s) {pMessage : ℕ} (hpc : s.pc = .handling pMessage)
    (hs : s.machine.step K.toLayout (.ret x₀) = some t) :
    LoopOk K x₀ (s.returned (s.machine.result x₀) t) := by
  have hmachine := h.machine.step hs (by rintro x c ⟨⟩)
  have hholds := h.holds
  rw [hpc] at hholds
  obtain ⟨hheld, hhandler⟩ := hholds
  obtain ⟨c, v, src, seen, hrun, hshared, htask⟩ := step_ret hs
  have hret := ret_handler (hhandler _ hrun) s.machine.shared.kernel.mem (s.machine.task x₀) v
  have hreturned : s.returned (s.machine.result x₀) t = { s with machine := t } := by
    unfold Loop.returned
    rw [hpc]
  rw [hreturned]
  refine ⟨hmachine, ?_, h.echo.congr ?_ rfl ?_, h.accounted.congr rfl rfl
    (passed_quiet (congrArg Shared.posted hshared) (by simp [hpc]) (by simp [hpc]))⟩
  · show s.pc.Holds K _ (t.task x₀)
    rw [hpc, htask]
    refine ⟨hret.1 ▸ hheld, fun r hr => ?_⟩
    rw [TaskState.ret_run] at hr
    cases hr
  · show (t.task x₀).received = _
    rw [htask, hret.2]
  · unfold Loop.unhandled
    simp only [hpc, htask, hret.1]

theorem LoopOk.ret_freeing (h : LoopOk K x₀ s) (hpc : s.pc = .freeing)
    (hs : s.machine.step K.toLayout (.ret x₀) = some t) :
    LoopOk K x₀ (s.returned (s.machine.result x₀) t) := by
  have hmachine := h.machine.step hs (by rintro x c ⟨⟩)
  have hholds := h.holds
  rw [hpc] at hholds
  obtain ⟨hnil, r, pMessage, hr, hcall⟩ := hholds
  obtain ⟨c, v, src, seen, hrun, hshared, htask⟩ := step_ret hs
  obtain rfl := Option.some.inj (hrun.symm.trans hr)
  obtain rfl : c = _ := hcall
  have hreturned : s.returned (s.machine.result x₀) t = { s with
      machine := t
      pc := .draining } := by
    unfold Loop.returned
    rw [hpc]
  rw [hreturned]
  refine ⟨hmachine, ?_, h.echo.congr ?_ rfl (unhandled_quiet (by simp [hpc]) (by simp)),
    h.accounted.congr rfl rfl
      (passed_quiet (congrArg Shared.posted hshared) (by simp [hpc]) (by simp))⟩
  · show (t.task x₀).run = none ∧ (t.task x₀).held = []
    rw [htask]
    exact ⟨rfl, hnil⟩
  · show (t.task x₀).received = _
    rw [htask]
    rfl

theorem LoopOk.ret (h : LoopOk K x₀ s) (hs : s.machine.step K.toLayout (.ret x₀) = some t) :
    LoopOk K x₀ (s.returned (s.machine.result x₀) t) := by
  obtain ⟨c, v, src, seen, hrun, _⟩ := step_ret hs
  rcases h.holds.busy hrun with ⟨chunk, hpc, _⟩ | ⟨hpc, _⟩ | ⟨pMessage, hpc, _⟩ | ⟨hpc, _⟩
  · exact h.ret_sending hpc hs
  · exact h.ret_receiving hpc hs
  · exact h.ret_handling hpc hs
  · exact h.ret_freeing hpc hs

/-! ### The steps of the loop -/

theorem LoopLayout.Buffered.push (h : K.Buffered m chunk) (hlen : chunk.length < USART_BUF_SIZE)
    (b : UInt8) :
    K.Buffered (Function.update m (K.usartBuf + chunk.length) b) (chunk ++ [b]) := by
  refine ⟨by rw [List.length_append]; exact hlen, bytes_eq fun i hi => ?_⟩
  rw [List.length_append, List.length_singleton] at hi
  by_cases hlast : i = chunk.length
  · subst hlast
    rw [Function.update_self, List.getElem_concat_length rfl]
  · have hi' : i < chunk.length := by omega
    rw [Function.update_of_ne (by omega), List.getElem_append_left hi']
    have hbyte := getElem_bytes (m := m) (a := K.usartBuf) (n := chunk.length) (i := i)
      (by rw [length_bytes]; exact hi')
    rw [← hbyte]
    exact List.getElem_of_eq h.2 _

theorem LoopOk.poll (h : LoopOk K x₀ s) (hs : s.step K x₀ .poll = some s') :
    LoopOk K x₀ s' := by
  obtain ⟨hpc, rfl⟩ := loop_poll hs
  have hholds := h.holds
  rw [hpc] at hholds
  exact ⟨h.machine, ⟨hholds.1, hholds.2, by decide, rfl⟩,
    h.echo.congr rfl rfl (unhandled_quiet (by simp [hpc]) (by simp)),
    h.accounted.congr rfl rfl (passed_quiet rfl (by simp [hpc]) (by simp))⟩

theorem LoopOk.getByte (h : LoopOk K x₀ s) {b : UInt8}
    (hs : s.step K x₀ (.getByte b) = some s') : LoopOk K x₀ s' := by
  obtain ⟨chunk, t, hpc, hlen, ht, rfl⟩ := loop_getByte hs
  have hmachine := h.machine.step ht (by rintro x c ⟨⟩)
  have hholds := h.holds
  rw [hpc] at hholds
  obtain ⟨hidle, hnil, hbuf⟩ := hholds
  have hreceived := (step_sent ht (y := x₀) (by simp)).2
  obtain ⟨u, hu, rfl⟩ := step_eq ht
  obtain ⟨_, rfl⟩ := next_write hu
  refine ⟨hmachine, ⟨?_, ?_, hbuf.push hlen b⟩,
    h.echo.congr hreceived rfl (unhandled_quiet (by simp [hpc]) (by simp)),
    h.accounted.congr rfl rfl (passed_quiet rfl (by simp [hpc]) (by simp))⟩
  · simp [Machine.watch, TaskState.watch, hidle]
  · simp [Machine.watch, TaskState.watch, hnil]

theorem LoopOk.send (h : LoopOk K x₀ s) (hs : s.step K x₀ .send = some s') :
    LoopOk K x₀ s' := by
  obtain ⟨chunk, t, hpc, ht, rfl⟩ := loop_send hs
  have hmachine := h.machine.call ht
  have hholds := h.holds
  rw [hpc] at hholds
  obtain ⟨hidle, hnil, hbuf⟩ := hholds
  obtain ⟨_, _, hshared, htask⟩ := step_call ht
  have hsource := source_of_buffered hbuf
  have hpassed : Loop.passed x₀ ⟨t, .sending chunk, s.taken ++ chunk, s.lost, s.echoed⟩ =
      s.passed x₀ ++ chunk := by
    unfold Loop.passed Machine.inbox
    rw [unposted_sending rfl, unposted_nil (s := s) (by simp [hpc])]
    have hposting : (t.task x₀).posting = [] := by
      rw [htask]
      rfl
    show _ ++ (if (t.task x₀).posting = [] then chunk else []) = _
    rw [hshared, hposting, if_pos rfl, List.append_nil]
  refine ⟨hmachine, ?_, h.echo.congr ?_ rfl (unhandled_quiet (by simp [hpc]) (by simp)), ?_,
    fun hlost => ?_⟩
  · show Pc.Holds K t.shared.kernel.mem (t.task x₀) (.sending chunk)
    rw [hshared, htask]
    refine ⟨hnil, hbuf, _, rfl, rfl, ?_⟩
    simp only [Running.watch, hsource, Option.filter_some, decide_true, if_true]
  · show (t.task x₀).received = _
    rw [htask]
    rfl
  · rw [hpassed]
    show (s.taken ++ chunk).length = _ + s.lost.length
    rw [List.length_append, List.length_append, h.accounted.1]
    omega
  · rw [hpassed]
    exact congrArg (· ++ chunk) (h.accounted.2 hlost)

theorem LoopOk.receive (h : LoopOk K x₀ s) (hs : s.step K x₀ .receive = some s') :
    LoopOk K x₀ s' := by
  obtain ⟨t, hpc, ht, rfl⟩ := loop_receive hs
  have hmachine := h.machine.call ht
  have hholds := h.holds
  rw [hpc] at hholds
  obtain ⟨_, _, hshared, htask⟩ := step_call ht
  refine ⟨hmachine, ?_, h.echo.congr ?_ rfl (unhandled_quiet (by simp [hpc]) (by simp)),
    h.accounted.congr rfl rfl
      (passed_quiet (congrArg Shared.posted hshared) (by simp [hpc]) (by simp))⟩
  · show Pc.Holds K _ (t.task x₀) .receiving
    rw [htask]
    exact ⟨hholds.2, _, rfl, rfl⟩
  · show (t.task x₀).received = _
    rw [htask]
    rfl

theorem LoopOk.free (h : LoopOk K x₀ s) (hs : s.step K x₀ .free = some s') :
    LoopOk K x₀ s' := by
  obtain ⟨pMessage, t, hpc, ht, rfl⟩ := loop_free hs
  have hmachine := h.machine.call ht
  have hholds := h.holds
  rw [hpc] at hholds
  obtain ⟨_, g, hg, rfl⟩ := hholds
  obtain ⟨_, _, hshared, htask⟩ := step_call ht
  refine ⟨hmachine, ?_, h.echo.congr ?_ rfl (unhandled_quiet (by simp [hpc]) (by simp)),
    h.accounted.congr rfl rfl
      (passed_quiet (congrArg Shared.posted hshared) (by simp [hpc]) (by simp))⟩
  · show Pc.Holds K _ (t.task x₀) .freeing
    rw [htask]
    refine ⟨?_, _, g.pMessage, rfl, rfl⟩
    show (s.machine.task x₀).held.eraseP _ = []
    rw [hg]
    simp
  · show (t.task x₀).received = _
    rw [htask]
    rfl

theorem LoopOk.handle (h : LoopOk K x₀ s) (hs : s.step K x₀ .handle = some s') :
    LoopOk K x₀ s' := by
  obtain ⟨pMessage, hpc, hidle, rfl⟩ := loop_handle hs
  have hholds := h.holds
  rw [hpc] at hholds
  obtain ⟨⟨g, hg, rfl, htouched⟩, _⟩ := hholds
  have hheld := (h.machine.ok.task x₀).held g (hg ▸ List.mem_cons_self)
  have hmessage : load s.machine.shared.kernel.mem 2 g.pMessage = g.msg.message :=
    congrArg Prod.fst hheld.head
  have hecho : loops _ = s.echoed ++ loops (s.unhandled x₀) := h.echo
  have hun : s.unhandled x₀ = [g.msg] := by
    unfold Loop.unhandled
    simp only [hpc, hg, List.map_cons, List.map_nil]
  rw [hun] at hecho
  refine ⟨h.machine, ⟨hidle, g, hg, rfl⟩, ?_,
    h.accounted.congr rfl rfl (passed_quiet rfl (by simp [hpc]) (by simp))⟩
  unfold Loop.Echoes
  rw [unhandled_nil (by simp)]
  show loops ((s.machine.task x₀).received 0) = moduleMsgHandle _ 0 s.echoed ++ []
  rw [moduleMsgHandle_handle, hmessage, hecho, List.append_nil]
  by_cases hm : g.msg.message = MESSAGE_USART_LOOP
  · rw [if_pos hm, loops_own hm, hheld.intact (htouched hm)]
  · rw [if_neg hm, loops_other hm, List.append_nil]

theorem LoopOk.beside (h : LoopOk K x₀ s) (hallow : s.Allows K x₀ e)
    (hs : s.machine.step K.toLayout e = some t) (hcall : ∀ c, e ≠ .call x₀ c)
    (hret : e ≠ .ret x₀) : LoopOk K x₀ { s with machine := t } := by
  have hmachine := h.machine.step hs fun x c hx hne => by
    subst hx
    have hforeign : if x = x₀ then _ else c.Foreign := hallow
    rwa [if_neg hne] at hforeign
  have hholds := h.holds_step hallow hs hcall hret
  refine ⟨hmachine, hholds, h.echo.congr (step_sent hs hret).2 rfl ?_,
    h.accounted.congr rfl rfl (h.passed_step hs hret)⟩
  have hheld : (t.task x₀).held.map Held.msg = (s.machine.task x₀).held.map Held.msg := by
    rcases step_task hs hcall hret with htask | ⟨_, _, _, _, _, htask⟩ | ⟨a, w, _, htask⟩
    · rw [htask]
      rfl
    · rw [htask]
      rfl
    · rw [htask]
      exact List.map_map
  unfold Loop.unhandled
  rw [hheld]

theorem LoopOk.call (h : LoopOk K x₀ s) {c : Call} (hallow : s.Allows K x₀ (.call x₀ c))
    (hs : s.machine.step K.toLayout (.call x₀ c) = some t) :
    LoopOk K x₀ { s with machine := t } := by
  have hmachine := h.machine.call hs
  have hboth : if x₀ = x₀ then s.Other ∧ c.Handler else c.Foreign := hallow
  rw [if_pos rfl] at hboth
  obtain ⟨hother, hhandler⟩ := hboth
  obtain ⟨_, _, hshared, htask⟩ := step_call hs
  have hheld : (t.task x₀).held = (s.machine.task x₀).held := by
    rw [htask]
    cases c with
    | get size => rfl
    | put pblk => rfl
    | _ => cases hhandler
  have hholds := h.holds
  unfold Loop.Other at hother
  split at hother
  · rename_i pMessage hpc
    rw [hpc] at hholds
    refine ⟨hmachine, ?_, h.echo.congr ?_ rfl ?_, h.accounted.congr rfl rfl
      (passed_quiet (congrArg Shared.posted hshared) (by simp [hpc]) (by simp [hpc]))⟩
    · show s.pc.Holds K _ (t.task x₀)
      rw [hpc]
      refine ⟨hheld ▸ hholds.1, fun r hr => ?_⟩
      rw [htask] at hr
      obtain rfl := Option.some.inj hr
      exact hhandler
    · show (t.task x₀).received = _
      rw [htask]
      rfl
    · unfold Loop.unhandled
      rw [hheld]
  · cases hother

theorem LoopOk.step (h : LoopOk K x₀ s) {ev : LoopEvent Tid} (hs : s.step K x₀ ev = some s') :
    LoopOk K x₀ s' := by
  cases ev with
  | poll => exact h.poll hs
  | getByte b => exact h.getByte hs
  | send => exact h.send hs
  | receive => exact h.receive hs
  | handle => exact h.handle hs
  | free => exact h.free hs
  | sys e =>
      obtain ⟨t, hallow, ht, rfl⟩ := loop_sys hs
      by_cases hret : e = .ret x₀
      · subst hret
        have hadvance : s.advance x₀ t (.ret x₀) = s.returned (s.machine.result x₀) t := if_pos rfl
        rw [hadvance]
        exact h.ret ht
      · rw [advance_of_ne hret]
        by_cases hcall : ∃ c, e = .call x₀ c
        · obtain ⟨c, rfl⟩ := hcall
          exact h.call hallow ht
        · exact h.beside hallow ht (fun c hc => hcall ⟨c, hc⟩) hret

theorem loopOk_start (K : LoopLayout) (x₀ : Tid) (mem : Mem) (OSQ_MSG : Fin TASK_NUM → ℕ → ℕ) :
    LoopOk K x₀ (Loop.start K.toLayout mem OSQ_MSG) where
  machine :=
    { ok := ok_start K.toLayout mem OSQ_MSG
      logged := logged_of_reachable ⟨mem, OSQ_MSG, [], rfl⟩
      others := by rintro y _ r ⟨⟩
      mine := by rintro e ⟨⟩ }
  holds := ⟨rfl, rfl⟩
  echo := rfl
  accounted := ⟨rfl, fun _ => rfl⟩

end Stm32Templet.Sys
