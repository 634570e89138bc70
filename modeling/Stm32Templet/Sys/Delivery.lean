import Stm32Templet.Sys.Conservation

/-! # Messages arrive once, in order and unchanged

`delivered`: in every reachable state the messages posted to a queue are, in the order of the
posts, those accepted from it followed by those in the queue.  What a task has posted are the
calls of `MSG_Send` that have returned `OS_ERR_NONE`, and the one that is about to; what it
has accepted are the messages `MSG_Receive` has returned, and the one it is about to return.
A call of `MSG_Receive` looks into the queue once: it returns the message at the head, which
leaves the queue, or `NULL` if the queue is empty (`fetched`).
A posted message has the head that the arguments say and as payload the bytes that the call
has read from `pData`: those that stood there when the call began, unless they were changed
before the post.  Until it is freed the receiver finds all this unchanged. -/

namespace Stm32Templet.Sys

open Memory Os Tasks Atomic Places Runs

variable {Tid : Type} [DecidableEq Tid] {L : Layout}

/-! ### The logs of the tasks -/

/-- The call that has posted its message and not returned yet. -/
def TaskState.posting (ts : TaskState) : List Send :=
  match ts.run with
  | some ⟨.send d, _, _, seen⟩ => if seen.posted.isSome then [d] else []
  | _ => []

/-- The message that was accepted and not returned yet. -/
def TaskState.accepting (ts : TaskState) (t : Fin TASK_NUM) : List Msg :=
  match ts.run with
  | some ⟨.receive t', _, _, seen⟩ => if t' = t then seen.accepted.toList else []
  | _ => []

omit [DecidableEq Tid] in
theorem TaskState.posting_watch (ts : TaskState) (m : Mem) :
    (ts.watch m).posting = ts.posting := by
  obtain ⟨held, blks, sent, received, run⟩ := ts
  cases run with
  | none => rfl
  | some r =>
      obtain ⟨c, _, _, _⟩ := r
      cases c <;> rfl

omit [DecidableEq Tid] in
theorem TaskState.accepting_watch (ts : TaskState) (m : Mem) (t : Fin TASK_NUM) :
    (ts.watch m).accepting t = ts.accepting t := by
  obtain ⟨held, blks, sent, received, run⟩ := ts
  cases run with
  | none => rfl
  | some r =>
      obtain ⟨c, _, _, _⟩ := r
      cases c <;> rfl

/-- The history of a task agrees with the common one. -/
structure TaskLog (s : Shared Tid) (x : Tid) (ts : TaskState) : Prop where
  sent : (s.posted.filter fun e => e.sender = x).map Post.call = ts.sent ++ ts.posting
  received : ∀ t, ((s.received t).filter fun e => e.1 = x).map Prod.snd =
    ts.received t ++ ts.accepting t
  held : ∀ g ∈ ts.held, (ts.received g.task)[g.index]? = some g.msg
  read : ∀ r, ts.run = some r → ∀ l, r.src = some l →
    r.seen.read = l.take r.seen.read.length

/-- The entry of a posted message. -/
def Post.Good (e : Post Tid) : Prop :=
  e.payload.length = e.call.len.toNat ∧ ∀ l, e.src = some l → e.payload = l

structure Machine.Logged (s : Machine Tid) : Prop where
  task : ∀ x, TaskLog s.shared x (s.task x)
  now : ∀ x r, (s.task x).run = some r → ∀ l, r.src = some l →
    r.call.source s.shared.kernel.mem = some l
  good : ∀ e ∈ s.shared.posted, e.Good

variable {s : Shared Tid} {x y : Tid} {ts : TaskState} {c : Call} {a : Act} {v : View}
  {src : Option (List UInt8)} {seen : Seen}

/-! ### An access -/

theorem TaskLog.other (h : TaskLog s y ts) (hy : y ≠ x) (c : Call) (src : Option (List UInt8))
    (seen : Seen) (a : Act) : TaskLog (turn x c src a (s, seen)).2.1 y ts := by
  have hxy : x ≠ y := fun he => hy he.symm
  refine ⟨?_, fun t => ?_, h.held, h.read⟩
  · rw [← h.sent]
    congr 1
    cases a with
    | osQPost t b =>
        simp only [turn, Shared.perform]
        split
        · rw [List.filter_append]
          cases c <;> simp [Call.job, hxy]
        · rfl
    | _ => rfl
  · rw [← h.received t]
    congr 1
    cases a with
    | osQAccept t' =>
        simp only [turn, Shared.perform]
        split
        · by_cases ht : t = t'
          · subst ht
            simp [hxy]
          · rw [Function.update_of_ne ht]
        · rfl
    | _ => rfl

theorem read_next {d : Send} {m : Mem} {read : List UInt8} (hlt : read.length < d.len.toNat)
    (htake : read = (bytes m d.pData d.len.toNat).take read.length) :
    read ++ [UInt8.ofNat (load m 1 (d.pData + read.length))] =
      (bytes m d.pData d.len.toNat).take (read.length + 1) := by
  have hlen : read.length < (bytes m d.pData d.len.toNat).length := by
    rw [length_bytes]
    exact hlt
  rw [List.take_succ_eq_append_getElem hlen, ← htake, getElem_bytes, load_one,
    UInt8.ofNat_toNat]

section Act

variable {k : a.Res → Prog sig (ℕ × ℕ)} (h : TaskLog s x ts)
  (hrun : ts.run = some ⟨c, .act a k, src, v.seen⟩) (hpre : (callSpec L c).pre v a)

include h hrun hpre

theorem TaskLog.act_sent :
    ((turn x c src a (s, v.seen)).2.1.posted.filter fun e => e.sender = x).map Post.call =
      ts.sent ++ TaskState.posting { ts with
        run := some ⟨c, k (turn x c src a (s, v.seen)).1, src,
          (turn x c src a (s, v.seen)).2.2⟩ } := by
  have hsent := h.sent
  simp only [TaskState.posting, hrun] at hsent
  cases a with
  | osQPost t b =>
      obtain ⟨hposted, _, ⟨d, rfl, _, _⟩, _⟩ := hpre
      simp only [hposted, Option.isSome_none, Bool.false_eq_true, if_false,
        List.append_nil] at hsent
      simp only [turn, Shared.perform, Seen.after, TaskState.posting, Call.job]
      split
      · rw [List.filter_append, List.map_append, hsent]
        simp
      · rw [hsent, hposted]
        simp
  | _ =>
      refine hsent.trans ?_
      simp only [TaskState.posting, turn]
      congr 1
      cases c with
      | send d =>
          simp only
          rw [Seen.posted_after _ _ _ (by simp)]
      | _ => rfl

theorem TaskLog.act_received (t : Fin TASK_NUM) :
    (((turn x c src a (s, v.seen)).2.1.received t).filter fun e => e.1 = x).map Prod.snd =
      ts.received t ++ TaskState.accepting { ts with
        run := some ⟨c, k (turn x c src a (s, v.seen)).1, src,
          (turn x c src a (s, v.seen)).2.2⟩ } t := by
  have hreceived := h.received
  simp only [TaskState.accepting, hrun] at hreceived
  cases a with
  | osQAccept t' =>
      obtain ⟨_, haccepted, _, rfl⟩ := hpre
      simp only [haccepted, Option.toList_none, ite_self, List.append_nil] at hreceived
      simp only [turn, Shared.perform, Seen.after, TaskState.accepting]
      split
      · by_cases ht : t' = t
        · subst ht
          rw [Function.update_self, List.filter_append, List.map_append, hreceived]
          simp
        · rw [Function.update_of_ne fun he => ht he.symm, hreceived, if_neg ht,
            List.append_nil]
      · rw [hreceived, haccepted]
        simp
  | osQPost t' b =>
      obtain ⟨_, _, ⟨d, rfl, _, _⟩, _⟩ := hpre
      exact hreceived t
  | _ =>
      refine (hreceived t).trans ?_
      simp only [TaskState.accepting, turn]
      congr 1
      cases c with
      | receive t' =>
          simp only
          rw [Seen.accepted_after _ _ _ (by simp)]
      | _ => rfl

/-- What is read are the bytes of the source, one after the other. -/
theorem TaskLog.act_read (hnow : ∀ l, src = some l → c.source s.kernel.mem = some l)
    {l : List UInt8} (hl : src = some l) :
    (turn x c src a (s, v.seen)).2.2.read =
      l.take (turn x c src a (s, v.seen)).2.2.read.length := by
  have hread := h.read _ hrun
  cases a with
  | load n b =>
      by_cases hn : n = 1
      · subst hn
        have hnext : v.Next c b := by
          cases hp : v.seen.posted with
          | none => exact (hpre.2 hp).elim (fun h => absurd rfl h.1) fun h => h.2
          | some p => exact absurd (hpre.1 p hp).1 (by decide)
        obtain ⟨d, rfl, hlt, rfl⟩ := hnext
        obtain rfl := Option.some.inj (hnow l hl)
        have hstep := read_next hlt (hread _ hl)
        simp only [turn, Seen.after, if_true, List.length_append, List.length_singleton]
        exact hstep
      · simp only [turn, Seen.after, if_neg hn]
        exact hread l hl
  | osMemGet p =>
      simp only [turn, Seen.after]
      split <;> exact hread l hl
  | osQPost t b =>
      simp only [turn, Seen.after]
      split <;> exact hread l hl
  | osQAccept t =>
      simp only [turn, Seen.after]
      split <;> exact hread l hl
  | _ => exact hread l hl

end Act

theorem TaskLog.act (h : TaskLog s x ts) {k : a.Res → Prog sig (ℕ × ℕ)}
    (hrun : ts.run = some ⟨c, .act a k, src, seen⟩) (hpre : (callSpec L c).pre v a)
    (hseen : v.seen = seen) (hnow : ∀ l, src = some l → c.source s.kernel.mem = some l) :
    let r := turn x c src a (s, seen)
    TaskLog r.2.1 x { ts with run := some ⟨c, k r.1, src, r.2.2⟩ } := by
  intro r
  subst hseen
  refine ⟨h.act_sent hrun hpre, h.act_received hrun hpre, h.held, ?_⟩
  intro r' hr' l hl
  obtain rfl := Option.some.inj hr'
  exact h.act_read hrun hpre hnow hl

/-- A message that is posted is the one that was to be sent. -/
theorem good_of_pre (h : TaskLog s x ts) {k : a.Res → Prog sig (ℕ × ℕ)}
    (hrun : ts.run = some ⟨c, .act a k, src, seen⟩) (hpre : (callSpec L c).pre v a)
    (hseen : v.seen = seen) (hnow : ∀ l, src = some l → c.source s.kernel.mem = some l)
    (hgood : ∀ e ∈ s.posted, e.Good) :
    ∀ e ∈ (turn x c src a (s, seen)).2.1.posted, e.Good := by
  subst hseen
  cases a with
  | osQPost t b =>
      obtain ⟨_, _, ⟨d, rfl, _, hmsg⟩, _⟩ := hpre
      simp only [turn, Shared.perform, Call.job, Option.toList_some]
      split
      · intro e he
        rcases List.mem_append.mp he with he | he
        · exact hgood e he
        · obtain rfl := List.mem_singleton.mp he
          have hlen : v.seen.read.length = d.len.toNat := by
            have hpayload := congrArg (fun m => m.payload.length) hmsg
            have hhead := congrArg Msg.len hmsg
            simp only [decode, Send.msg, length_bytes] at hpayload hhead
            exact hpayload.symm.trans hhead
          refine ⟨hlen, fun l hl => ?_⟩
          have htake := h.read _ hrun l hl
          obtain rfl := Option.some.inj (hnow l hl)
          refine htake.trans (List.take_of_length_le ?_)
          rw [length_bytes, hlen]
      · exact hgood
  | _ => exact hgood

/-! ### The other events -/

theorem TaskLog.call (h : TaskLog s x ts) (hidle : ts.run = none) (m : Mem) (c : Call) :
    TaskLog s x (ts.call L m c) := by
  have hsent := h.sent
  have hreceived := h.received
  simp only [TaskState.posting, TaskState.accepting, hidle] at hsent hreceived
  refine ⟨hsent.trans ?_, fun t => (hreceived t).trans ?_,
    fun g hg => h.held g (ts.call_held c hg), ?_⟩
  · cases c <;> rfl
  · cases c with
    | receive t' => simp [TaskState.call, TaskState.accepting, Seen.start]
    | _ => rfl
  · rintro r hr l hl
    obtain rfl := Option.some.inj hr
    rfl

theorem TaskLog.ret {rest : List ℕ} {r : ℕ × ℕ} (h : TaskLog s x ts)
    (hrun : ts.run = some ⟨c, .ret r, src, seen⟩) (hact : Acting L x rest s v)
    (hseen : v.seen = seen) (hdone : c.Done L r v) : TaskLog s x (ts.ret s.kernel.mem c r) := by
  subst hseen
  have hsent := h.sent
  have hreceived := h.received
  simp only [TaskState.posting, TaskState.accepting, hrun] at hsent hreceived
  cases c with
  | send d =>
      obtain ⟨_, _, ⟨hr, hposted, _⟩ | ⟨hr, hposted, _⟩⟩ := hdone
      · refine ⟨?_, hreceived, h.held, by rintro _ ⟨⟩⟩
        simp only [hposted, if_true] at hsent
        simp only [TaskState.ret, hr, if_true, TaskState.posting, List.append_nil, hsent]
      · refine ⟨?_, hreceived, h.held, by rintro _ ⟨⟩⟩
        simp only [hposted, Option.isSome_none, Bool.false_eq_true, if_false] at hsent
        simp only [TaskState.ret, hr, if_false, TaskState.posting, hsent]
  | receive t =>
      have hshow : ts.ret s.kernel.mem (.receive t) r = if r.1 = 0 then _ else _ := rfl
      obtain ⟨_, ⟨hr, _, haccepted⟩ | ⟨hr, hf, hgot, haccepted⟩⟩ := hdone
      · rw [hshow, if_pos hr]
        refine ⟨hsent, fun t' => ?_, h.held, by rintro _ ⟨⟩⟩
        simpa [haccepted, TaskState.accepting] using hreceived t'
      · have hmsg : decode v.mem r.1 = decode s.kernel.mem r.1 :=
          decode_congr hf (hact.same_message (List.Perm.of_eq hgot))
        rw [hshow, if_neg hr]
        refine ⟨hsent, fun t' => ?_, fun g hg => ?_, by rintro _ ⟨⟩⟩
        · rw [hreceived t']
          by_cases ht : t = t'
          · subst ht
            simp [haccepted, hmsg, TaskState.accepting]
          · have ht' : t' ≠ t := fun he => ht he.symm
            simp [ht, ht', TaskState.accepting]
        · rcases List.mem_cons.mp hg with rfl | hg'
          · simp
          · have hold := h.held g hg'
            by_cases ht : g.task = t
            · obtain ⟨hlt, _⟩ := List.getElem?_eq_some_iff.mp hold
              rw [← ht]
              simp only [Function.update_self]
              rw [List.getElem?_append_left hlt]
              exact hold
            · simp only [Function.update_of_ne ht]
              exact hold
  | free pMessage => exact ⟨hsent, hreceived, h.held, by rintro _ ⟨⟩⟩
  | put pblk => exact ⟨hsent, hreceived, h.held, by rintro _ ⟨⟩⟩
  | get size =>
      show TaskLog s x (if r.1 = 0 then _ else _)
      split <;> exact ⟨hsent, hreceived, h.held, by rintro _ ⟨⟩⟩

theorem TaskLog.write (h : TaskLog s x ts) (m : Mem) (b : ℕ) :
    TaskLog s x { ts with held := ts.held.map (.write L m b) } where
  sent := h.sent
  received := h.received
  held := by
    intro g hg
    obtain ⟨g', hg', rfl⟩ := List.mem_map.mp hg
    exact h.held g' hg'
  read := h.read

theorem TaskLog.watch (h : TaskLog s x ts) (m : Mem) : TaskLog s x (ts.watch m) := by
  refine ⟨?_, fun t => ?_, h.held, fun r hr l hl => ?_⟩
  · rw [ts.posting_watch m]
    exact h.sent
  · rw [ts.accepting_watch m]
    exact h.received t
  · obtain ⟨r', hr', rfl⟩ := Option.map_eq_some_iff.mp hr
    exact h.read r' hr' l (Option.mem_filter_iff.mp hl).1

theorem TaskLog.set {s : Machine Tid} {shared : Shared Tid} (hx : TaskLog shared x ts)
    (hother : ∀ y, y ≠ x → TaskLog shared y (s.task y)) :
    ∀ y, TaskLog shared y ((s.set shared x ts).task y) := by
  intro y
  by_cases hy : y = x
  · subst hy
    rw [Machine.set_task_self]
    exact hx
  · rw [Machine.set_task_of_ne _ _ hy]
    exact hother y hy

theorem Machine.Logged.step {s s' : Machine Tid} (hok : s.Ok L) (h : s.Logged) {e : Event Tid}
    (hs : s.step L e = some s') : s'.Logged := by
  obtain ⟨t, ht, rfl⟩ := step_eq hs
  suffices hlog : (∀ x, TaskLog t.shared x (t.task x)) ∧ ∀ e ∈ t.shared.posted, e.Good by
    refine ⟨fun x => (hlog.1 x).watch _, fun x r hr l hl => ?_, hlog.2⟩
    obtain ⟨r', _, rfl⟩ := Option.map_eq_some_iff.mp hr
    exact of_decide_eq_true (Option.mem_filter_iff.mp hl).2
  cases e with
  | call x c =>
      obtain ⟨hidle, hmay, rfl⟩ := next_call ht
      exact ⟨TaskLog.set ((h.task x).call hidle _ c) fun y _ => h.task y, h.good⟩
  | act x =>
      obtain ⟨c, a, k, src, seen, hrun, rfl⟩ := next_act ht
      obtain ⟨v, _, hseen, hpre, _⟩ := (hok.task x).busy _ hrun
      have hnow := h.now x _ hrun
      exact ⟨TaskLog.set ((h.task x).act hrun hpre hseen hnow)
        fun y hy => (h.task y).other hy c src seen a,
        good_of_pre (h.task x) hrun hpre hseen hnow h.good⟩
  | ret x =>
      obtain ⟨c, r, src, seen, hrun, rfl⟩ := next_ret ht
      obtain ⟨v, hact, hseen, hdone⟩ := (hok.task x).busy _ hrun
      exact ⟨TaskLog.set ((h.task x).ret hrun hact hseen hdone) fun y _ => h.task y, h.good⟩
  | write x a b =>
      obtain ⟨hmay, rfl⟩ := next_write ht
      refine ⟨TaskLog.set ?_ fun y _ => ?_, h.good⟩
      · have hw := (h.task x).write (L := L) s.shared.kernel.mem a
        exact ⟨hw.sent, hw.received, hw.held, hw.read⟩
      · exact ⟨(h.task y).sent, (h.task y).received, (h.task y).held, (h.task y).read⟩

theorem logged_of_reachable {s : Machine Tid} (h : Reachable L s) : s.Logged := by
  obtain ⟨mem, OSQ_MSG, es, hes⟩ := h
  have hstart : (Machine.start L mem OSQ_MSG : Machine Tid).Logged := by
    refine ⟨fun x => ⟨rfl, fun _ => rfl, fun g hg => ?_, ?_⟩, ?_, fun e he => ?_⟩
    · cases hg
    · rintro r ⟨⟩
    · rintro x r ⟨⟩
    · cases he
  refine (exec_invariant' (I := fun s => s.Ok L ∧ s.Logged) (fun s e s' hs ht => ?_)
    ⟨ok_start L mem OSQ_MSG, hstart⟩ hes).2
  exact ⟨hs.1.step ht, hs.2.step hs.1 ht⟩

/-! ### What an event adds to the logs -/

/-- An event posts at most one message, that of a call of `MSG_Send`. -/
theorem step_posted {s s' : Machine Tid} (hok : s.Ok L) {e : Event Tid}
    (hs : s.step L e = some s') :
    s'.shared.posted = s.shared.posted ∨
      ∃ x d r, e = .act x ∧ (s.task x).run = some r ∧ r.call = .send d ∧
        s'.shared.posted = s.shared.posted ++ [⟨x, d, r.seen.read, r.src⟩] := by
  obtain ⟨t, ht, rfl⟩ := step_eq hs
  cases e with
  | call x c =>
      obtain ⟨_, _, rfl⟩ := next_call ht
      exact Or.inl rfl
  | ret x =>
      obtain ⟨c, r, src, seen, _, rfl⟩ := next_ret ht
      exact Or.inl rfl
  | write x a b =>
      obtain ⟨_, rfl⟩ := next_write ht
      exact Or.inl rfl
  | act x =>
      obtain ⟨c, a, k, src, seen, hrun, rfl⟩ := next_act ht
      obtain ⟨v, _, _, hpre, _⟩ := (hok.task x).busy _ hrun
      cases a with
      | osQPost t b =>
          obtain ⟨_, _, ⟨d, rfl, _⟩, _⟩ := hpre
          show (s.shared.perform x ((Call.send d).job x src seen) (.osQPost t b)).2.posted = _ ∨ _
          simp only [Shared.perform]
          split
          · rename_i hr
            refine Or.inr ⟨x, d, _, rfl, hrun, rfl, ?_⟩
            simp [Machine.watch, turn, Shared.perform, hr, Call.job]
          · exact Or.inl rfl
      | _ => exact Or.inl rfl

/-- An event accepts at most one message of a queue, for a call of `MSG_Receive`. -/
theorem step_received {s s' : Machine Tid} (hok : s.Ok L) {e : Event Tid}
    (hs : s.step L e = some s') (t : Fin TASK_NUM) :
    s'.shared.received t = s.shared.received t ∨
      ∃ x r m, e = .act x ∧ (s.task x).run = some r ∧ r.call = .receive t ∧
        s'.shared.received t = s.shared.received t ++ [(x, m)] := by
  obtain ⟨u, ht, rfl⟩ := step_eq hs
  cases e with
  | call x c =>
      obtain ⟨_, _, rfl⟩ := next_call ht
      exact Or.inl rfl
  | ret x =>
      obtain ⟨c, r, src, seen, _, rfl⟩ := next_ret ht
      exact Or.inl rfl
  | write x a b =>
      obtain ⟨_, rfl⟩ := next_write ht
      exact Or.inl rfl
  | act x =>
      obtain ⟨c, a, k, src, seen, hrun, rfl⟩ := next_act ht
      obtain ⟨v, _, _, hpre, _⟩ := (hok.task x).busy _ hrun
      cases a with
      | osQAccept t' =>
          obtain ⟨_, _, _, rfl⟩ := hpre
          show (s.shared.perform x ((Call.receive t').job x src seen)
            (.osQAccept t')).2.received t = _ ∨ _
          simp only [Shared.perform]
          split
          · rename_i hr
            by_cases ht' : t = t'
            · subst ht'
              refine Or.inr ⟨x, _, decode s.shared.kernel.mem
                (osQAccept (s.shared.kernel.QMessage t)).1.1, rfl, hrun, rfl, ?_⟩
              simp only [Machine.watch, Machine.set_shared, turn, Shared.perform, hr, if_true]
              exact Function.update_self _ _ _
            · exact Or.inl (Function.update_of_ne ht' _ _)
          · exact Or.inl rfl
      | _ => exact Or.inl rfl

theorem step_sent {s s' : Machine Tid} {e : Event Tid} (hs : s.step L e = some s') {y : Tid}
    (hy : e ≠ .ret y) :
    (s'.task y).sent = (s.task y).sent ∧ (s'.task y).received = (s.task y).received := by
  by_cases hy' : y = e.tid
  · obtain ⟨t, ht, rfl⟩ := step_eq hs
    show (t.task y).sent = _ ∧ (t.task y).received = _
    cases e with
    | call x c =>
        obtain ⟨_, _, rfl⟩ := next_call ht
        obtain rfl : y = x := hy'
        rw [Machine.set_task_self]
        exact ⟨rfl, rfl⟩
    | act x =>
        obtain ⟨c, a, k, src, seen, _, rfl⟩ := next_act ht
        obtain rfl : y = x := hy'
        rw [Machine.set_task_self]
        exact ⟨rfl, rfl⟩
    | ret x =>
        obtain rfl : y = x := hy'
        exact absurd rfl hy
    | write x a b =>
        obtain ⟨_, rfl⟩ := next_write ht
        obtain rfl : y = x := hy'
        rw [Machine.set_task_self]
        exact ⟨rfl, rfl⟩
  · rw [step_other hs hy']
    exact ⟨rfl, rfl⟩

theorem TaskState.length_posting (ts : TaskState) : ts.posting.length ≤ 1 := by
  unfold posting
  split
  · split <;> simp
  · simp

/-! ### A call of `MSG_Receive` -/

/-- The call of `MSG_Receive(t)` that task `x` begins in the state `s` is about to return
`pMessage` in the state `s'`, after the events `es`. -/
def Receiving (L : Layout) (s : Machine Tid) (x : Tid) (t : Fin TASK_NUM) (es : List (Event Tid))
    (s' : Machine Tid) (pMessage : ℕ) : Prop :=
  exec (Machine.step L) s (.call x (.receive t) :: es) = some s' ∧ .ret x ∉ es ∧
    ∃ err src seen, (s'.task x).run = some ⟨.receive t, .ret (pMessage, err), src, seen⟩

/-- Task `x` takes the head of the queue, which is `pMessage`; a `NULL` means that it has found
the queue empty. -/
def Fetched (s : Machine Tid) (x : Tid) (t : Fin TASK_NUM) (s' : Machine Tid) (pMessage : ℕ) :
    Prop :=
  match s.shared.kernel.queued t with
  | [] => pMessage = 0 ∧ s'.shared = s.shared
  | a :: l => pMessage = a ∧ a ≠ 0 ∧ s'.shared.kernel.queued t = l ∧
      s'.shared.received t = s.shared.received t ++ [(x, decode s.shared.kernel.mem a)]

/-- What the call may return was open before. -/
theorem mayReturn_step {s s' : Machine Tid} {e : Event Tid} (hs : s.step L e = some s')
    {c : Call} {p : Prog sig (ℕ × ℕ)} (hrun : (s.task x).run = some ⟨c, p, src, seen⟩)
    (hret : e ≠ .ret x) : ∃ p' src' seen', (s'.task x).run = some ⟨c, p', src', seen'⟩ ∧
      (∀ r, p'.MayReturn r → p.MayReturn r) ∧ (e ≠ .act x → p' = p) := by
  have hcall : ∀ c', e ≠ .call x c' := by
    rintro c' rfl
    rw [(step_call hs).1] at hrun
    cases hrun
  rcases step_task hs hcall hret with h | ⟨r, p', seen', rfl, hr, h⟩ | ⟨a, w, rfl, h⟩
  · exact ⟨p, _, seen, by rw [h, TaskState.watch, hrun]; rfl, fun _ h => h, fun _ => rfl⟩
  · obtain ⟨c', a, k, src', seen'', hrun', _, htask⟩ := step_act hs
    obtain ⟨rfl, rfl, rfl, rfl⟩ := Running.mk.inj (Option.some.inj (hrun.symm.trans hrun'))
    exact ⟨_, _, _, by rw [htask]; rfl, fun _ h => ⟨_, h⟩, fun h => absurd rfl h⟩
  · exact ⟨p, _, seen, by rw [h, TaskState.watch, hrun]; rfl, fun _ h => h, fun _ => rfl⟩

theorem mayReturn_exec {s s' : Machine Tid} {es : List (Event Tid)}
    (hes : exec (Machine.step L) s es = some s') {c : Call} {p : Prog sig (ℕ × ℕ)}
    (hrun : (s.task x).run = some ⟨c, p, src, seen⟩) (hret : .ret x ∉ es) :
    ∃ p' src' seen', (s'.task x).run = some ⟨c, p', src', seen'⟩ ∧
      ∀ r, p'.MayReturn r → p.MayReturn r := by
  induction es generalizing s p src seen with
  | nil =>
      cases hes
      exact ⟨p, src, seen, hrun, fun _ h => h⟩
  | cons e es ih =>
      obtain ⟨t, ht, hes⟩ := exec_cons.mp hes
      obtain ⟨he, hret⟩ := List.ne_and_not_mem_of_not_mem_cons hret
      obtain ⟨q, _, _, hq, hmay, _⟩ := mayReturn_step ht hrun fun h => he h.symm
      obtain ⟨p', _, _, hp', hmay'⟩ := ih hes hq hret
      exact ⟨p', _, _, hp', fun r hr => hmay r (hmay' r hr)⟩

/-- A call that has not made its first access makes it before it returns. -/
theorem first_access {s s' : Machine Tid} {es : List (Event Tid)}
    (hes : exec (Machine.step L) s es = some s') {c : Call} {a : Act}
    {k : a.Res → Prog sig (ℕ × ℕ)} (hrun : (s.task x).run = some ⟨c, .act a k, src, seen⟩)
    (hret : .ret x ∉ es) {r : ℕ × ℕ} {src' : Option (List UInt8)} {seen' : Seen}
    (hdone : (s'.task x).run = some ⟨c, .ret r, src', seen'⟩) :
    ∃ es₁ es₂ u u', es = es₁ ++ .act x :: es₂ ∧ exec (Machine.step L) s es₁ = some u ∧
      u.step L (.act x) = some u' ∧ exec (Machine.step L) u' es₂ = some s' ∧
      ∃ src₁ seen₁, (u.task x).run = some ⟨c, .act a k, src₁, seen₁⟩ := by
  induction es generalizing s src seen with
  | nil =>
      cases hes
      cases hrun.symm.trans hdone
  | cons e es ih =>
      obtain ⟨t, ht, hrest⟩ := exec_cons.mp hes
      obtain ⟨he, hret⟩ := List.ne_and_not_mem_of_not_mem_cons hret
      by_cases hact : e = .act x
      · subst hact
        exact ⟨[], es, s, t, rfl, rfl, ht, hrest, src, seen, hrun⟩
      · obtain ⟨p, _, _, hp, _, hsame⟩ := mayReturn_step ht hrun fun h => he h.symm
        obtain rfl := hsame hact
        obtain ⟨es₁, es₂, u, u', rfl, hu, hu', hes₂, hrun₁⟩ := ih hrest hp hret
        exact ⟨e :: es₁, es₂, u, u', rfl, exec_cons.mpr ⟨t, ht, hu⟩, hu', hes₂, hrun₁⟩

theorem fetched_step {s s' : Machine Tid} (hok : s.Ok L) {t : Fin TASK_NUM}
    {k : ℕ × ℕ → Prog sig (ℕ × ℕ)}
    (hrun : (s.task x).run = some ⟨.receive t, .act (.osQAccept t) k, src, seen⟩)
    (hs : s.step L (.act x) = some s') : ∃ err src' seen' pMessage,
      (s'.task x).run = some ⟨.receive t, k (pMessage, err), src', seen'⟩ ∧
        Fetched s x t s' pMessage := by
  obtain ⟨c, a, k', src', seen', hrun', hshared, htask⟩ := step_act hs
  obtain ⟨rfl, hact, rfl, rfl⟩ := Running.mk.inj (Option.some.inj (hrun.symm.trans hrun'))
  cases hact
  obtain ⟨free, queue, hp⟩ := hok.sound
  refine ⟨(turn x (.receive t) src (.osQAccept t) (s.shared, seen)).1.2, _, _,
    (turn x (.receive t) src (.osQAccept t) (s.shared, seen)).1.1, by rw [htask]; rfl, ?_⟩
  unfold Fetched
  rw [hp.queued_eq, hshared]
  cases hq : queue t with
  | nil =>
      simp only [turn, hp.accept_nil _ hq]
      exact ⟨trivial, trivial⟩
  | cons a l =>
      obtain ⟨u, hu, hp', _, _, _, hreceived⟩ :=
        hp.accept (x := x) ((Call.receive t).job x src seen) hq
      simp only [turn, hu, hp'.queued_eq, hreceived, Function.update_self]
      exact ⟨trivial, (hp.formed t a (hq ▸ List.mem_cons_self)).block.pos.ne', trivial, trivial⟩

theorem mayReturn_received {a err pMessage : ℕ}
    (h : Prog.MayReturn ((if a = 0 then .ret a
      else .act (.load 2 a) fun _ => .ret a : Prog sig ℕ) >>= fun b => .ret (b, 0))
      (pMessage, err)) : pMessage = a := by
  split at h
  · exact (Prod.mk.inj h).1.symm
  · obtain ⟨_, h⟩ := h
    exact (Prod.mk.inj h).1.symm

theorem fetched {s s' : Machine Tid} (h : Reachable L s) {t : Fin TASK_NUM}
    {es : List (Event Tid)} {pMessage : ℕ} (hcall : Receiving L s x t es s' pMessage) :
    ∃ es₁ es₂ u u', es = es₁ ++ .act x :: es₂ ∧
      exec (Machine.step L) s (.call x (.receive t) :: es₁) = some u ∧
      u.step L (.act x) = some u' ∧ exec (Machine.step L) u' es₂ = some s' ∧
      Fetched u x t u' pMessage := by
  obtain ⟨hes, hret, err, src, seen, hdone⟩ := hcall
  obtain ⟨s₁, hs₁, hes⟩ := exec_cons.mp hes
  obtain ⟨_, _, _, htask⟩ := step_call hs₁
  have hrun : (s₁.task x).run = some ⟨.receive t, (Call.receive t).prog L, none, Seen.start⟩ := by
    rw [htask]
    rfl
  obtain ⟨es₁, es₂, u, u', rfl, hu, hu', hes₂, src₁, seen₁, hrun₁⟩ :=
    first_access hes hrun hret hdone
  have hreach : Reachable L u := by
    obtain ⟨mem, OSQ_MSG, es₀, hes₀⟩ := h
    exact ⟨mem, OSQ_MSG, _, exec_append.mpr ⟨s, hes₀, exec_cons.mpr ⟨s₁, hs₁, hu⟩⟩⟩
  obtain ⟨err', src₂, seen₂, a, hrun₂, hfetched⟩ :=
    fetched_step (ok_of_reachable hreach) hrun₁ hu'
  refine ⟨es₁, es₂, u, u', rfl, exec_cons.mpr ⟨s₁, hs₁, hu⟩, hu', hes₂, ?_⟩
  obtain ⟨p, _, _, hp, hmay⟩ := mayReturn_exec hes₂ hrun₂ fun hin =>
    hret (List.mem_append_right _ (List.mem_cons_of_mem _ hin))
  obtain rfl := (Running.mk.inj (Option.some.inj (hp.symm.trans hdone))).2.1
  obtain rfl : pMessage = a := mayReturn_received (hmay _ rfl)
  exact hfetched

/-! ### Delivery -/

/-- What has become of the messages. -/
structure Delivered (L : Layout) (s : Machine Tid) : Prop where
  /-- First in, first out, nothing lost and nothing doubled. -/
  fifo : ∀ t, (s.shared.posted.filter fun e => e.call.task = t).map Post.msg =
    (s.shared.received t).map Prod.snd ++
      (s.shared.kernel.queued t).map (decode s.shared.kernel.mem)
  /-- The posts are the successful calls of `MSG_Send`. -/
  sent : ∀ x, (s.shared.posted.filter fun e => e.sender = x).map Post.call =
    (s.task x).sent ++ (s.task x).posting
  /-- The accepted messages are those that `MSG_Receive` returns. -/
  received : ∀ x t, ((s.shared.received t).filter fun e => e.1 = x).map Prod.snd =
    (s.task x).received t ++ (s.task x).accepting t
  /-- A queue with one receiver: what it gets, and what it still has to get. -/
  receiver : ∀ x t, (∀ e ∈ s.shared.received t, e.1 = x) →
    (s.shared.posted.filter fun e => e.call.task = t).map Post.msg =
      (s.task x).received t ++ (s.task x).accepting t ++
        (s.shared.kernel.queued t).map (decode s.shared.kernel.mem)
  /-- The payload has the length asked for and is what stood at `pData`. -/
  payload : ∀ e ∈ s.shared.posted,
    e.payload.length = e.call.len.toNat ∧ ∀ l, e.src = some l → e.payload = l
  /-- A call of `MSG_Receive` makes one access to the queue and returns what it finds there:
  the head, which leaves the queue, or `NULL` if the queue is empty. -/
  receive : ∀ x t es s' pMessage, Receiving L s x t es s' pMessage →
    ∃ es₁ es₂ u u', es = es₁ ++ .act x :: es₂ ∧
      exec (Machine.step L) s (.call x (.receive t) :: es₁) = some u ∧
      u.step L (.act x) = some u' ∧ exec (Machine.step L) u' es₂ = some s' ∧
      Fetched u x t u' pMessage
  /-- A message that is not freed is the one received: its head always, its payload as long
  as its receiver has not written to it. -/
  held : ∀ x, ∀ g ∈ (s.task x).held, ((s.task x).received g.task)[g.index]? = some g.msg ∧
    (decode s.shared.kernel.mem g.pMessage).head = g.msg.head ∧
    (g.touched = false → decode s.shared.kernel.mem g.pMessage = g.msg)

/-- In every interleaving of the tasks messages arrive once, in order and unchanged. -/
theorem delivered {s : Machine Tid} (h : Reachable L s) : Delivered L s := by
  have hok := ok_of_reachable h
  have hlog := logged_of_reachable h
  obtain ⟨free, queue, hp⟩ := hok.sound
  have hfifo : ∀ t, (s.shared.posted.filter fun e => e.call.task = t).map Post.msg =
      (s.shared.received t).map Prod.snd ++
        (s.shared.kernel.queued t).map (decode s.shared.kernel.mem) := by
    intro t
    rw [hp.queued_eq]
    exact hp.log t
  refine ⟨hfifo, fun x => (hlog.task x).sent, fun x => (hlog.task x).received,
    fun x t hx => ?_, hlog.good, fun x t es s' pMessage hcall => fetched h hcall,
    fun x g hg => ?_⟩
  · have hall : (s.shared.received t).filter (fun e => e.1 = x) = s.shared.received t :=
      List.filter_eq_self.mpr fun e he => decide_eq_true (hx e he)
    have hreceived := (hlog.task x).received t
    rw [hall] at hreceived
    rw [hfifo t, hreceived]
  · have hheld := (hok.task x).held g hg
    exact ⟨(hlog.task x).held g hg, hheld.head, hheld.intact⟩

/-- A task sends two bytes to another one, which receives them. -/
def oneMessage : List (Event MainTask) :=
  [.write .one 4096 7, .write .one 4097 8, .call .one (.send ⟨0, 1, 0, 0, 4096, 2⟩),
    .call .start (.receive 0)] ++ List.replicate 11 (.act .one) ++
    [.write .one 4096 9, .act .start, .ret .one, .act .start, .ret .start]

theorem delivered_one_message :
    ∃ s, exec (Machine.step sideBySide) booted oneMessage = some s ∧ Delivered sideBySide s := by
  obtain ⟨s, hs⟩ := Option.isSome_iff_exists.mp
    (show (exec (Machine.step sideBySide) booted oneMessage).isSome from rfl)
  exact ⟨s, hs, delivered ⟨_, _, _, hs⟩⟩

end Stm32Templet.Sys
