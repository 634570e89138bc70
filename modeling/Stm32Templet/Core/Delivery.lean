import Stm32Templet.Core.Wakeup
import Stm32Templet.Lib.Handoff

/-! # Every message arrives once

What is posted to a semaphore, mailbox or queue is received once and in the order of the posts:
at once, after it has been in the event control block, or by way of the `OSTCBMsg` of a task that
waited for it.  Nothing is lost unless a task is deleted that has been given a message and has
not run since (`Machine.Reachable.delivery`). -/

namespace Stm32Templet.Core

open Bitmap Os Runs Handoff

variable {k : Kern} {A A' : Model} {m m' : Machine} {e i : ℕ} {a : Act} {as : List Act}

/-! ### Steps of the model -/

/-- The message that a task has been given for event `e`. -/
def Phase.given (e : ℕ) : Phase → Option ℕ
  | ended e' (.got pmsg) => if e' = e then some pmsg else none
  | _ => none

theorem Phase.given_countdown (ph : Phase) : ph.countdown.given e = ph.given e := by
  cases ph <;> rfl

theorem Phase.given_expire (ph : Phase) : ph.expire.given e = ph.given e := by
  cases ph <;> rfl

theorem Phase.given_of_listed {ph : Phase} {e' : ℕ} (h : ph.listed = some e') :
    ph.given e = none := by
  cases ph with
  | run n => rfl
  | wait e n => rfl
  | ended e o =>
      cases o with
      | got pmsg => cases h
      | timeout => rfl
      | abort => rfl
  | stopped e => rfl

theorem Phase.given_of_stops {ph : Phase} (h : ph.stops = true) : ph.given e = none := by
  cases ph with
  | stopped e => rfl
  | _ => cases h

namespace Model

def given (A : Model) (e i : ℕ) : Option ℕ := ((A.task i).phase.given e).map (A.kind e).msg

/-- The messages that tasks have been given. -/
def inFlight (A : Model) (e : ℕ) : List ℕ := A.list.filterMap (A.given e)

def transit (A : Model) (e : ℕ) : Transit ℕ := ⟨(A.buffer e).items, A.inFlight e⟩

def sent (e : ℕ) (A : Model) : Act → List ℕ
  | .put e' pmsg => if e' = e then [pmsg] else []
  | .change _ (.wake e' (.got pmsg)) => if e' = e then [(A.kind e).msg pmsg] else []
  | _ => []

def received (e : ℕ) (A : Model) : Act → List ℕ
  | .take e' pmsg => if e' = e then [pmsg] else []
  | .change _ (.finish e' (.got pmsg)) => if e' = e then [(A.kind e).msg pmsg] else []
  | _ => []

def dropped (e : ℕ) (A : Model) : Act → List ℕ
  | .change i .stop => (A.given e i).toList
  | _ => []

theorem inFlight_perm (hi : i ∈ A.list) :
    (A.inFlight e).Perm ((A.given e i).toList ++ (A.list.erase i).filterMap (A.given e)) := by
  have hperm := (List.perm_cons_erase hi).filterMap (A.given e)
  rw [List.filterMap_cons] at hperm
  cases hg : A.given e i with
  | none => rwa [hg] at hperm
  | some pmsg => rwa [hg] at hperm

theorem inFlight_edit (hok : A.Ok) (hi : i ∈ A.list) {t : Task} :
    ((A.edit i t).inFlight e).Perm (((t.phase.given e).map (A.kind e).msg).toList ++
      (A.list.erase i).filterMap (A.given e)) := by
  refine (inFlight_perm (A := A.edit i t) hi).trans (.of_eq ?_)
  unfold given
  rw [edit_task_self]
  refine congrArg₂ (· ++ ·) rfl (List.filterMap_congr fun j hj => ?_)
  have hji : j ≠ i := by
    rintro rfl
    exact hok.nodup_list.not_mem_erase hj
  rw [edit_task_of_ne hji]
  rfl

theorem inFlight_same (hok : A.Ok) (hi : i ∈ A.list) {t : Task}
    (ht : t.phase.given e = (A.task i).phase.given e) :
    (A.inFlight e).Perm ((A.edit i t).inFlight e) :=
  (inFlight_perm hi).trans ((inFlight_edit hok hi).trans (.of_eq (by rw [ht]; rfl))).symm

theorem inFlight_setItems {e' : ℕ} {l : List ℕ} :
    (A.setItems e' l).inFlight e = A.inFlight e := by
  unfold inFlight given
  rw [setItems_kind]
  rfl

/-- A step sends, receives or drops a message, or none of this. -/
theorem moves_step (hok : A.Ok) (hserved : A.Served) (hs : A.step a = some A') :
    (A.transit e).Moves (A.sent e a) (A.received e a) (A.dropped e a) (A'.transit e) := by
  obtain ⟨ha, rfl⟩ := step_eq_some.mp hs
  cases a with
  | reserve prio => exact Transit.moves_flight rfl (.of_eq rfl)
  | release prio => exact Transit.moves_flight rfl (.of_eq rfl)
  | alloc i => exact Transit.moves_flight rfl (.of_eq rfl)
  | create i prio =>
      refine Transit.moves_flight rfl (.of_eq ?_)
      change A.inFlight e = (i :: A.list).filterMap _
      have hgiven : (A.after (.create i prio)).given e i = none := by
        rw [given, create_task_self]
        rfl
      rw [List.filterMap_cons, hgiven]
      refine List.filterMap_congr fun j hj => ?_
      rw [given, given, create_task_of_mem (hok.mem_create ha) hj]
      rfl
  | delete i =>
      refine Transit.moves_flight rfl ?_
      have hperm := inFlight_perm (e := e) ha.1
      rw [given, Phase.given_of_stops ha.2] at hperm
      exact hperm
  | put e' pmsg =>
      rw [sent]
      by_cases he : e' = e
      · subst he
        rw [if_pos rfl]
        exact Transit.moves_put (congrArg Buffer.items setItems_self) inFlight_setItems
      · rw [if_neg he]
        have hbuffer := setItems_of_ne (A := A) (l := (A.buffer e').items ++ [pmsg]) (Ne.symm he)
        exact Transit.moves_flight (congrArg Buffer.items hbuffer) (.of_eq inFlight_setItems.symm)
  | take e' pmsg =>
      rw [received]
      by_cases he : e' = e
      · subst he
        rw [if_pos rfl]
        obtain ⟨l, hl⟩ := List.head?_eq_some_iff.mp ha
        refine Transit.moves_take ?_ inFlight_setItems
        change (A.buffer e').items = pmsg :: ((A.setItems e' _).buffer e').items
        rw [setItems_self, hl]
        rfl
      · rw [if_neg he]
        have hbuffer := setItems_of_ne (A := A) (l := (A.buffer e').items.tail) (Ne.symm he)
        exact Transit.moves_flight (congrArg Buffer.items hbuffer) (.of_eq inFlight_setItems.symm)
  | change i c =>
      obtain ⟨hi, hc⟩ := ha
      have hsame : (c.apply (A.task i)).phase.given e = (A.task i).phase.given e →
          (A.transit e).Moves [] [] [] ((A.edit i (c.apply (A.task i))).transit e) :=
        fun hg => Transit.moves_flight rfl (inFlight_same hok hi hg)
      cases c with
      | setPrio prio => exact hsame rfl
      | suspend => exact hsame rfl
      | resume => exact hsame rfl
      | delay n => exact hsame (by rw [hc.2]; rfl)
      | countdown => exact hsame (Phase.given_countdown _)
      | expire => exact hsame (Phase.given_expire _)
      | wait e' n => exact hsame (by rw [hc.2.1]; rfl)
      | stop =>
          exact Transit.moves_flight rfl ((inFlight_perm hi).trans
            ((inFlight_edit (t := Change.apply .stop (A.task i)) hok hi).symm.append_left _))
      | wake e' o =>
          have hnone := Phase.given_of_listed (e := e) hc.1
          cases o with
          | timeout => exact hsame hnone.symm
          | abort => exact hsame hnone.symm
          | got pmsg =>
              rw [sent]
              by_cases he : e' = e
              · subst he
                rw [if_pos rfl]
                have hempty : (A.buffer e').items = [] := by
                  by_contra hne
                  exact hserved e' hne i hi hc.1
                refine Transit.moves_hand hempty rfl ((inFlight_edit hok hi).trans ?_)
                have hperm := inFlight_perm (e := e') hi
                rw [given, hnone] at hperm
                rw [Change.apply, Phase.given, if_pos rfl]
                exact hperm.symm.cons _
              · rw [if_neg he]
                refine hsame ?_
                rw [hnone, Change.apply, Phase.given, if_neg he]
      | finish e' o =>
          have hph : (A.task i).phase = .ended e' o := hc
          cases o with
          | timeout => exact hsame (by rw [hph]; rfl)
          | abort => exact hsame (by rw [hph]; rfl)
          | got pmsg =>
              rw [received]
              by_cases he : e' = e
              · subst he
                rw [if_pos rfl]
                refine Transit.moves_flight rfl ((inFlight_perm hi).trans ?_)
                rw [given, hph, Phase.given, if_pos rfl]
                exact (inFlight_edit (t := Change.apply (.finish e' (.got pmsg)) (A.task i))
                  hok hi).symm.cons _
              · rw [if_neg he]
                refine hsame ?_
                rw [hph, Change.apply, Phase.given, if_neg he]
                rfl

theorem moves_exec_nil (hok : A.Ok) (hserved : A.Served) (hexec : exec Model.step A as = some A')
    (has : ∀ a ∈ as, ∀ A, sent e A a = [] ∧ received e A a = [] ∧ dropped e A a = []) :
    (A.transit e).Moves [] [] [] (A'.transit e) := by
  induction as generalizing A with
  | nil =>
      cases hexec
      exact .refl _
  | cons a as ih =>
      obtain ⟨B, hB, hexec⟩ := exec_cons.mp hexec
      obtain ⟨hsent, hreceived, hdropped⟩ := has a List.mem_cons_self A
      have hmoves := moves_step (e := e) hok hserved hB
      rw [hsent, hreceived, hdropped] at hmoves
      exact hmoves.trans (ih (hok.step hB) (hserved.step hok hB) hexec fun b hb =>
        has b (List.mem_cons_of_mem a hb))

end Model

/-! ### Calls -/

/-- What a call puts into event `e`, or gives to a task that waits for it. -/
def Call.sent (e : ℕ) (x : Exit) : Call → List ℕ
  | post kd e' pmsg => if e' = e ∧ x.err = OS_ERR_NONE then [kd.msg pmsg] else []
  | _ => []

/-- The message with which a call returns that has not to wait. -/
def Call.received (e : ℕ) (x : Exit) : Call → List ℕ
  | pend _ e' _ => if e' = e ∧ x.err = OS_ERR_NONE ∧ x.pend = none then [x.msg] else []
  | accept .sem e' => if e' = e ∧ x.msg > 0 then [0] else []
  | accept .mbox e' => if e' = e ∧ x.msg ≠ 0 then [x.msg] else []
  | accept .q e' => if e' = e ∧ x.err = OS_ERR_NONE then [x.msg] else []
  | _ => []

/-- The message that task `i` has been given. -/
def Kern.given (k : Kern) (e i : ℕ) : Option ℕ :=
  let t := k.OSTCBTbl i
  if t.OSTCBEventPtr = some e ∧ t.OSTCBStat &&& OS_STAT_PEND_ANY = OS_STAT_RDY ∧
      t.OSTCBStatPend = .OK then
    some ((k.OSEventTbl e).obj.kind.msg t.OSTCBMsg)
  else none

/-- The message of a task that is deleted. -/
def Call.dropped (e : ℕ) (k : Kern) (x : Exit) : Call → List ℕ
  | del prio =>
      match k.OSTCBPrioTbl (k.self prio) with
      | .tcb i => if x.err = OS_ERR_NONE then (k.given e i).toList else []
      | _ => []
  | _ => []

theorem Kern.Rep.given_eq (h : k.Rep A) (hi : i ∈ A.list)
    (hstop : (A.task i).phase.stops = false) : k.given e i = A.given e i := by
  have ht := h.task i hi
  have hstat := stat_and_pend ((A.task i).phase.waits.map A.kind) (A.task i).susp
  have hpend := ht.pend
  unfold Kern.given Model.given
  simp only [ht.event, ht.stat, h.kind_eq]
  cases hph : (A.task i).phase with
  | run n => exact if_neg fun hg => nomatch hg.1
  | wait e' n =>
      rw [hph] at hstat
      refine if_neg fun hg => ?_
      cases hstat.mp hg.2.1
  | stopped e' =>
      rw [hph] at hstop
      cases hstop
  | ended e' o =>
      rw [hph] at hstat hpend
      cases o with
      | timeout =>
          refine if_neg fun hg => ?_
          cases hg.2.2.symm.trans hpend
      | abort =>
          refine if_neg fun hg => ?_
          cases hg.2.2.symm.trans hpend
      | got pmsg =>
          obtain ⟨hok, hmsg⟩ := hpend
          rw [Phase.given]
          by_cases he : e' = e
          · rw [if_pos he, if_pos ⟨congrArg some he, hstat.mpr rfl, hok⟩, hmsg]
            rfl
          · rw [if_neg he]
            exact if_neg fun hg => he (Option.some.inj hg.1)

theorem Kind.msg_msg (kd : Kind) (pmsg : ℕ) : kd.msg (kd.msg pmsg) = kd.msg pmsg := by
  cases kd <;> rfl

theorem Kern.Rep.mbox_ne_zero (h : k.Rep A) (hkind : A.kind e = .mbox) {pmsg : ℕ}
    (hmem : pmsg ∈ (A.buffer e).items) : pmsg ≠ 0 := by
  have hobj := h.obj e
  rw [← h.kind_eq] at hkind
  cases ho : (k.OSEventTbl e).obj with
  | sem cnt =>
      rw [ho] at hkind
      cases hkind
  | q pq =>
      rw [ho] at hkind
      cases hkind
  | mbox p =>
      rw [ho] at hobj
      rw [hobj.2.2] at hmem
      split at hmem
      · cases hmem
      · rename_i hp
        rwa [List.mem_singleton.mp hmem]

namespace Call

variable {c : Call} {x : Exit}

theorem Failed.logs (hfail : c.Failed x.err) (hx : x = k.ret x.err) :
    c.sent e x = [] ∧ c.received e x = [] ∧ c.dropped e k x = [] := by
  have hmsg : x.msg = 0 := by rw [hx]; rfl
  cases c with
  | pend kd e' timeout => exact ⟨rfl, if_neg fun h => hfail h.2.1, rfl⟩
  | post kd e' pmsg => exact ⟨if_neg fun h => hfail h.2, rfl, rfl⟩
  | accept kd e' =>
      refine ⟨rfl, ?_, rfl⟩
      cases kd with
      | sem => exact if_neg fun h => Nat.ne_of_gt h.2 hmsg
      | mbox => exact if_neg fun h => h.2 hmsg
      | q => exact if_neg fun h => hfail h.2
  | del prio =>
      refine ⟨rfl, rfl, ?_⟩
      unfold dropped
      simp only
      split
      · exact if_neg hfail
      · rfl
  | _ => exact ⟨rfl, rfl, rfl⟩

theorem Acts.moves (hacts : c.Acts k A x as) (h : k.Rep A) (hserved : A.Served)
    (hexec : Runs.exec Model.step A as = some A') :
    (A.transit e).Moves (c.sent e x) (c.received e x) (c.dropped e k x) (A'.transit e) := by
  have hone : ∀ a, as = [a] → (A.transit e).Moves (A.sent e a) (A.received e a) (A.dropped e a)
      (A'.transit e) := by
    rintro a rfl
    exact Model.moves_step h.ok hserved (Model.step_eq_some.mpr (Model.exec_one_iff.mp hexec))
  cases c with
  | lock => exact hacts.elim
  | unlock => exact hacts.elim
  | timeSet ticks =>
      obtain ⟨rfl, _⟩ := hacts
      cases hexec
      exact .refl _
  | create prio => exact hacts.elim
  | del prio => exact hacts.elim
  | changePrio oldprio newprio =>
      obtain ⟨_, _, i, _, _, rfl⟩ := hacts
      exact hone _ rfl
  | suspend prio =>
      obtain ⟨_, i, _, _, rfl, _⟩ := hacts
      exact hone _ rfl
  | resume prio =>
      obtain ⟨_, i, _, _, rfl, _⟩ := hacts
      exact hone _ rfl
  | dly ticks =>
      obtain ⟨_, _, _, _, _, rfl⟩ := hacts
      exact hone _ rfl
  | dlyResume prio =>
      obtain ⟨_, i, _, _, rfl, _⟩ := hacts
      exact hone _ rfl
  | pend kd e' timeout =>
      obtain ⟨_, _, _, ⟨rfl, herr, hpend, _⟩ | ⟨rfl, hpend, _⟩⟩ := hacts
      · have hreceived : (pend kd e' timeout).received e x = A.received e (.take e' x.msg) := by
          simp only [received, Model.received, herr, hpend, and_self, and_true]
        rw [hreceived]
        exact hone _ rfl
      · have hreceived : (pend kd e' timeout).received e x = [] := by
          refine if_neg fun hg => ?_
          cases hpend.symm.trans hg.2.2
        rw [hreceived]
        exact hone _ rfl
  | post kd e' pmsg =>
      obtain ⟨hkind, herr, _, hacts⟩ := hacts
      have hsent : (post kd e' pmsg).sent e x = if e' = e then [kd.msg pmsg] else [] := by
        simp only [sent, herr, and_true]
      rw [hsent]
      rcases hacts with ⟨rfl, _⟩ | ⟨_, i, rfl⟩
      · exact hone _ rfl
      · have hmoves := hone _ rfl
        rw [Model.sent] at hmoves
        by_cases he : e' = e
        · subst he
          rw [hkind, Kind.msg_msg] at hmoves
          exact hmoves
        · rw [if_neg he] at hmoves ⊢
          exact hmoves
  | accept kd e' =>
      obtain ⟨hkind, herr, _, _, pmsg, rfl, hmsg⟩ := hacts
      have hreceived : (accept kd e').received e x = A.received e (.take e' pmsg) := by
        cases kd with
        | sem =>
            obtain ⟨hpos, rfl⟩ := hmsg
            simp only [received, Model.received, hpos, and_true]
        | mbox =>
            obtain rfl : x.msg = pmsg := hmsg
            have hmem := List.mem_of_mem_head? (Model.exec_one_iff.mp hexec).1
            have hne := h.mbox_ne_zero hkind hmem
            simp only [received, Model.received, ne_eq, hne, not_false_eq_true, and_true]
        | q =>
            obtain rfl : x.msg = pmsg := hmsg
            simp only [received, Model.received, herr, and_true]
      rw [hreceived]
      exact hone _ rfl
  | pendAbort kd e' broadcast =>
      obtain ⟨_, _, _, l, rfl⟩ := hacts
      refine Model.moves_exec_nil h.ok hserved hexec fun a ha B => ?_
      obtain ⟨j, _, rfl⟩ := List.mem_map.mp ha
      exact ⟨rfl, rfl, rfl⟩

theorem Begins.moves (hbegins : c.Begins k A x as) (h : k.Rep A) (hserved : A.Served)
    (hexec : Runs.exec Model.step A as = some A') :
    (A.transit e).Moves (c.sent e x) (c.received e x) (c.dropped e k x) (A'.transit e) := by
  cases c with
  | create prio =>
      obtain ⟨_, _, _, rfl⟩ := hbegins
      exact Model.moves_step h.ok hserved (Model.step_eq_some.mpr (Model.exec_one_iff.mp hexec))
  | del prio =>
      obtain ⟨_, _, i, hi, hprio, hx, rfl⟩ := hbegins
      obtain ⟨hallowed, rfl⟩ := Model.exec_one_iff.mp hexec
      have hmoves := Model.moves_step (e := e) h.ok hserved
        (Model.step_eq_some.mpr ⟨hallowed, rfl⟩)
      have herr : x.err = OS_ERR_NONE := congrArg Exit.err hx
      unfold dropped
      simp only [← hprio, h.prioTbl_of hi, if_pos herr, h.given_eq hi hallowed.2.2]
      exact hmoves
  | _ => exact hbegins.elim

theorem Effect.moves (heffect : c.Effect k A x as) (h : k.Rep A) (hserved : A.Served)
    (hexec : Runs.exec Model.step A as = some A') :
    (A.transit e).Moves (c.sent e x) (c.received e x) (c.dropped e k x) (A'.transit e) := by
  rcases heffect with ⟨rfl, ⟨hx, hfail⟩ | hlocks⟩ | ⟨_, hacts⟩ | ⟨_, hbegins⟩
  · obtain ⟨hsent, hreceived, hdropped⟩ := hfail.logs (e := e) hx
    rw [hsent, hreceived, hdropped]
    cases hexec
    exact .refl _
  · cases hexec
    cases c with
    | lock => exact .refl _
    | unlock => exact .refl _
    | _ => exact hlocks.elim
  · exact hacts.moves h hserved hexec
  · exact hbegins.moves h hserved hexec

end Call

/-- The further sections of a creation or deletion move no messages. -/
theorem Section.Acts.moves {s : Section} {x : Exit} (hacts : s.Acts k A x as) (h : k.Rep A)
    (hserved : A.Served) (hexec : Runs.exec Model.step A as = some A') :
    (A.transit e).Moves [] [] [] (A'.transit e) := by
  refine Model.moves_exec_nil h.ok hserved hexec fun a ha B => ?_
  cases s with
  | tcbInit prio =>
      obtain ⟨_, ⟨_, rfl, _⟩ | ⟨i, rfl, _⟩⟩ := hacts
      · cases ha
      · obtain rfl := List.mem_singleton.mp ha
        exact ⟨rfl, rfl, rfl⟩
  | tcbLink prio ptcb =>
      obtain ⟨_, _, _, _, _, rfl⟩ := hacts
      obtain rfl := List.mem_singleton.mp ha
      exact ⟨rfl, rfl, rfl⟩
  | release prio =>
      obtain ⟨_, _, _, _, _, rfl⟩ := hacts
      obtain rfl := List.mem_singleton.mp ha
      exact ⟨rfl, rfl, rfl⟩
  | delete prio ptcb =>
      obtain ⟨_, _, _, _, _, rfl⟩ := hacts
      obtain rfl := List.mem_singleton.mp ha
      exact ⟨rfl, rfl, rfl⟩

/-! ### Runs -/

namespace Machine

/-- The messages that the event posts. -/
def sent (e : ℕ) (m : Machine) : Event → List ℕ
  | .call c | .isr c => (c.exec m.kern).elim [] fun x => c.sent e x
  | _ => []

/-- The messages with which pends and accepts return. -/
def received (e : ℕ) (m : Machine) : Event → List ℕ
  | .call c | .isr c => (c.exec m.kern).elim [] fun x => c.received e x
  | .pendEnd =>
      match m.at.pend with
      | some (kd, e') =>
          let r := (pendEnd kd e' m.kern).1
          if e' = e ∧ r.1 = OS_ERR_NONE then [r.2] else []
      | none => []
  | _ => []

/-- The messages of tasks that are deleted. -/
def dropped (e : ℕ) (m : Machine) : Event → List ℕ
  | .call c | .isr c => (c.exec m.kern).elim [] fun x => c.dropped e m.kern x
  | _ => []

/-- What is in the event control block. -/
def messages (m : Machine) (e : ℕ) : List ℕ := (m.kern.OSEventTbl e).obj.messages

/-- The messages that tasks have been given that have not run since and are not being deleted. -/
def inFlight (m : Machine) (e : ℕ) : List ℕ :=
  (List.range (OS_MAX_TASKS + OS_N_SYS_TASKS)).filterMap fun i =>
    if m.kern.OSTCBPrioTbl (m.kern.OSTCBTbl i).OSTCBPrio = .tcb i ∧ m.deleting ≠ some i then
      m.kern.given e i
    else none

theorem Inv.moves (h : m.Inv A) {ev : Event} (hacts : m.Acts A as ev)
    (hexec : exec Model.step A as = some A') :
    (A.transit e).Moves (m.sent e ev) (m.received e ev) (m.dropped e ev) (A'.transit e) := by
  cases ev with
  | call c =>
      obtain ⟨x, hx, heffect⟩ := hacts
      simp only [sent, received, dropped, hx, Option.elim_some]
      exact heffect.moves h.rep h.served hexec
  | isr c =>
      obtain ⟨x, hx, heffect⟩ := hacts
      simp only [sent, received, dropped, hx, Option.elim_some]
      exact heffect.moves h.rep h.served hexec
  | pendEnd =>
      obtain ⟨e', o, hat, _, hres, rfl⟩ := hacts
      have hmoves := Model.moves_step (e := e) h.rep.ok h.served
        (Model.step_eq_some.mpr (Model.exec_one_iff.mp hexec))
      have hreceived : m.received e .pendEnd =
          A.received e (.change m.kern.OSTCBCur (.finish e' o)) := by
        simp only [received, hat, hres]
        cases o with
        | timeout => exact if_neg fun hg => nomatch hg.2
        | abort => exact if_neg fun hg => nomatch hg.2
        | got pmsg =>
            rw [Model.received]
            by_cases he : e' = e
            · subst he
              rw [if_pos ⟨rfl, rfl⟩, if_pos rfl]
              cases A.kind e' <;> rfl
            · rw [if_neg he]
              exact if_neg fun hg => he hg.1
      rw [hreceived]
      exact hmoves
  | proceed =>
      obtain ⟨s, x, _, _, _, hacts⟩ := hacts
      exact hacts.moves h.rep h.served hexec
  | tickTcb =>
      obtain ⟨i, _, _, rfl⟩ := hacts
      refine Model.moves_exec_nil h.rep.ok h.served hexec fun a ha B => ?_
      unfold tickActs at ha
      split at ha
      · cases ha
      · split at ha
        · obtain rfl := List.mem_singleton.mp ha
          exact ⟨rfl, rfl, rfl⟩
        · obtain rfl := List.mem_singleton.mp ha
          exact ⟨rfl, rfl, rfl⟩
  | _ =>
      rw [show as = [] from hacts] at hexec
      cases hexec
      exact .refl _

theorem Inv.moves_run (h : m.Inv A) {es : List Event} (hC : Along Machine.step Contract m es)
    (hes : exec Machine.step m es = some m') :
    ∃ as A', exec Model.step A as = some A' ∧ m'.Inv A' ∧
      (A.transit e).Moves (trace Machine.step (sent e) m es) (trace Machine.step (received e) m es)
        (trace Machine.step (dropped e) m es) (A'.transit e) := by
  induction es generalizing m A with
  | nil =>
      cases hes
      exact ⟨[], A, rfl, h, .refl _⟩
  | cons ev es ih =>
      obtain ⟨m₁, hs, hes⟩ := exec_cons.mp hes
      obtain ⟨m₂, as, A₁, hs', hacts, hexec, hA₁⟩ := h.step (enabled_of_step hs) hC.1
      obtain rfl := Option.some.inj (hs.symm.trans hs')
      obtain ⟨as', A', hexec', hA', hmoves⟩ := ih hA₁ (hC.2 m₁ hs) hes
      refine ⟨as ++ as', A', exec_append.mpr ⟨A₁, hexec, hexec'⟩, hA', ?_⟩
      rw [trace_cons hs, trace_cons hs, trace_cons hs]
      exact (h.moves hacts hexec).trans hmoves

theorem Inv.inFlight_perm (h : m.Inv A)
    (hperm : A.tcbs.Perm (List.range (OS_MAX_TASKS + OS_N_SYS_TASKS))) :
    (m.inFlight e).Perm (A.inFlight e) := by
  refine (hperm.symm.filterMap _).trans (.of_eq ?_)
  rw [Model.tcbs, List.filterMap_append]
  have hlist : ∀ i ∈ A.list, m.kern.OSTCBPrioTbl (m.kern.OSTCBTbl i).OSTCBPrio = .tcb i := by
    intro i hi
    rw [(h.rep.task i hi).prio]
    exact h.rep.prioTbl_of hi
  have hother : ∀ i ∈ A.free ++ A.taken,
      m.kern.OSTCBPrioTbl (m.kern.OSTCBTbl i).OSTCBPrio ≠ .tcb i :=
    fun i hi htcb => (List.nodup_append.mp h.rep.ok.nodup).2.2 i
      (h.rep.mem_of_prioTbl htcb).1 i hi rfl
  have hnil : (A.free ++ A.taken).filterMap (fun i =>
      if m.kern.OSTCBPrioTbl (m.kern.OSTCBTbl i).OSTCBPrio = .tcb i ∧ m.deleting ≠ some i then
        m.kern.given e i
      else none) = [] :=
    List.filterMap_eq_nil_iff.mpr fun i hi => if_neg fun hg => hother i hi hg.1
  rw [hnil, List.append_nil]
  refine List.filterMap_congr fun i hi => ?_
  cases hs : (A.task i).phase.stops with
  | false =>
      have hdel : m.deleting ≠ some i := fun hd => by
        cases hs.symm.trans (h.deleting_iff.mp hd).2
      rw [if_pos ⟨hlist i hi, hdel⟩, h.rep.given_eq hi hs]
  | true =>
      rw [if_neg (not_and_not_right.mpr fun _ => h.deleting_iff.mpr ⟨hi, hs⟩), Model.given,
        Phase.given_of_stops hs]
      rfl

/-- The tasks that hold something from event `e`, `l` before.  What an interrupt service routine
does counts for the task that it interrupts. -/
def holders (e : ℕ) (m : Machine) (l : List ℕ) (ev : Event) : List ℕ :=
  if m.received e ev ≠ [] then m.kern.OSTCBCur :: l
  else if m.sent e ev ≠ [] then l.erase m.kern.OSTCBCur
  else l

/-- A step, with the tasks that hold something. -/
def holdStep (e : ℕ) (s : Machine × List ℕ) (ev : Event) : Option (Machine × List ℕ) :=
  (s.1.step ev).map fun m' => (m', s.1.holders e s.2 ev)

theorem sent_or_received (m : Machine) (e : ℕ) (ev : Event) :
    m.received e ev = [] ∧ (m.sent e ev).length ≤ 1 ∨
      m.sent e ev = [] ∧ (m.received e ev).length ≤ 1 := by
  have hif : ∀ (c : Prop) [Decidable c] (pmsg : ℕ), (if c then [pmsg] else []).length ≤ 1 := by
    intro c _ pmsg
    split
    · exact Nat.le_refl 1
    · exact Nat.zero_le 1
  have hcall : ∀ c : Call, ((c.exec m.kern).elim [] fun x => c.received e x) = [] ∧
        ((c.exec m.kern).elim [] fun x => c.sent e x).length ≤ 1 ∨
      ((c.exec m.kern).elim [] fun x => c.sent e x) = [] ∧
        ((c.exec m.kern).elim [] fun x => c.received e x).length ≤ 1 := by
    intro c
    cases c.exec m.kern with
    | none => exact Or.inl ⟨rfl, Nat.zero_le 1⟩
    | some x =>
        cases c with
        | post kd e' pmsg => exact Or.inl ⟨rfl, hif _ _⟩
        | pend kd e' timeout => exact Or.inr ⟨rfl, hif _ _⟩
        | accept kd e' =>
            refine Or.inr ⟨rfl, ?_⟩
            cases kd with
            | sem => exact hif _ _
            | mbox => exact hif _ _
            | q => exact hif _ _
        | _ => exact Or.inl ⟨rfl, Nat.zero_le 1⟩
  cases ev with
  | call c => exact hcall c
  | isr c => exact hcall c
  | pendEnd =>
      refine Or.inr ⟨rfl, ?_⟩
      unfold received
      simp only
      split
      · exact hif _ _
      · exact Nat.zero_le 1
  | _ => exact Or.inl ⟨rfl, Nat.zero_le 1⟩

theorem holders_length {l : List ℕ} {ev : Event} (hsent : m.sent e ev ≠ [] → m.kern.OSTCBCur ∈ l) :
    (m.holders e l ev).length + (m.sent e ev).length = l.length + (m.received e ev).length := by
  unfold holders
  rcases sent_or_received m e ev with ⟨hnone, hle⟩ | ⟨hnone, hle⟩
  · rw [if_neg (not_not.mpr hnone), hnone]
    split
    · rename_i hne
      have hpos := List.length_pos_iff.mpr hne
      have hl := List.length_pos_of_mem (hsent hne)
      rw [List.length_erase_of_mem (hsent hne), List.length_nil]
      omega
    · rename_i heq
      rw [not_not.mp heq]
  · rw [if_neg (not_not.mpr hnone), hnone]
    split
    · rename_i hne
      have hpos := List.length_pos_iff.mpr hne
      rw [List.length_cons, List.length_nil]
      omega
    · rename_i heq
      rw [not_not.mp heq]

/-- A run of tasks that put nothing into the event that they do not hold. -/
theorem exec_holdStep {l l' : List ℕ} {es : List Event}
    (hC : Along (holdStep e) (fun s ev => s.1.Contract ev ∧
      (s.1.sent e ev ≠ [] → s.1.kern.OSTCBCur ∈ s.2)) (m, l) es)
    (hes : exec (holdStep e) (m, l) es = some (m', l')) :
    Along step Contract m es ∧ exec step m es = some m' ∧
      l'.length + (trace step (sent e) m es).length =
        l.length + (trace step (received e) m es).length := by
  induction es generalizing m l with
  | nil =>
      cases hes
      exact ⟨trivial, rfl, rfl⟩
  | cons ev es ih =>
      obtain ⟨⟨hc, hsent⟩, hrest⟩ := hC
      obtain ⟨s₁, hs₁, hes⟩ := exec_cons.mp hes
      obtain ⟨m₁, hm₁, rfl⟩ := Option.map_eq_some_iff.mp hs₁
      change m.step ev = some m₁ at hm₁
      obtain ⟨hC', hes', hlen⟩ := ih (hrest _ hs₁) hes
      change _ = (m.holders e l ev).length + _ at hlen
      have hstep : (m.holders e l ev).length + (m.sent e ev).length =
          l.length + (m.received e ev).length := holders_length hsent
      refine ⟨⟨hc, fun t ht => Option.some.inj (hm₁.symm.trans ht) ▸ hC'⟩,
        exec_cons.mpr ⟨m₁, hm₁, hes'⟩, ?_⟩
      rw [trace_cons hm₁, trace_cons hm₁, List.length_append, List.length_append]
      omega

end Machine

end Stm32Templet.Core
